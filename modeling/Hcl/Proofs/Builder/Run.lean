import Mathlib.Logic.Relation
import Hcl.Proofs.Builder.Outcome
import Hcl.Proofs.TokenStream.Operand

/-!
# Runs of moves

A move leads from a sound stage to a sound stage. A run of the builder is a chain of moves from the
first stage to one where the source ends or a step fails.
-/

namespace Hcl

open Hcl.Tree Hcl.TokenStream
open Relation (ReflTransGen)

variable {source : List Char}

/-! ## Values that are read at once -/

namespace TokenStream

theorem isValue_of_operand {first : Token} {s rest : TokenStream} {value : Symbol}
    (h : s.operand source first = .ok (value, rest)) : value.kind.isValue = true := by
  cases readsOperand_of_operand h <;> rfl

theorem isValue_of_comprehension {first : Token} {s rest : TokenStream} {value : Symbol}
    (h : s.comprehension source first = .ok (value, rest)) : value.kind.isValue = true := by
  obtain ⟨⟨stop, rest'⟩, -, hr⟩ := exists_of_map_ok h
  simp only [Prod.mk.injEq] at hr
  rw [← hr.1]
  rfl

end TokenStream

/-! ## Moves and soundness -/

/-- The level of an attribute or array takes a value and is complete then. -/
theorem Spine.Sound.value {outer : Spine} {symbol value : Symbol} {trees : List Tree}
    (h : (outer.under symbol trees).Sound false) (hk : symbol.kind = .attr ∨ symbol.kind = .array)
    (hv : value.kind.isValue = true) : (outer.under symbol (trees ++ [leaf value])).Sound true := by
  refine Spine.Sound.append h (t := leaf value) ?_ (sound_leaf hv)
  exact (SymbolKind.admits_eq_isValue hk value.kind).trans hv

theorem Move.sound {st st' : Stage} (h : Move source st st') (hs : st.spine.Sound st.complete) :
    st'.spine.Sound st'.complete := by
  cases h with
  | attr hb _ _ _ _ => exact hb.sound_attr hs _ _
  | block hb _ _ hl _ => exact hb.sound_block hs hl _
  | bodyArray hb _ _ _ => exact hb.sound_array hs _
  | blockEnd hk _ _ => exact Outcome.sound_closed hs (fun hattr => by simp [hk] at hattr) _
  | operand hk _ hr => exact hs.value hk (isValue_of_operand hr)
  | comprehension hk _ _ _ hr => exact hs.value hk (isValue_of_comprehension hr)
  | array hk _ _ _ _ => exact Spine.Sound.array hs hk _
  | map hk _ _ _ _ => exact Spine.Sound.map hs hk _
  | attrEnd hk hx _ =>
    exact Outcome.sound_closed (hs.extend [] (.inl hk) hx) (fun _ => rfl) _
  | element hk hx _ =>
    refine (hs.extend _ (.inr hk) hx).of_complete fun outer' symbol' ts hsp => ?_
    obtain ⟨-, rfl, -⟩ := Spine.under.inj hsp
    simp [hk]
  | arrayEnd hk _ _ => exact Outcome.sound_closed hs (fun hattr => by simp [hk] at hattr) _
  | entry hk _ _ _ => exact Spine.Sound.entry hs hk _ _
  | mapEnd hk _ _ => exact Outcome.sound_closed hs (fun hattr => by simp [hk] at hattr) _

/-! ## Runs -/

/-- What a run comes to when no move is possible from `st`: the source ends outside of all symbols,
or a step fails. -/
inductive Stage.Ends (source : List Char) (st : Stage) : Parsed → Prop where
  | finish {trees : List Tree} {t : Token} : st.spine = .root trees →
      st.stream.skipNewlines.peek = .ok t → t.kind = .eof → Stage.Ends source st ⟨st.spine.tree, none⟩
  | stop {stopped : Stopped} {sp : Spine} {c : Bool} : st.step source = .error stopped →
      stopped.tree = sp.tree → sp.Sound c → Leaves source st sp →
      Stage.Ends source st ⟨stopped.tree, some stopped.error⟩

/-- Every run is a chain of moves from one sound stage to another. -/
theorem Stage.exists_ends (source : List Char) (st : Stage) (h : st.spine.Sound st.complete) :
    ∃ st', ReflTransGen (Move source) st st' ∧ st'.spine.Sound st'.complete ∧
      st'.Ends source (st.builder source).run := by
  have hout : Outcome source st (st.step source) := outcome_step h
  generalize hstep : st.step source = r at hout
  have hrun := run_builder source st
  rw [hstep] at hrun
  cases hout with
  | @move st' hmove =>
    have hlt := measure_lt hstep
    obtain ⟨last, hmoves, hlast, hends⟩ := exists_ends source st' (hmove.sound h)
    exact ⟨last, .head hmove hmoves, hlast, hrun ▸ hends⟩
  | finish hroot hpeek heof hscopes htree =>
    refine ⟨st, .refl, h, ?_⟩
    dsimp only at hrun
    rw [hrun, Builder.run_of_scopes_nil hscopes, htree]
    exact .finish hroot hpeek heof
  | stop htree hsound hleaves =>
    refine ⟨st, .refl, h, ?_⟩
    rw [hrun]
    exact .stop hstep htree hsound hleaves
termination_by (st.builder source).measure

/-- The run over a source. -/
theorem exists_ends_parseTree (source : String) :
    ∃ st, ReflTransGen (Move source.toList) (.ofStream (.ofString source)) st ∧
      st.spine.Sound st.complete ∧ st.Ends source.toList (parseTree source) := by
  have h := Stage.exists_ends source.toList (.ofStream (.ofString source)) trivial
  rwa [Stage.builder_ofStream] at h

end Hcl
