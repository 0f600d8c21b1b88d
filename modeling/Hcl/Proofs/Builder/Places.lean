import Hcl.Proofs.Builder.Run
import Hcl.Proofs.Forest.Each
import Hcl.Proofs.TokenStream.Places

/-!
# Places of symbols

Every symbol begins where a token does and ends where a token does, so it stands in the source, and
an expression has the text between its ends. This holds at every stage of the reading and of the
tree that a failing step leaves.
-/

namespace Hcl

open Hcl.Tree Hcl.TokenStream
open Relation (ReflTransGen)

variable {source : List Char}

/-- A symbol that is closed at the end of `stop`. -/
theorem Symbol.IsIn.extendTo {s : Symbol} {stop : Span} (h : s.IsIn source)
    (hstop : stop.IsIn source) (hk : ∀ e, s.kind ≠ .eval e) : (s.extendTo stop).IsIn source :=
  Symbol.isIn_of_kind (h.span.upTo hstop) hk

/-- The symbols of a spine stand in the source. -/
def Spine.IsIn (source : List Char) (sp : Spine) : Prop := sp.Each fun _ s => s.IsIn source

/-- The symbols that are read and the tokens that are left stand in the source. -/
structure Stage.IsIn (source : List Char) (st : Stage) : Prop where
  spine : st.spine.IsIn source
  stream : st.stream.IsIn source

variable {outer : Spine} {symbol : Symbol} {trees : List Tree} {v v' : Tree}
  {s s' rest : TokenStream}

/-- The value goes on as an operation or stays as it is. -/
theorem Spine.Each.extends {P : Nat → Symbol → Prop} (h : (outer.under symbol (trees ++ [v])).Each P)
    (hx : Extends source v s v' s') (hv : P (outer.depth + 1) v'.symbol) :
    (outer.under symbol (trees ++ [v'])).Each P := by
  cases hx with
  | stay => exact h
  | operation => exact h.replaceLast hv

theorem Extends.isIn (h : Extends source v s v' s') (hs : s.IsIn source)
    (hv : v.symbol.IsIn source) : v'.symbol.IsIn source := by
  cases h with
  | stay => exact hv
  | operation _ hx =>
    obtain ⟨hstop, -⟩ := (hx ▸ reads_expressionEnd hv.span hs).of_ok
    exact Symbol.isIn_eval hv.span hstop

theorem EntryKey.isIn {key : String} {span : Span} (h : EntryKey source s key span rest)
    (hs : s.IsIn source) : span.IsIn source := by
  cases h with
  | word => exact hs.head
  | group _ hg =>
    obtain ⟨hstop, -⟩ := (hg ▸ reads_skipGroup hs.head.start hs.tail).of_ok
    exact hs.head.upTo hstop

namespace Spine.IsIn

theorem opened {sp : Spine} (h : sp.IsIn source) {symbol : Symbol}
    (hspan : symbol.span.IsIn source) (hk : ∀ e, symbol.kind ≠ .eval e) :
    (sp.under symbol []).IsIn source :=
  Each.opened h (Symbol.isIn_of_kind hspan hk)

theorem closed (h : (outer.under symbol trees).IsIn source) {stop : Span} (hstop : stop.IsIn source)
    (hk : ∀ e, symbol.kind ≠ .eval e) :
    (outer.append [node (symbol.extendTo stop) trees]).IsIn source :=
  Each.closed h (h.2.1.extendTo hstop hk)

theorem value (h : (outer.under symbol trees).IsIn source) {value : Symbol}
    (hv : value.IsIn source) : (outer.under symbol (trees ++ [leaf value])).IsIn source :=
  Each.append h (eachOf_leaf.mpr hv : EachOf _ _ [leaf value])

theorem extend (h : (outer.under symbol (trees ++ [v])).IsIn source)
    (hx : Extends source v s v' s') (hs : s.IsIn source) :
    v'.symbol.IsIn source ∧ (outer.under symbol (trees ++ [v'])).IsIn source := by
  have hv' := hx.isIn hs (Each.last h)
  exact ⟨hv', Each.extends h hx hv'⟩

end Spine.IsIn

/-! ## Moves -/

theorem TokenStream.IsIn.of_skipNewlines {t : Token} {ts : List Token}
    {e : Except LexicalError Position} (h : s.IsIn source) (hs : s.skipNewlines = ⟨t :: ts, e⟩) :
    IsIn source ⟨t :: ts, e⟩ :=
  hs ▸ h.suffix (suffix_skipNewlines s)

theorem TokenStream.IsIn.of_valueStream {kind : SymbolKind} {t : Token} {ts : List Token}
    {e : Except LexicalError Position} (h : s.IsIn source)
    (hs : Spine.valueStream kind s = ⟨t :: ts, e⟩) : IsIn source ⟨t :: ts, e⟩ := by
  rw [Spine.valueStream] at hs
  split at hs
  · exact h.of_skipNewlines hs
  · exact hs ▸ h

theorem Move.isIn_spine {st st' : Stage} (h : Move source st st') (hst : st.IsIn source) :
    st'.spine.IsIn source := by
  obtain ⟨hsp, hstream⟩ := hst
  cases h with
  | attr _ hs | block _ hs | bodyArray _ hs =>
    exact Spine.IsIn.opened hsp (hstream.of_skipNewlines hs).head (fun _ hk => nomatch hk)
  | array _ hs | map _ hs =>
    exact Spine.IsIn.opened hsp (hstream.of_valueStream hs).head (fun _ hk => nomatch hk)
  | entry _ hkey =>
    have hspan := hkey.isIn (hstream.suffix (suffix_skipNewlines _))
    exact Spine.IsIn.opened hsp hspan (fun _ hk => nomatch hk)
  | blockEnd hk hs | arrayEnd hk hs | mapEnd hk hs =>
    exact Spine.IsIn.closed hsp (hstream.of_skipNewlines hs).head (by simp [hk])
  | operand _ hs hv =>
    have htokens := hstream.of_valueStream hs
    obtain ⟨hvalue, -⟩ := (hv ▸ reads_operand htokens.head htokens.tail).of_ok
    exact Spine.IsIn.value hsp hvalue
  | comprehension _ hs _ _ hv =>
    have htokens := hstream.of_valueStream hs
    obtain ⟨hvalue, -⟩ := (hv ▸ reads_comprehension htokens.head htokens.tail).of_ok
    exact Spine.IsIn.value hsp hvalue
  | @attrEnd outer symbol v v' s s' rest hk hx =>
    have hvalue : (outer.under symbol ([] ++ [v])).IsIn source := hsp
    obtain ⟨hv', hlevel⟩ := hvalue.extend hx hstream
    exact Spine.IsIn.closed hlevel hv'.span (by simp [hk])
  | element _ hx => exact (Spine.IsIn.extend hsp hx hstream).2

theorem Move.isIn {st st' : Stage} (h : Move source st st') (hst : st.IsIn source) :
    st'.IsIn source :=
  ⟨h.isIn_spine hst, hst.stream.suffix h.suffix⟩

theorem Move.isIn_of_reflTransGen {st st' : Stage} (h : ReflTransGen (Move source) st st')
    (hst : st.IsIn source) : st'.IsIn source :=
  run_of_step (P := Stage.IsIn source) Move.isIn h hst

theorem Stage.isIn_ofStream (source : String) :
    (Stage.ofStream (.ofString source)).IsIn source.toList :=
  ⟨trivial, TokenStream.isIn_ofString source⟩

/-- A stage of the reading of `source`. -/
structure Stage.Reached (source : String) (st : Stage) : Prop where
  moves : ReflTransGen (Move source.toList) (.ofStream (.ofString source)) st
  sound : st.spine.Sound st.complete
  isIn : st.IsIn source.toList

theorem Stage.Reached.of_moves {source : String} {st : Stage}
    (h : ReflTransGen (Move source.toList) (.ofStream (.ofString source)) st) :
    st.Reached source where
  moves := h
  sound := Move.run_of_step (P := fun st => st.spine.Sound st.complete) Move.sound h trivial
  isIn := Move.isIn_of_reflTransGen h (isIn_ofStream source)

/-! ## Symbols -/

theorem Spine.IsIn.of_get? {sp : Spine} (h : sp.IsIn source) {id : Nat} {e : Entry}
    (he : sp.tree.get? id = some e) : e.symbol.IsIn source :=
  Each.of_get? h he

/-- A number without a symbol has the empty span at the beginning. -/
theorem Spine.IsIn.span_tree {sp : Spine} (h : sp.IsIn source) (id : Nat) :
    (sp.tree.span id).IsIn source := by
  rw [SymbolTree.span]
  split
  · rename_i he
    exact (h.of_get? he).span
  · exact Position.IsIn.emptySpan (Position.isIn_start_after [] source)

end Hcl
