import Hcl.Proofs.Builder.Run
import Hcl.Proofs.Forest.Kinds
import Hcl.Proofs.TokenStream.Suffix

/-!
# Where literals come from

Every literal in the tree of a source has the text of a token, whether or not the reading of the
source came to its end.
-/

namespace Hcl

open Hcl.Tree Hcl.TokenStream
open Relation (ReflTransGen)

/-- The literal is one of the tokens. -/
def LiteralType.ReadFrom (all : List Token) (type : LiteralType) (raw : String) : Prop :=
  ∃ t ∈ all, t.kind.literalType? = some type ∧ t.text = raw

variable {source : List Char} {s s' rest : TokenStream} {value : Symbol} {type : LiteralType}
  {raw : String} {all ts : List Token}

theorem LiteralType.ReadFrom.of_suffix (h : type.ReadFrom ts raw) (hs : ts <:+ all) :
    type.ReadFrom all raw := by
  obtain ⟨t, ht, hliteral⟩ := h
  exact ⟨t, hs.mem ht, hliteral⟩

theorem TokenStream.mem_of_valueStream {kind : SymbolKind} {t : Token}
    {e : Except LexicalError Position} (h : Spine.valueStream kind s = ⟨t :: ts, e⟩) :
    t ∈ s.tokens := by
  rw [Spine.valueStream] at h
  split at h
  · exact (suffix_skipNewlines s).tokens.mem (h ▸ List.mem_cons_self)
  · exact h ▸ List.mem_cons_self

theorem literal_mem_of_operand {first : Token}
    (h : s.operand source first = .ok (value, rest)) (hv : value.kind = .literal type raw) :
    first.kind.literalType? = some type ∧ first.text = raw := by
  cases readsOperand_of_operand h with
  | literal hk =>
    cases hv
    exact ⟨hk, rfl⟩
  | keyword | traversal | group | operation => cases hv

/-- An operation takes the place of a value; no literal comes in with it. -/
theorem Extends.literal_mem_kinds {v v' : Tree} (hx : Extends source v s v' s')
    (h : .literal type raw ∈ v'.kinds) : .literal type raw ∈ v.kinds := by
  cases hx with
  | stay => exact h
  | operation => simp [Symbol.eval] at h

theorem Extends.literal_mem_append {v v' : Tree} (hx : Extends source v s v' s') (sp : Spine)
    (h : .literal type raw ∈ (sp.append [v']).kinds) :
    .literal type raw ∈ (sp.append [v]).kinds := by
  rw [Spine.kinds_append, kindsAll_cons, kindsAll_nil, List.append_nil, List.mem_append] at h ⊢
  exact h.imp_right hx.literal_mem_kinds

/-- Of the literals, only the token that is read may be new. -/
theorem Move.literal_mem_kinds {st st' : Stage} (h : Move source st st')
    (hmem : .literal type raw ∈ st'.spine.kinds) :
    .literal type raw ∈ st.spine.kinds ∨ type.ReadFrom st.stream.tokens raw := by
  cases h with
  | @operand outer symbol trees s rest first ts e value hk hs hv =>
    have hmem : .literal type raw ∈ ((outer.under symbol trees).append [leaf value]).kinds := hmem
    rw [Spine.kinds_append, List.mem_append] at hmem
    refine hmem.imp_right fun hliteral => ⟨first, mem_of_valueStream hs, ?_⟩
    exact literal_mem_of_operand hv (by simpa [eq_comm] using hliteral)
  | @comprehension outer symbol trees s rest first ts e value hk hs hfirst ha hv =>
    refine .inl ?_
    obtain ⟨r, -, hr⟩ := exists_of_map_ok hv
    obtain ⟨rfl, -⟩ := Prod.mk.inj hr
    simpa [Symbol.eval] using hmem
  | @attrEnd outer symbol v v' s s' rest hk hx hend =>
    rw [Spine.kinds_close outer] at hmem
    exact .inl (hx.literal_mem_append (outer.under symbol []) hmem)
  | @element outer symbol trees v v' s s' rest hk hx hsep =>
    exact .inl (hx.literal_mem_append (outer.under symbol trees) hmem)
  | blockEnd | arrayEnd | mapEnd => exact .inl (by simpa using hmem)
  | attr | block | bodyArray | array | map | entry =>
    refine .inl ?_
    simpa [Symbol.attr, Symbol.array, Symbol.map, Symbol.block] using hmem

theorem Leaves.literal_mem_kinds {st : Stage} {sp : Spine} {c : Bool} (h : Leaves source st sp)
    (hs : sp.Sound c) (hmem : .literal type raw ∈ sp.kinds) :
    .literal type raw ∈ st.spine.kinds := by
  cases h with
  | same => exact hmem
  | @opened _ _ _ symbol _ =>
    rw [Spine.kinds_under, kindsAll_nil, List.mem_append, List.mem_singleton] at hmem
    refine hmem.resolve_right fun hk => ?_
    -- nothing stands below a literal, so no scope is opened for one
    obtain ⟨-, -, -, -, hh⟩ := hs
    rw [← hk] at hh
    exact hh.elim
  | @attr outer symbol v v' s s' hk hx =>
    rw [Spine.kinds_close outer] at hmem
    exact hx.literal_mem_append (outer.under symbol []) hmem
  | @element outer symbol trees v v' s s' hk hx =>
    exact hx.literal_mem_append (outer.under symbol trees) hmem

theorem Move.literal_readFrom {st st' : Stage} (h : ReflTransGen (Move source) st st')
    (hall : st.stream.tokens <:+ all)
    (hst : ∀ type raw, .literal type raw ∈ st.spine.kinds → type.ReadFrom all raw) :
    ∀ type raw, .literal type raw ∈ st'.spine.kinds → type.ReadFrom all raw := by
  induction h with
  | refl => exact hst
  | tail hmoves hmove ih =>
    intro type raw hmem
    rcases hmove.literal_mem_kinds hmem with hold | hnew
    · exact ih type raw hold
    · exact hnew.of_suffix ((suffix_of_reflTransGen hmoves).tokens.trans hall)

/-- Every literal in the tree of a source is one of its tokens. -/
theorem literal_parseTree {source : String} {id : Nat} {entry : Entry}
    (h : (parseTree source).tree.get? id = some entry)
    (hk : entry.symbol.kind = .literal type raw) :
    type.ReadFrom (TokenStream.ofString source).tokens raw := by
  obtain ⟨st, hmoves, -, hends⟩ := exists_ends_parseTree source
  have hst := Move.literal_readFrom hmoves (List.suffix_refl _) fun type raw h => by cases h
  generalize parseTree source = parsed at h hends
  cases hends with
  | finish _ _ _ =>
    exact hst type raw (Spine.kinds_eq st.spine ▸ hk ▸ SymbolTree.kind_mem_of_get? h)
  | @stop stopped sp c hstep htree hsound hleaves =>
    rw [htree] at h
    have hsp : .literal type raw ∈ sp.kinds :=
      Spine.kinds_eq sp ▸ hk ▸ SymbolTree.kind_mem_of_get? h
    exact hst type raw (hleaves.literal_mem_kinds hsound hsp)

end Hcl
