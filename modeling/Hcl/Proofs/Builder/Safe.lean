import Hcl.Proofs.Builder.Limit
import Hcl.Proofs.Forest.Closed

/-!
# Safe states

A builder refers to symbols by number: in its scopes, and in the tree. It removes symbols again when a
value turns out to be the first operand of an operation. At every state there is a symbol for every
number that is kept, also when symbols were just removed and where a step failed.
-/

namespace Hcl

open Hcl.Tree Hcl.TokenStream

/-- The tree can be followed anywhere, and every expression in it could be cut out of the source. -/
structure SymbolTree.Safe (source : List Char) (t : SymbolTree) : Prop where
  closed : t.Closed
  slice? : ∀ id e x, t.get? id = some e → e.symbol.kind = .eval x →
    e.symbol.span.slice? source = some x.text

/-- What a builder refers to is there. -/
structure Builder.Safe (source : List Char) (b : Builder) : Prop where
  tree : b.tree.Safe source
  scopes : ∀ id ∈ b.openSymbols, id < b.tree.size
  /-- only the outermost scope, that of the document, has no symbol -/
  document : b.scopes = [] ∨ ∃ inner, b.scopes = inner ++ [.document] ∧
    ∀ scope ∈ inner, scope.symbol? ≠ none
  /-- a step leaves such a tree, also if it fails -/
  left : ∀ scope outer, b.scopes = scope :: outer → (left (b.step scope)).Safe source
  /-- the value that an operation replaces was added behind all open symbols -/
  collapse : ∀ id c outer value,
    b.scopes = .attr id c :: outer ∨ b.scopes = .array id c :: outer →
    b.tree.lastChild? id = some value → ∀ operation,
      value < b.tree.size ∧ (b.tree.collapse value operation).Closed ∧
      ∀ id ∈ b.openSymbols, id < (b.tree.collapse value operation).size
  /-- the key of an entry may be a group, which is kept as it is written -/
  key : ∀ id outer, b.scopes = .map id :: outer →
    ∀ t rest, b.stream.skipNewlines.next = .ok (t, rest) →
    ∀ stop after, rest.skipGroup t.span.start = .ok (stop, after) →
      ∃ key, (t.span.upTo stop).slice? source = some key

namespace Spine

variable {source : List Char} {sp : Spine}

theorem IsIn.safe (h : sp.IsIn source) : sp.tree.Safe source where
  closed := SymbolTree.closed_ofForest _
  slice? _ _ x he hx := (h.of_get? he).eval x hx

theorem exists_scopes (sp : Spine) (c : Bool) : ∃ inner, sp.scopes c = inner ++ [.document] ∧
    ∀ scope ∈ inner, scope.symbol? ≠ none := by
  induction sp generalizing c with
  | root trees => exact ⟨[], rfl, nofun⟩
  | under outer symbol trees ih =>
    obtain ⟨inner, hscopes, hinner⟩ := ih false
    refine ⟨.ofKind symbol.kind outer.size c :: inner, ?_, ?_⟩
    · rw [scopes_under, hscopes]
      rfl
    · rintro scope hscope
      rcases List.mem_cons.mp hscope with rfl | hscope
      · rw [Scope.symbol?_ofKind]
        nofun
      · exact hinner scope hscope

/-- A scope that holds a value belongs to a symbol that lists no attributes. -/
theorem exists_under_of_scope {c c' : Bool} {id : Nat}
    (h : sp.scope c = .attr id c' ∨ sp.scope c = .array id c') :
    ∃ outer symbol trees, sp = under outer symbol trees ∧ outer.size = id ∧
      symbol.listsAttributes = false := by
  cases sp with
  | root trees => simp [scope] at h
  | under outer symbol trees =>
    refine ⟨outer, symbol, trees, rfl, ?_⟩
    rw [scope] at h
    cases hk : symbol.kind <;> simp [hk, Scope.ofKind, Symbol.listsAttributes] at h ⊢
    · exact h.1
    · exact h.1

/-- Only what is closed is removed. -/
theorem collapse_last {outer : Spine} {symbol : Symbol} (hs : symbol.listsAttributes = false)
    {trees : List Tree} {value : Nat}
    (h : (under outer symbol trees).tree.lastChild? outer.size = some value) (operation : Symbol) :
    value < (under outer symbol trees).size ∧ ∃ sp' : Spine,
      (under outer symbol trees).tree.collapse value operation = sp'.tree ∧
        sp'.openIds = (under outer symbol trees).openIds := by
  rcases List.eq_nil_or_concat trees with rfl | ⟨ts, t, rfl⟩
  · rw [SymbolTree.lastChild?, getElem?_innermost] at h
    cases h
  · rw [List.concat_eq_append] at h ⊢
    rw [lastChild?_tree] at h
    cases h
    have hpos := t.size_pos
    refine ⟨?_, _, collapse_tree outer hs ts t operation, rfl⟩
    simp only [size, sizeAll_append, sizeAll_cons, sizeAll_nil]
    omega

end Spine

namespace Builder

variable {source : String} {b : Builder}

theorem IsAt.safe_tree (h : b.IsAt source) : b.tree.Safe source.toList := by
  cases h with
  | stage hst => exact hst.isIn.spine.safe
  | done hst _ _ htree => exact htree ▸ hst.isIn.spine.safe

theorem safe_left {st : Stage} (hst : st.Reached source) :
    (left (st.step source.toList)).Safe source.toList := by
  rcases hst.step_cases with ⟨b, hstep, hb, -⟩ | ⟨stopped, hstep, hfails⟩
  · rw [hstep]
    exact hb.safe_tree
  · obtain ⟨sp, htree, hsp⟩ := hfails.exists_spine hst.isIn
    rw [hstep, left, htree]
    exact hsp.safe

/-- Where no scope is open, nothing more is looked up. -/
theorem safe_of_scopes_nil (htree : b.tree.Safe source.toList) (hscopes : b.scopes = []) :
    b.Safe source.toList where
  tree := htree
  scopes id hid := by
    rw [openSymbols, hscopes] at hid
    cases hid
  document := .inl hscopes
  left scope outer h := by
    rw [hscopes] at h
    cases h
  collapse id c outer value h := by
    rw [hscopes] at h
    rcases h with h | h
    · cases h
    · cases h
  key id outer h := by
    rw [hscopes] at h
    cases h

theorem safe_builder {st : Stage} (hst : st.Reached source) :
    (st.builder source.toList).Safe source.toList where
  tree := hst.isIn.spine.safe
  scopes id hid := by
    rw [openSymbols_builder] at hid
    exact Spine.size_tree st.spine ▸ Spine.lt_of_mem_openIds hid
  document := .inr (st.spine.exists_scopes st.complete)
  left scope outer hscopes := by
    obtain ⟨rfl, -⟩ := List.cons.inj hscopes
    exact safe_left hst
  collapse id c outer value hscopes hvalue operation := by
    have hscope : st.spine.scope st.complete = .attr id c ∨
        st.spine.scope st.complete = .array id c :=
      hscopes.imp (fun h => (List.cons.inj h).1) fun h => (List.cons.inj h).1
    obtain ⟨sp, symbol, trees, hspine, rfl, hs⟩ := Spine.exists_under_of_scope hscope
    have htree : (st.builder source.toList).tree = (sp.under symbol trees).tree :=
      congrArg Spine.tree hspine
    rw [htree] at hvalue
    obtain ⟨hlt, sp', hcollapse, hopen⟩ := Spine.collapse_last hs hvalue operation
    rw [htree, openSymbols_builder, hspine, hcollapse, Spine.size_tree, Spine.size_tree]
    exact ⟨hlt, SymbolTree.closed_ofForest _,
      fun id hid => Spine.lt_of_mem_openIds (hopen ▸ hid)⟩
  key id outer _ t rest hnext stop after hskip := by
    have hstream := hst.isIn.stream.suffix (suffix_skipNewlines _)
    obtain ⟨ht, hrest⟩ := (hnext ▸ reads_next hstream).of_ok
    obtain ⟨hstop, -⟩ := (hskip ▸ reads_skipGroup ht.start hrest).of_ok
    exact (ht.upTo hstop).exists_slice?

theorem Reached.safe (h : b.Reached source) : b.Safe source.toList := by
  have htree := h.isAt.safe_tree
  cases h.isAt with
  | stage hst => exact safe_builder hst
  | done _ _ hscopes _ => exact safe_of_scopes_nil htree hscopes

end Builder

end Hcl
