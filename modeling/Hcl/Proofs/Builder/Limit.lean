import Hcl.Proofs.Builder.States

/-!
# The limit of nesting

The open scopes belong to the symbols above whatever is read next, so the number of scopes is a depth
in the tree. No symbol has `maxDepth` others above it. One that needs a scope has `maxDepth - 1` only
where the reading stops for want of that scope, and then it is the last symbol.
-/

namespace Hcl

open Hcl.Tree
open Relation (ReflTransGen)

/-! ## Symbols that a tree keeps when one is added -/

namespace SymbolTree

variable {t : SymbolTree} {parent : Option Nat} {s : Symbol} {id : Nat}

/-- A symbol that is added may become a child of another one, and changes nothing else. -/
theorem get?_push_of_lt (h : id < t.size) : ∃ f : Entry → Entry,
    (t.push parent s).get? id = (t.get? id).map f ∧
      ∀ e, (f e).symbol = e.symbol ∧ (f e).parent = e.parent := by
  refine ⟨fun e => if parent = some id then e.addChild t.size s else e, ?_, fun e => ?_⟩
  · rw [get?_push, if_neg (Nat.ne_of_lt h)]
  · dsimp only
    split <;> exact ⟨rfl, rfl⟩

theorem ancestors_push (h : id < t.size) : (t.push parent s).ancestors id = t.ancestors id := by
  induction id using Nat.strongRecOn with
  | ind id ih =>
    obtain ⟨f, hget, hf⟩ := @get?_push_of_lt t parent s id h
    cases he : t.get? id with
    | none =>
      rw [ancestors_of_get?_none he, ancestors_of_get?_none (by rw [hget, he]; rfl)]
    | some e =>
      rw [ancestors, ancestors, hget, he]
      simp only [Option.map_some, Option.bind_some, (hf e).2]
      split
      · rfl
      · rename_i q _
        split
        · rename_i hlt
          rw [ih q hlt (Nat.lt_trans hlt h)]
        · rfl

end SymbolTree

/-! ## What a step changes -/

/-- In the tree that a spine becomes, kinds are as they were, or the last symbol is one that was added
on the innermost level or put in the place of what was last there. -/
inductive Spine.Changes (sp : Spine) : SymbolTree → Prop where
  | same {sp' : Spine} : sp'.kinds = sp.kinds → Spine.Changes sp sp'.tree
  | last {base : Spine} {old : List SymbolKind} {symbol : Symbol} : base.openIds = sp.openIds →
      sp.kinds = base.kinds ++ old → Spine.Changes sp (base.append [leaf symbol]).tree

namespace Spine

variable {sp outer : Spine} {symbol : Symbol} {trees : List Tree} {v v' : Tree}
  {s s' : TokenStream} {source : List Char}

/-- The symbols above a symbol that changes are the open ones. -/
theorem Changes.ancestors {t : SymbolTree} (h : sp.Changes t) {id : Nat} (hid : t.kind? id ≠ none)
    (hne : t.kind? id ≠ sp.tree.kind? id) : t.ancestors id = sp.openIds := by
  rw [kind?_tree] at hne
  cases h with
  | same hkinds =>
    rw [kind?_tree, hkinds] at hne
    exact absurd rfl hne
  | @last base old symbol hopen hkinds =>
    rw [kind?_tree] at hid hne
    have hlength : base.kinds.length = base.size := length_kinds base
    have hge : base.size ≤ id := by
      by_contra hlt
      have hlt : id < base.kinds.length := by omega
      rw [kinds_append, hkinds, List.getElem?_append_left hlt, List.getElem?_append_left hlt] at hne
      exact hne rfl
    have hle : id < (base.append [leaf symbol]).kinds.length :=
      (List.getElem?_eq_some_iff.mp (Option.ne_none_iff_exists'.mp hid).choose_spec).1
    have heq : id = base.size := by
      simp only [kinds_append, List.length_append, kindsAll_cons, kinds_leaf, kindsAll_nil,
        List.append_nil, List.length_singleton] at hle
      omega
    rw [heq, ancestors_last, hopen]

theorem changes_opened (sp : Spine) (symbol : Symbol) :
    sp.Changes (sp.under symbol []).tree := by
  rw [tree_under]
  exact @Changes.last sp sp [] symbol rfl (List.append_nil _).symm

theorem changes_value (outer : Spine) (symbol : Symbol) (trees : List Tree) (value : Symbol) :
    (outer.under symbol trees).Changes (outer.under symbol (trees ++ [leaf value])).tree :=
  @Changes.last _ (outer.under symbol trees) [] value rfl (List.append_nil _).symm

theorem changes_closed (outer : Spine) (symbol : Symbol) (trees : List Tree) (stop : Span) :
    (outer.under symbol trees).Changes (outer.append [node (symbol.extendTo stop) trees]).tree :=
  .same (kinds_close outer symbol stop trees)

/-- The value of an open symbol goes on, and its span with it. -/
theorem changes_extends (hx : Extends source v s v' s') (symbol' : Symbol)
    (hk : symbol'.kind = symbol.kind) :
    (outer.under symbol (trees ++ [v])).Changes (outer.under symbol' (trees ++ [v'])).tree := by
  cases hx with
  | stay => exact .same (by simp [hk])
  | operation => exact @Changes.last _ (outer.under symbol' trees) v.kinds _ rfl (by simp [hk])

end Spine

variable {source : List Char}

theorem Move.changes {st st' : Stage} (h : Move source st st') :
    st.spine.Changes st'.spine.tree := by
  cases h with
  | attr | block | bodyArray | array | map | entry => exact Spine.changes_opened _ _
  | blockEnd | arrayEnd | mapEnd => exact Spine.changes_closed _ _ _ _
  | operand | comprehension => exact Spine.changes_value _ _ _ _
  | @attrEnd outer symbol v v' s s' rest hk hx =>
    rw [← Spine.tree_under]
    exact @Spine.changes_extends outer symbol [] v v' s s' source hx _ rfl
  | element _ hx => exact Spine.changes_extends hx _ rfl

theorem Leaves.changes {st : Stage} {sp : Spine} (h : Leaves source st sp) :
    st.spine.Changes sp.tree := by
  cases h with
  | same => exact .same rfl
  | opened => exact Spine.changes_opened _ _
  | @attr outer symbol v v' s s' hk hx =>
    rw [← Spine.tree_under]
    exact @Spine.changes_extends outer symbol [] v v' s s' source hx _ rfl
  | element _ hx => exact Spine.changes_extends hx _ rfl

theorem Stage.Fails.changes {st : Stage} {stopped : Stopped} (h : st.Fails source stopped) :
    st.spine.Changes stopped.tree := by
  cases h with
  | reading _ _ hleaves _ => exact hleaves.changes
  | tooDeep => exact Spine.changes_opened _ _

/-! ## Scopes and ancestors -/

namespace Builder

/-- The symbols of the open scopes, innermost first. The document has none. -/
def openSymbols (b : Builder) : List Nat := b.scopes.filterMap Scope.symbol?

/-- The tree behind a step, whatever comes of it. -/
def left : Step → SymbolTree
  | .ok b => b.tree
  | .error stopped => stopped.tree

/-- The open symbols stand above each other, and what a step adds or replaces stands below them. -/
structure Chained (b : Builder) : Prop where
  chain : ∀ id above, b.openSymbols = id :: above → b.tree.ancestors id = above
  below : ∀ scope outer id, b.scopes = scope :: outer → (left (b.step scope)).kind? id ≠ none →
    (left (b.step scope)).kind? id ≠ b.tree.kind? id →
    (left (b.step scope)).ancestors id = b.openSymbols

end Builder

theorem Spine.filterMap_scopes (sp : Spine) (c : Bool) :
    (sp.scopes c).filterMap Scope.symbol? = sp.openIds := by
  induction sp generalizing c with
  | root trees => rfl
  | under outer symbol trees ih =>
    rw [Spine.scopes, List.filterMap_cons, Spine.symbol?_scope, id?_under]
    exact congrArg (outer.size :: ·) (ih false)

theorem Builder.openSymbols_builder (source : List Char) (st : Stage) :
    (st.builder source).openSymbols = st.spine.openIds := Spine.filterMap_scopes _ _

theorem Builder.Reached.chained {source : String} {b : Builder} (h : b.Reached source) :
    b.Chained := by
  cases h.isAt with
  | @stage st hst =>
    have hopen := openSymbols_builder source.toList st
    constructor
    · rw [hopen]
      intro id above hids
      cases hspine : st.spine with
      | root trees =>
        rw [hspine] at hids
        cases hids
      | under outer symbol trees =>
        rw [hspine] at hids
        cases hids
        have htree : (st.builder source.toList).tree = (outer.under symbol trees).tree :=
          congrArg Spine.tree hspine
        rw [htree]
        exact Spine.ancestors_innermost outer symbol trees
    · intro scope outer id hscopes hid hne
      rw [hopen]
      obtain ⟨rfl, -⟩ := List.cons.inj hscopes
      refine Spine.Changes.ancestors ?_ hid hne
      show st.spine.Changes (left (st.step source.toList))
      rcases hst.step_cases with
        ⟨b', hstep, -, ⟨st', hmove, rfl⟩ | ⟨-, htree⟩⟩ | ⟨stopped, hstep, hfails⟩
      · rw [hstep]
        exact hmove.changes
      · rw [hstep, left, htree]
        exact .same rfl
      · rw [hstep]
        exact hfails.changes
  | done _ _ hscopes _ =>
    constructor
    · intro id above hids
      rw [openSymbols, hscopes] at hids
      cases hids
    · intro scope outer id hcons
      rw [hscopes] at hcons
      cases hcons

/-! ## Depths -/

/-- A symbol with `d` others above it is within the limit, and so is what is below it if it needs a
scope. -/
def Symbol.Within (d : Nat) (s : Symbol) : Prop :=
  d < maxDepth ∧ (s.kind.hasScope = true → d + 1 < maxDepth)

namespace Spine

theorem Nested.depth_lt {sp : Spine} (h : sp.Nested) : sp.depth < maxDepth := by
  cases sp with
  | root trees => exact Nat.succ_pos _
  | under outer symbol trees => exact h.2.1

variable {sp outer : Spine} {symbol : Symbol} {trees : List Tree} {v v' : Tree}
  {s s' : TokenStream} {source : List Char}

/-- Where a symbol is opened, the others are as they were. -/
theorem Each.cases_opened {P : Nat → Symbol → Prop} (h : sp.Each P) {id : Nat} {e : Entry}
    (he : (sp.under symbol []).tree.get? id = some e) :
    (id = sp.size ∧ e = entry symbol sp.id? (sp.size + 1) []) ∨
      P ((sp.under symbol []).tree.ancestors id).length e.symbol := by
  by_cases hid : id = sp.size
  · rw [hid, getElem?_innermost] at he
    exact .inl ⟨hid, (Option.some.inj he).symm⟩
  · have hlt : id < sp.tree.size := by
      have hle := SymbolTree.lt_size_of_get? he
      rw [size_tree, size, sizeAll_nil] at hle
      rw [size_tree]
      omega
    obtain ⟨f, hget, hf⟩ := @SymbolTree.get?_push_of_lt sp.tree sp.id? symbol id hlt
    rw [tree_open] at he ⊢
    rw [SymbolTree.ancestors_push hlt]
    obtain ⟨e', he', rfl⟩ := Option.map_eq_some_iff.mp (hget.symm.trans he)
    exact .inr ((hf e').1 ▸ h.of_get? he')

theorem Each.within_opened (h : sp.Each Symbol.Within) (hd : sp.depth + 1 < maxDepth)
    (symbol : Symbol) : (sp.under symbol []).Each Symbol.Within :=
  h.opened ⟨Nat.lt_of_succ_lt hd, fun _ => hd⟩

theorem Each.within_value (h : (outer.under symbol trees).Each Symbol.Within)
    (hn : (outer.under symbol trees).Nested) {value : Symbol} (hv : value.kind.hasScope = false) :
    (outer.under symbol (trees ++ [leaf value])).Each Symbol.Within :=
  h.append (eachOf_leaf.mpr ⟨hn.2.1, by simp [hv]⟩ : EachOf _ _ [leaf value])

theorem Each.within_extends (h : (outer.under symbol (trees ++ [v])).Each Symbol.Within)
    (hx : Extends source v s v' s') :
    (outer.under symbol (trees ++ [v'])).Each Symbol.Within := by
  refine h.extends hx ?_
  cases hx with
  | stay => exact h.last
  | operation => exact ⟨h.last.1, nofun⟩

end Spine

theorem Move.within {st st' : Stage} (h : Move source st st') (hn : st.spine.Nested)
    (hst : st.spine.Each Symbol.Within) : st'.spine.Each Symbol.Within := by
  cases h with
  | attr _ _ _ _ hd | block _ _ _ _ hd | bodyArray _ _ _ hd | array _ _ _ _ hd | map _ _ _ _ hd
  | entry _ _ _ hd => exact hst.within_opened hd _
  | blockEnd | arrayEnd | mapEnd => exact hst.closed hst.2.1
  | operand _ _ hv => exact hst.within_value hn (TokenStream.hasScope_of_operand hv)
  | comprehension _ _ _ _ hv => exact hst.within_value hn (TokenStream.hasScope_of_comprehension hv)
  | @attrEnd outer symbol v v' s s' rest _ hx =>
    have hvalue : (outer.under symbol ([] ++ [v])).Each Symbol.Within := hst
    exact (hvalue.within_extends hx).closed hst.2.1
  | element _ hx => exact hst.within_extends hx

theorem Leaves.within {st : Stage} {sp : Spine} (h : Leaves source st sp)
    (hst : st.spine.Each Symbol.Within) (hsize : sp.size ≤ st.spine.size) :
    sp.Each Symbol.Within := by
  cases h with
  | same => exact hst
  | opened =>
    simp only [Spine.size, sizeAll_nil] at hsize
    omega
  | @attr outer symbol v v' s s' hk hx =>
    have hvalue : (outer.under symbol ([] ++ [v])).Each Symbol.Within := hst
    exact (hvalue.within_extends hx).closed hst.2.1
  | element _ hx => exact hst.within_extends hx

theorem Stage.Reached.within {source : String} {st : Stage} (h : st.Reached source) :
    st.spine.Nested ∧ st.spine.Each Symbol.Within :=
  Move.run_of_step (P := fun st => st.spine.Nested ∧ st.spine.Each Symbol.Within)
    (fun hmove hst => ⟨hmove.nested hst.1, hmove.within hst.1 hst.2⟩) h.moves
    ⟨fun _ => Nat.zero_le _, trivial⟩

/-! ## Trees -/

/-- The tree and the error agree on the limit. -/
structure Parsed.Limited (parsed : Parsed) : Prop where
  ancestors_le : ∀ id, (parsed.tree.ancestors id).length ≤ maxDepth - 1
  /-- a symbol without a scope of its own is the last one, and the error is noticed there -/
  last_of_refused : ∀ id e, parsed.tree.get? id = some e → e.symbol.kind.hasScope = true →
    (parsed.tree.ancestors id).length = maxDepth - 1 →
    id + 1 = parsed.tree.size ∧ e.children = #[] ∧
      parsed.error = some (.syntactic .scopesTooDeep e.symbol.position)
  exists_refused : ∀ p, parsed.error = some (.syntactic .scopesTooDeep p) → ∃ id e,
    parsed.tree.get? id = some e ∧ e.symbol.kind.hasScope = true ∧
      (parsed.tree.ancestors id).length = maxDepth - 1

namespace Parsed

/-- A tree within the limit, and another error or none. -/
theorem limited_of_each {sp : Spine} (h : sp.Each Symbol.Within) {error : Option Error}
    (herror : ∀ p, error ≠ some (.syntactic .scopesTooDeep p)) : Limited ⟨sp.tree, error⟩ where
  ancestors_le id := by
    cases he : sp.tree.get? id with
    | none =>
      rw [SymbolTree.ancestors_of_get?_none he]
      exact Nat.zero_le _
    | some e => exact Nat.le_sub_one_of_lt (h.of_get? he).1
  last_of_refused id e he hk hlength := by
    have hlt := (h.of_get? he).2 hk
    dsimp only at hlength
    omega
  exists_refused p hp := absurd hp (herror p)

/-- A tree within the limit but for a last symbol that needed a scope. -/
theorem limited_of_refused {sp : Spine} (hn : sp.Nested) (h : sp.Each Symbol.Within)
    {symbol : Symbol} (hk : symbol.kind.hasScope = true) (hd : maxDepth ≤ sp.depth + 1) :
    Limited ⟨(sp.under symbol []).tree, some (.syntactic .scopesTooDeep symbol.position)⟩ := by
  have hdepth : sp.openIds.length = maxDepth - 1 := by
    have := hn.depth_lt
    rw [Spine.length_openIds]
    omega
  have hlast : (sp.under symbol []).tree.get? sp.size = some (entry symbol sp.id? (sp.size + 1) []) :=
    Spine.getElem?_innermost sp symbol []
  have habove : (sp.under symbol []).tree.ancestors sp.size = sp.openIds :=
    Spine.ancestors_innermost sp symbol []
  refine ⟨fun id => ?_, fun id e he hek hlength => ?_, fun p _ => ?_⟩
  · cases he : (sp.under symbol []).tree.get? id with
    | none =>
      rw [SymbolTree.ancestors_of_get?_none he]
      exact Nat.zero_le _
    | some e =>
      rcases h.cases_opened he with ⟨rfl, -⟩ | hwithin
      · exact Nat.le_of_eq (habove.symm ▸ hdepth)
      · exact Nat.le_sub_one_of_lt hwithin.1
  · rcases h.cases_opened he with ⟨rfl, rfl⟩ | hwithin
    · exact ⟨(Spine.size_tree (sp.under symbol [])).symm, rfl, rfl⟩
    · have hlt := hwithin.2 hek
      dsimp only at hlength
      omega
  · exact ⟨sp.size, _, hlast, hk, habove.symm ▸ hdepth⟩

end Parsed

theorem limited_parseTree (source : String) : (parseTree source).Limited := by
  obtain ⟨st, hst, hhalts⟩ := exists_halts_parseTree source
  obtain ⟨hnested, hwithin⟩ := hst.within
  generalize parseTree source = parsed at hhalts
  cases hhalts with
  | finish => exact Parsed.limited_of_each hwithin nofun
  | fails _ hfails =>
    cases hfails with
    | reading he _ hleaves hsize =>
      refine Parsed.limited_of_each (hleaves.within hwithin hsize) fun p hp => ?_
      cases hp
      exact he.1 rfl
    | tooDeep hk _ hd => exact Parsed.limited_of_refused hnested hwithin hk hd

/-- The limit is exact. The open symbols are the ancestors of whatever is read next, so no symbol has
more than `maxDepth - 1` of them. One that needs a scope and has as many is there if and only if the
reading stopped for want of a scope. It is the last symbol then, with nothing below it, and the error
is noticed where it begins. -/
theorem nesting_limit (source : String) :
    (∀ b, Builder.Reached source b → b.Chained) ∧
    (∀ id, ((parseTree source).tree.ancestors id).length ≤ maxDepth - 1) ∧
    ((∃ id e, (parseTree source).tree.get? id = some e ∧ e.symbol.kind.hasScope = true ∧
        ((parseTree source).tree.ancestors id).length = maxDepth - 1) ↔
      ∃ p, (parseTree source).error = some (.syntactic .scopesTooDeep p)) ∧
    ∀ id e, (parseTree source).tree.get? id = some e → e.symbol.kind.hasScope = true →
      ((parseTree source).tree.ancestors id).length = maxDepth - 1 →
      id + 1 = (parseTree source).tree.size ∧ e.children = #[] ∧
        (parseTree source).error = some (.syntactic .scopesTooDeep e.symbol.position) := by
  obtain ⟨hle, hlast, hexists⟩ := limited_parseTree source
  refine ⟨fun b hb => hb.chained, hle, ⟨?_, fun ⟨p, hp⟩ => hexists p hp⟩, hlast⟩
  rintro ⟨id, e, he, hk, hlength⟩
  exact ⟨_, (hlast id e he hk hlength).2.2⟩

end Hcl
