import Hcl.Proofs.Forest.Basic

/-!
# Spines

A forest that is being built grows at the end of its last branch. A spine is such a forest, cut
along that branch: each level has its finished trees, and the symbol of the next level comes behind
them. Adding, closing and replacing a symbol change the innermost level alone.
-/

namespace Hcl

open Hcl.Tree

inductive Spine where
  | root (trees : List Tree)
  /-- the symbol `symbol` is open behind `outer`; `trees` are finished below it -/
  | under (outer : Spine) (symbol : Symbol) (trees : List Tree)

namespace Spine

/-- How many symbols there are. -/
def size : Spine → Nat
  | root trees => sizeAll trees
  | under outer _ trees => outer.size + 1 + sizeAll trees

/-- How many symbols are open. -/
def depth : Spine → Nat
  | root _ => 0
  | under outer _ _ => outer.depth + 1

/-- The number of the innermost open symbol. -/
def id? : Spine → Option Nat
  | root _ => none
  | under outer _ _ => some outer.size

/-- Finished trees are added on the innermost level. -/
def append (more : List Tree) : Spine → Spine
  | root trees => root (trees ++ more)
  | under outer symbol trees => under outer symbol (trees ++ more)

/-- The forest with `more` at the end of the innermost level. -/
def forestWith : Spine → List Tree → List Tree
  | root trees, more => trees ++ more
  | under outer symbol trees, more => outer.forestWith [node symbol (trees ++ more)]

/-- The forest as it stands. -/
def forest (sp : Spine) : List Tree := sp.forestWith []

/-- The symbol tree as it stands. -/
def tree (sp : Spine) : SymbolTree := .ofForest sp.forest

@[simp] theorem id?_root (ts : List Tree) : (root ts).id? = none := rfl

@[simp] theorem id?_under (outer : Spine) (s : Symbol) (ts : List Tree) :
    (under outer s ts).id? = some outer.size := rfl

@[simp] theorem forestWith_append (sp : Spine) (as bs : List Tree) :
    (sp.append as).forestWith bs = sp.forestWith (as ++ bs) := by
  cases sp <;> simp [append, forestWith]

theorem forest_append (sp : Spine) (ts : List Tree) :
    (sp.append ts).forest = sp.forestWith ts := by
  simp [forest]

@[simp] theorem forest_under (outer : Spine) (s : Symbol) (ts : List Tree) :
    (under outer s ts).forest = (outer.append [node s ts]).forest := by
  simp [forest, forestWith]

@[simp] theorem depth_append (sp : Spine) (ts : List Tree) : (sp.append ts).depth = sp.depth := by
  cases sp <;> rfl

theorem append_append (sp : Spine) (as bs : List Tree) :
    (sp.append as).append bs = sp.append (as ++ bs) := by
  cases sp <;> simp [append]

theorem tree_under (outer : Spine) (s : Symbol) (ts : List Tree) :
    (under outer s ts).tree = (outer.append [node s ts]).tree := by
  rw [tree, forest_under, tree]

/-! ## Entries

The entries of a spine in which the innermost level goes on with `more`, without the entries of
`more`. On the outer levels only the head of a tree shows, for a level refers to the next one by
number. -/

def entriesBefore : Spine → List Tree → List Entry
  | root trees, _ => entriesAll 0 none trees
  | under outer symbol trees, more =>
    outer.entriesBefore [leaf symbol] ++
      entry symbol outer.id? (outer.size + 1) (trees ++ more) ::
        entriesAll (outer.size + 1) (some outer.size) trees

theorem entriesBefore_singleton (sp : Spine) {t u : Tree}
    (h : t.symbol.isAttribute = u.symbol.isAttribute) :
    sp.entriesBefore [t] = sp.entriesBefore [u] := by
  cases sp with
  | root trees => rfl
  | under outer symbol trees => simp [entriesBefore, entry, attrNumbers_singleton _ h]

theorem entriesAll_forestWith (sp : Spine) (more : List Tree) :
    entriesAll 0 none (sp.forestWith more) =
      sp.entriesBefore more ++ entriesAll sp.size sp.id? more := by
  induction sp generalizing more with
  | root ts => simp [forestWith, entriesBefore, size]
  | under outer s ts ih =>
    have hhead := entriesBefore_singleton outer (t := node s (ts ++ more)) (u := leaf s) rfl
    simp [forestWith, ih, hhead, entriesBefore, size, Nat.add_assoc]

theorem length_entriesBefore (sp : Spine) (more : List Tree) :
    (sp.entriesBefore more).length = sp.size := by
  induction sp generalizing more with
  | root ts => simp [entriesBefore, size]
  | under outer s ts ih => simp [entriesBefore, ih, size]; omega

@[simp] theorem size_tree (sp : Spine) : sp.tree.size = sp.size := by
  have h := congrArg List.length (entriesAll_forestWith sp [])
  simpa [length_entriesBefore, tree, forest] using h

/-- The numbers of the roots when the innermost level goes on with `more`. -/
def rootsWith : Spine → List Tree → List Nat
  | root trees, more => numbers 0 (trees ++ more)
  | under outer symbol _, _ => outer.rootsWith [leaf symbol]

theorem rootsWith_singleton (sp : Spine) (t u : Tree) : sp.rootsWith [t] = sp.rootsWith [u] := by
  cases sp <;> simp [rootsWith]

theorem numbers_forestWith (sp : Spine) (more : List Tree) :
    numbers 0 (sp.forestWith more) = sp.rootsWith more := by
  induction sp generalizing more with
  | root ts => rfl
  | under outer s ts ih =>
    rw [forestWith, ih, rootsWith]
    exact rootsWith_singleton outer _ _

theorem tree_append (sp : Spine) (ts : List Tree) :
    (sp.append ts).tree =
      ⟨(sp.entriesBefore ts ++ entriesAll sp.size sp.id? ts).toArray, (sp.rootsWith ts).toArray⟩ := by
  rw [tree, forest_append, SymbolTree.ofForest, entriesAll_forestWith, numbers_forestWith]

theorem tree_eq (sp : Spine) :
    sp.tree = ⟨(sp.entriesBefore []).toArray, (sp.rootsWith []).toArray⟩ := by
  rw [tree, forest, SymbolTree.ofForest, entriesAll_forestWith, numbers_forestWith]
  simp

/-! ## What the operations on trees do -/

end Spine

/-- The symbol with its span extended to the end of `stop`. -/
def Symbol.extendTo (s : Symbol) (stop : Span) : Symbol := { s with span := s.span.upTo stop }

namespace Spine

theorem getElem?_innermost (outer : Spine) (s : Symbol) (ts : List Tree) :
    (under outer s ts).tree.get? outer.size = some (entry s outer.id? (outer.size + 1) ts) := by
  have hlen := length_entriesBefore outer [leaf s]
  simp [SymbolTree.get?, tree_eq, entriesBefore, ← hlen]

theorem getElem?_last (sp : Spine) (t : Tree) :
    (sp.append [t]).tree.get? sp.size = some (entry t.symbol sp.id? (sp.size + 1) t.children) := by
  have hlen := length_entriesBefore sp [t]
  obtain ⟨s, ts⟩ := t
  simp [SymbolTree.get?, tree_append, ← hlen]

private theorem modify_append_cons {α : Type} {n : Nat} {as bs : List α} {a : α} (f : α → α)
    (h : as.length = n) : (as ++ a :: bs).modify n f = as ++ f a :: bs := by
  subst h
  induction as with
  | nil => rfl
  | cons x xs ih => simp only [List.cons_append, List.length_cons, List.modify_succ_cons, ih]

/-- A change of the innermost open symbol. -/
theorem modify_innermost (outer : Spine) (s : Symbol) (ts : List Tree) (f : Entry → Entry) :
    (under outer s ts).tree.entries.modify outer.size f =
      (outer.entriesBefore [leaf s] ++ f (entry s outer.id? (outer.size + 1) ts) ::
        entriesAll (outer.size + 1) (some outer.size) ts).toArray := by
  simp [tree_eq, entriesBefore, modify_append_cons f (length_entriesBefore outer [leaf s])]

theorem addChild_entry (s child : Symbol) (parent : Option Nat) (n : Nat) (ts : List Tree) :
    Entry.addChild (n + sizeAll ts) child (entry s parent n ts) =
      entry s parent n (ts ++ [leaf child]) := by
  cases hl : s.listsAttributes <;> cases hc : child.isAttribute <;>
    simp [Entry.addChild, entry, attrNumbers, leaf, hl, hc]

theorem push_tree (sp : Spine) (s : Symbol) :
    sp.tree.push sp.id? s = (sp.append [leaf s]).tree := by
  have hsize := sp.size_tree
  have hnew : entriesAll sp.size sp.id? [leaf s] = [Entry.leaf s sp.id?] := by
    simp [leaf, entry, Entry.leaf]
  rw [tree_append, hnew]
  cases sp with
  | root ts =>
    have hroots : (root ts).rootsWith [leaf s] = numbers 0 ts ++ [(root ts).size] := by
      simp [rootsWith, size]
    have htree : (root ts).tree = ⟨(entriesAll 0 none ts).toArray, (numbers 0 ts).toArray⟩ := by
      simp [tree_eq, entriesBefore, rootsWith]
    rw [hroots, ← hsize, htree]
    simp [SymbolTree.push, entriesBefore]
  | under outer symbol ts =>
    have hadd := addChild_entry symbol s outer.id? (outer.size + 1) ts
    have hroots : (under outer symbol ts).tree.roots =
        ((under outer symbol ts).rootsWith [leaf s]).toArray := by
      rw [tree_eq]
      rfl
    simp only [SymbolTree.push, id?_under, modify_innermost, hsize, hroots]
    rw [size, hadd, entriesBefore]
    simp

/-- A symbol that is opened is the last one. -/
theorem tree_open (sp : Spine) (s : Symbol) : (under sp s []).tree = sp.tree.push sp.id? s := by
  rw [push_tree, tree_under, leaf]

theorem close_tree (outer : Spine) (s : Symbol) (ts : List Tree) (stop : Span) :
    (under outer s ts).tree.close outer.size stop = (under outer (s.extendTo stop) ts).tree := by
  have hbefore := outer.entriesBefore_singleton (t := leaf (s.extendTo stop)) (u := leaf s) rfl
  have hroots := outer.rootsWith_singleton (leaf s) (leaf (s.extendTo stop))
  rw [SymbolTree.close, modify_innermost, tree_eq, tree_eq]
  simp only [entriesBefore, rootsWith, hbefore, hroots, List.append_nil]
  rfl

theorem lastChild?_tree (outer : Spine) (s : Symbol) (ts : List Tree) (t : Tree) :
    (under outer s (ts ++ [t])).tree.lastChild? outer.size = some (under outer s ts).size := by
  rw [SymbolTree.lastChild?, getElem?_innermost]
  simp [entry, size]

theorem span_last (sp : Spine) (t : Tree) : (sp.append [t]).tree.span sp.size = t.symbol.span := by
  rw [SymbolTree.span, getElem?_last]
  rfl

theorem closeAround_tree (outer : Spine) (s : Symbol) (ts : List Tree) (t : Tree) :
    (under outer s (ts ++ [t])).tree.closeAround outer.size =
      (under outer (s.extendTo t.symbol.span) (ts ++ [t])).tree := by
  have hspan : (under outer s (ts ++ [t])).tree.span (under outer s ts).size = t.symbol.span :=
    span_last (under outer s ts) t
  rw [← close_tree, SymbolTree.closeAround, lastChild?_tree]
  simp only [hspan]

/-- Only where no attributes are listed may a symbol become one of another kind. -/
theorem collapse_tree (outer : Spine) {s : Symbol} (hs : s.listsAttributes = false)
    (ts : List Tree) (t : Tree) (symbol : Symbol) :
    (under outer s (ts ++ [t])).tree.collapse (under outer s ts).size symbol =
      (under outer s (ts ++ [leaf symbol])).tree := by
  have hlen := length_entriesBefore (under outer s ts) [t]
  have hbefore : (under outer s ts).entriesBefore [leaf symbol] =
      (under outer s ts).entriesBefore [t] := by
    simp [entriesBefore, entry, hs]
  have happ : ∀ u, under outer s (ts ++ [u]) = (under outer s ts).append [u] := fun _ => rfl
  have htake : ∀ (e : Entry) (es : List Entry),
      ((under outer s ts).entriesBefore [t] ++ e :: es).take ((under outer s ts).size + 1) =
        (under outer s ts).entriesBefore [t] ++ [e] := by
    intro e es
    rw [← hlen, List.take_length_add_append]
    rfl
  have hroots := rootsWith_singleton (under outer s ts) t (leaf symbol)
  -- what stands behind the entry of `t` is below it, so what is kept ends with that entry
  obtain ⟨s', ts'⟩ := t
  rw [happ, happ, tree_append, tree_append, SymbolTree.collapse, hbefore, hroots]
  simp [htake, modify_append_cons _ hlen, leaf, entry, Entry.leaf]

end Spine

end Hcl
