import Hcl.Proofs.Forest.Entries
import Hcl.Proofs.Forest.Spine

/-!
# The kinds of the symbols of a forest

In the order of the symbols. To close a symbol, or to open a scope for it, changes none of them.
-/

namespace Hcl

namespace Tree

mutual
def kinds : Tree → List SymbolKind
  | node symbol children => symbol.kind :: kindsAll children

def kindsAll : List Tree → List SymbolKind
  | [] => []
  | t :: ts => t.kinds ++ kindsAll ts
end

@[simp] theorem kinds_node (s : Symbol) (ts : List Tree) :
    (node s ts).kinds = s.kind :: kindsAll ts := rfl

@[simp] theorem kinds_leaf (s : Symbol) : (leaf s).kinds = [s.kind] := rfl

@[simp] theorem kindsAll_nil : kindsAll [] = [] := rfl

@[simp] theorem kindsAll_cons (t : Tree) (ts : List Tree) :
    kindsAll (t :: ts) = t.kinds ++ kindsAll ts := rfl

@[simp] theorem kindsAll_append (as bs : List Tree) :
    kindsAll (as ++ bs) = kindsAll as ++ kindsAll bs := by
  induction as with
  | nil => rfl
  | cons t ts ih => rw [List.cons_append, kindsAll_cons, kindsAll_cons, ih, List.append_assoc]

theorem Occurs.kind_mem {n id : Nat} {parent p : Option Nat} {ts : List Tree} {u : Tree}
    (h : Occurs n parent ts id p u) : u.symbol.kind ∈ kindsAll ts := by
  induction h with
  | @head n parent t ts =>
    obtain ⟨s, cs⟩ := t
    simp
  | tail _ ih => simp [ih]
  | inside _ ih => simp [ih]

mutual
theorem map_kind_entries (n : Nat) (parent : Option Nat) :
    (t : Tree) → (t.entries n parent).map (·.symbol.kind) = t.kinds
  | node s ts => by
    rw [entries_node, List.map_cons, map_kind_entriesAll (n + 1) (some n) ts]
    rfl

theorem map_kind_entriesAll (n : Nat) (parent : Option Nat) :
    (ts : List Tree) → (entriesAll n parent ts).map (·.symbol.kind) = kindsAll ts
  | [] => rfl
  | t :: ts => by
    rw [entriesAll_cons, List.map_append, map_kind_entries n parent t,
      map_kind_entriesAll (n + t.size) parent ts, kindsAll_cons]
end

end Tree

open Hcl.Tree

theorem SymbolTree.kind_mem_of_get? {ts : List Tree} {id : Nat} {entry : Entry}
    (h : (ofForest ts).get? id = some entry) : entry.symbol.kind ∈ kindsAll ts := by
  obtain ⟨p, u, hu, rfl⟩ := exists_occurs_of_get? h
  exact hu.kind_mem

/-- The kind of the symbol `id`, if there is one. -/
def SymbolTree.kind? (t : SymbolTree) (id : Nat) : Option SymbolKind :=
  (t.get? id).map (·.symbol.kind)

theorem SymbolTree.kind?_ofForest (ts : List Tree) (id : Nat) :
    (ofForest ts).kind? id = (kindsAll ts)[id]? := by
  rw [kind?, get?, ofForest, List.getElem?_toArray, ← List.getElem?_map, map_kind_entriesAll]

@[simp] theorem Symbol.kind_extendTo (s : Symbol) (stop : Span) :
    (s.extendTo stop).kind = s.kind := rfl

namespace Spine

def kinds : Spine → List SymbolKind
  | root trees => kindsAll trees
  | under outer symbol trees => outer.kinds ++ symbol.kind :: kindsAll trees

@[simp] theorem kinds_under (outer : Spine) (symbol : Symbol) (trees : List Tree) :
    (under outer symbol trees).kinds = outer.kinds ++ symbol.kind :: kindsAll trees := rfl

@[simp] theorem kinds_append (sp : Spine) (ts : List Tree) :
    (sp.append ts).kinds = sp.kinds ++ kindsAll ts := by
  cases sp <;> simp [append, kinds]

theorem kinds_close (outer : Spine) (symbol : Symbol) (stop : Span) (trees : List Tree) :
    (outer.append [node (symbol.extendTo stop) trees]).kinds =
      (under outer symbol trees).kinds := by
  simp

theorem kindsAll_forestWith (sp : Spine) (more : List Tree) :
    kindsAll (sp.forestWith more) = sp.kinds ++ kindsAll more := by
  induction sp generalizing more with
  | root trees => simp [forestWith, kinds]
  | under outer symbol trees ih => simp [forestWith, ih]

theorem kinds_eq (sp : Spine) : kindsAll sp.forest = sp.kinds := by
  simp [forest, kindsAll_forestWith]

theorem kind?_tree (sp : Spine) (id : Nat) : sp.tree.kind? id = sp.kinds[id]? := by
  rw [tree, SymbolTree.kind?_ofForest, kinds_eq]

theorem length_kinds (sp : Spine) : sp.kinds.length = sp.size := by
  have h := congrArg List.length (map_kind_entriesAll 0 none sp.forest)
  rw [List.length_map, length_entriesAll, kinds_eq] at h
  rw [← h, ← size_tree, tree, SymbolTree.size_ofForest]

end Spine

end Hcl
