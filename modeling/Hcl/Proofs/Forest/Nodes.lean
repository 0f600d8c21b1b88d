import Hcl.Proofs.Forest.Entries
import Hcl.SymbolTree.Node

/-!
# The nodes of a forest

The node of a number is the tree that has this number, with the numbers of all that is below it.
-/

namespace Hcl

namespace Tree

mutual
/-- The tree as a node, if its symbol has the number `n`. -/
def toNode (n : Nat) : Tree → Node
  | node symbol children => .mk n symbol (toNodes (n + 1) children)

def toNodes (n : Nat) : List Tree → List Node
  | [] => []
  | t :: ts => t.toNode n :: toNodes (n + t.size) ts
end

@[simp] theorem toNode_node (n : Nat) (s : Symbol) (ts : List Tree) :
    (node s ts).toNode n = .mk n s (toNodes (n + 1) ts) := rfl

@[simp] theorem toNodes_nil (n : Nat) : toNodes n [] = [] := rfl

@[simp] theorem toNodes_cons (n : Nat) (t : Tree) (ts : List Tree) :
    toNodes n (t :: ts) = t.toNode n :: toNodes (n + t.size) ts := rfl

theorem toNodes_append (n : Nat) (as bs : List Tree) :
    toNodes n (as ++ bs) = toNodes n as ++ toNodes (n + sizeAll as) bs := by
  induction as generalizing n with
  | nil => simp
  | cons t ts ih => simp [ih, Nat.add_assoc]

@[simp] theorem symbol_toNode (n : Nat) (t : Tree) : (t.toNode n).symbol = t.symbol := by
  cases t
  rfl

theorem map_symbol_toNodes (n : Nat) (ts : List Tree) :
    (toNodes n ts).map Node.symbol = ts.map Tree.symbol := by
  induction ts generalizing n with
  | nil => rfl
  | cons t ts ih => rw [toNodes_cons, List.map_cons, symbol_toNode, ih, List.map_cons]

end Tree

open Hcl.Tree

namespace SymbolTree

variable {t : SymbolTree} {id : Nat}

theorem node?_of_get? {e : Entry} (he : t.get? id = some e) :
    t.node? id = some (.mk id e.symbol (e.children.toList.filterMap fun child =>
      if id < child then t.node? child else none)) := by
  rw [get?] at he
  rw [node?]
  split
  · next h => rw [he] at h; cases h
  · next e' h =>
    rw [he] at h
    cases h
    simp

theorem node?_of_get?_none (h : t.get? id = none) : t.node? id = none := by
  rw [get?] at h
  rw [node?]
  split
  · rfl
  · next e h' => rw [h] at h'; cases h'

mutual
theorem node?_of_occurs {ts : List Tree} {id : Nat} {p : Option Nat} : (u : Tree) →
    Occurs 0 none ts id p u → (ofForest ts).node? id = some (u.toNode id)
  | node s cs, h => by
    have hbelow : (numbers (id + 1) cs).filterMap (fun child =>
        if id < child then (ofForest ts).node? child else none) = toNodes (id + 1) cs := by
      refine filterMap_numbers ts (id + 1) (some id) cs fun i q v hv => ?_
      have hle := hv.le
      exact ⟨h.trans hv, if_pos (by omega)⟩
    rw [node?_of_get? (get?_of_occurs h), toNode_node]
    simp only [entry, hbelow, symbol_node, children_node]

/-- Trees that stand side by side in a forest, looked up by their numbers. -/
theorem filterMap_numbers (ts : List Tree) {f : Nat → Option Node} (n : Nat)
    (parent : Option Nat) : (cs : List Tree) →
    (∀ i q v, Occurs n parent cs i q v → Occurs 0 none ts i q v ∧ f i = (ofForest ts).node? i) →
    (numbers n cs).filterMap f = toNodes n cs
  | [], _ => rfl
  | c :: cs, h => by
    obtain ⟨hocc, hf⟩ := h n parent c .head
    have hfirst : f n = some (c.toNode n) := hf.trans (node?_of_occurs c hocc)
    have hrest := filterMap_numbers ts (n + c.size) parent cs fun i q v hv => h i q v (.tail hv)
    rw [numbers_cons, List.filterMap_cons, hfirst, hrest, toNodes_cons]
end

/-- The nodes of the roots are the trees of the forest. -/
theorem nodes_ofForest (ts : List Tree) : (ofForest ts).nodes = toNodes 0 ts := by
  have h := filterMap_numbers (f := (ofForest ts).node?) ts 0 none ts fun i q v hv => ⟨hv, rfl⟩
  simpa [nodes, ofForest] using h

end SymbolTree

end Hcl
