import Hcl.SymbolTree.Basic

/-!
# Trees of nodes

The numbered symbols of a tree, unfolded: a node is a symbol with the nodes below it. Definitions
that follow the structure of a document are made on nodes.
-/

namespace Hcl

inductive Node where
  | mk (id : Nat) (symbol : Symbol) (children : List Node)
deriving Repr

namespace Node

def id : Node → Nat
  | mk id _ _ => id

def symbol : Node → Symbol
  | mk _ symbol _ => symbol

def children : Node → List Node
  | mk _ _ children => children

mutual
/-- A node before its children, and these in order. -/
def preorder : Node → List Nat
  | mk id _ children => id :: preorderAll children

def preorderAll : List Node → List Nat
  | [] => []
  | n :: ns => n.preorder ++ preorderAll ns
end

end Node

namespace SymbolTree

/-- The symbol `id` with everything below it. -/
def node? (t : SymbolTree) (id : Nat) : Option Node :=
  match _ : t.entries[id]? with
  | none => none
  | some e =>
    some (.mk id e.symbol (e.children.toList.filterMap fun child =>
      if _ : id < child then t.node? child else none))
termination_by t.size - id
decreasing_by
  rename_i h _ hlt
  exact Nat.sub_lt_sub_left (Array.getElem?_eq_some_iff.mp h).1 hlt

/-- The roots with everything below them. -/
def nodes (t : SymbolTree) : List Node := t.roots.toList.filterMap t.node?

end SymbolTree

end Hcl
