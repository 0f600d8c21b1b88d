import Hcl.SymbolTree.Basic

/-!
# Walks

A walk visits each symbol once, parents before children and in source order. It keeps the symbols
that are still to be visited on a stack. An outline does the same and counts for each symbol how many
are above it.
-/

namespace Hcl.SymbolTree

/-- Visits the symbols of the stack `pending` and all below them, at most `fuel` symbols. -/
def visit (t : SymbolTree) : (fuel : Nat) → (pending : List Nat) → List Nat
  | _, [] => []
  | 0, _ :: _ => []
  | fuel + 1, id :: pending => id :: t.visit fuel (t.children id ++ pending)

/-- All symbols. A tree has no more than its size. -/
def walk (t : SymbolTree) : List Nat := t.visit t.size t.roots.toList

/-- The expressions of the tree in source order. -/
def evals (t : SymbolTree) : List Eval :=
  t.walk.filterMap fun id => (t.get? id).bind (·.symbol.eval?)

/-- Visits symbols that stand on the stack with their depth, and all below them, at most `fuel`
symbols. -/
def visitWithDepth (t : SymbolTree) : (fuel : Nat) → (pending : List (Nat × Nat)) →
    List (Nat × Nat)
  | _, [] => []
  | 0, _ :: _ => []
  | fuel + 1, (id, depth) :: pending =>
    (id, depth) :: t.visitWithDepth fuel ((t.children id).map (·, depth + 1) ++ pending)

/-- All symbols with the number of symbols above them. -/
def outline (t : SymbolTree) : List (Nat × Nat) :=
  t.visitWithDepth t.size (t.roots.toList.map (·, 0))

end Hcl.SymbolTree
