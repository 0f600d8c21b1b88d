import Hcl.Document

/-!
# Configurations

The roots of a document, sorted into blocks and attributes in source order. Nothing is merged:
repeated blocks stay apart, and every symbol keeps its place.
-/

namespace Hcl

structure Configuration where
  tree : SymbolTree
  blocks : List Nat
  attributes : List Nat
deriving DecidableEq, Repr

namespace Configuration

/-- Sorts roots. A root that is neither a block nor an attribute is an error. -/
def sortRoots (t : SymbolTree) : List Nat → Except Error (List Nat × List Nat)
  | [] => .ok ([], [])
  | id :: ids =>
    match t.get? id with
    | none => sortRoots t ids
    | some e =>
      match e.symbol.kind with
      | .block _ => (sortRoots t ids).map fun (blocks, attributes) => (id :: blocks, attributes)
      | .attr => (sortRoots t ids).map fun (blocks, attributes) => (blocks, id :: attributes)
      | kind => .error (.rootSymbol kind.describe e.symbol.position)

def ofTree (t : SymbolTree) : Except Error Configuration :=
  (sortRoots t t.roots.toList).map fun (blocks, attributes) => ⟨t, blocks, attributes⟩

def isNamed (c : Configuration) (name : String) (id : Nat) : Bool :=
  (c.tree.get? id).any fun e => e.symbol.name == some name

def blocksNamed (c : Configuration) (identifier : String) : List Nat :=
  c.blocks.filter (c.isNamed identifier)

/-- The reduced value of the last root attribute called `name`, if there is one. -/
def attributeValue (c : Configuration) (name : String) : Except Error (Option Value) :=
  match (c.attributes.reverse.find? (c.isNamed name)).bind (c.tree.reduceSymbol? · []) with
  | none => .ok none
  | some r => r.result.map fun _ => r.scope.lookup name

end Configuration

/-- Reads the roots of `source`. -/
def parseConfiguration (recovery : Recovery) (source : String) : Except Error Configuration :=
  (parseSymbols recovery source).bind Configuration.ofTree

end Hcl
