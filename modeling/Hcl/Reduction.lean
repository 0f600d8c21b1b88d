import Hcl.Binary64.Decimal
import Hcl.SymbolTree.Node
import Hcl.Value.Basic

/-!
# Reduction

Blocks are folded into nested objects, one level for the identifier and one for each label. A block
that repeats the labels of an earlier one turns what is there into a list, one object for each
declaration. A block whose labels lead through a list or a plain value is in conflict with it.

What was written into a scope before an error stays there.
-/

namespace Hcl

/-- The scope as a reduction leaves it, and its result: a value, nothing for what is written into
the scope instead, or an error. -/
structure Reduced where
  scope : Object
  result : Except Error (Option Value)

/-! ## Blocks -/

namespace Object

/-- Runs `write` on the object at the end of the path `names`. Objects that are missing on the way
are made. At the end of the path `write` gets a new object, which joins what is there in a list;
only with an empty path it gets `scope` itself. -/
def within (p : Position) (write : Object → Reduced) : (names : List String) → (scope : Object) →
    Reduced
  | [], scope => write scope
  | name :: names, scope =>
    match scope.lookup name, names with
    | none, names =>
      let inner := within p write names []
      ⟨put name (.object inner.scope) scope, inner.result⟩
    | some (.object first), [] =>
      let inner := write []
      ⟨put name (.array [.object first, .object inner.scope]) scope, inner.result⟩
    | some (.array elements), [] =>
      let inner := write []
      ⟨put name (.array (elements ++ [.object inner.scope])) scope, inner.result⟩
    | some (.object o), names =>
      let inner := within p write names o
      ⟨put name (.object inner.scope) scope, inner.result⟩
    | some (.array _), _ => ⟨scope, .error (.scopeConflict .array name p)⟩
    | some _, _ => ⟨scope, .error (.scopeConflict .value name p)⟩

end Object

/-! ## Literals -/

/-- The value of a literal at `p` in the attribute `owner`. A boolean is true only if it is written
`true`. -/
def LiteralType.value (type : LiteralType) (owner raw : String) (p : Position) :
    Except Error Value :=
  match type with
  | string => .ok (.string raw)
  | boolean => .ok (.boolean (raw == "true"))
  | null => .ok .null
  | number =>
    match Binary64.parse raw with
    | .ok x => .ok (.number x)
    | .error fault => .error (.number owner raw fault p)

/-! ## Nodes -/

namespace Node

mutual
/-- Reduces a node; `owner` is the name of the closest attribute above it. Blocks and attributes
write into `scope` and have no value. All other nodes have a value and leave `scope` alone. -/
def reduce (owner : String) (n : Node) (scope : Object) : Reduced :=
  match n with
  | mk _ symbol children =>
    match symbol.kind with
    | .block names =>
      scope.within symbol.position (fun body => reduceAll owner children body) names
    | .attr =>
      let name := symbol.name.getD ""
      match children with
      | [] => ⟨scope.put name .null, .ok none⟩
      | child :: _ =>
        match (child.reduce name []).result with
        | .ok v => ⟨scope.put name (v.getD .null), .ok none⟩
        | .error e => ⟨scope, .error e⟩
    | .map =>
      let inner := reduceAll owner children []
      ⟨scope, inner.result.map fun _ => some (.object inner.scope)⟩
    | .array => ⟨scope, (elements owner children).map fun vs => some (.array vs)⟩
    | .literal type raw => ⟨scope, (type.value owner raw symbol.position).map some⟩
    | .eval e => ⟨scope, .ok (some (.eval e))⟩
    | .keyword k => ⟨scope, .ok (some (.keyword k))⟩

/-- Reduces nodes one after the other into the same scope, up to the first error. -/
def reduceAll (owner : String) (ns : List Node) (scope : Object) : Reduced :=
  match ns with
  | [] => ⟨scope, .ok none⟩
  | n :: ns =>
    let first := n.reduce owner scope
    match first.result with
    | .ok _ => reduceAll owner ns first.scope
    | .error _ => first

/-- The values of nodes, up to the first error. What has no value counts as null. -/
def elements (owner : String) (ns : List Node) : Except Error (List Value) :=
  match ns with
  | [] => .ok []
  | n :: ns =>
    match (n.reduce owner []).result with
    | .ok v => (elements owner ns).map (v.getD .null :: ·)
    | .error e => .error e
end

end Node

namespace SymbolTree

/-- Reduces the symbol `id` into `scope`, if there is such a symbol. -/
def reduceSymbol? (t : SymbolTree) (id : Nat) (scope : Object) : Option Reduced :=
  (t.node? id).map fun n => n.reduce (t.attributeAbove id) scope

/-- Reduces all roots into one object. Roots that are neither blocks nor attributes leave no
trace. -/
def reduce (t : SymbolTree) : Except Error Object :=
  let r := Node.reduceAll "" t.nodes []
  r.result.map fun _ => r.scope

end SymbolTree

end Hcl
