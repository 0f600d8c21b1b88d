import Hcl.Symbol

/-!
# Symbol trees

All symbols of a source, numbered in the order in which they were added. A symbol is added below
one that is there already or as a root, so numbers grow from parent to child.
-/

namespace Hcl

/-- A symbol and its place in the tree. -/
structure Entry where
  symbol : Symbol
  parent : Option Nat
  children : Array Nat
  /-- the children of a block or map that are attributes -/
  attributes : Array Nat
deriving DecidableEq, Repr

namespace Entry

/-- A symbol below `parent`, with nothing below it. -/
def leaf (symbol : Symbol) (parent : Option Nat) : Entry := ⟨symbol, parent, #[], #[]⟩

/-- Adds the last child. -/
def addChild (id : Nat) (child : Symbol) (e : Entry) : Entry :=
  { e with
    children := e.children.push id
    attributes :=
      if child.isAttribute && e.symbol.listsAttributes then e.attributes.push id
      else e.attributes }

end Entry

structure SymbolTree where
  entries : Array Entry
  roots : Array Nat
deriving DecidableEq, Repr

namespace SymbolTree

def empty : SymbolTree := ⟨#[], #[]⟩

instance : Inhabited SymbolTree := ⟨empty⟩

def size (t : SymbolTree) : Nat := t.entries.size

def get? (t : SymbolTree) (id : Nat) : Option Entry := t.entries[id]?

def children (t : SymbolTree) (id : Nat) : List Nat :=
  match t.get? id with
  | some e => e.children.toList
  | none => []

def lastChild? (t : SymbolTree) (id : Nat) : Option Nat :=
  (t.get? id).bind (·.children.back?)

def span (t : SymbolTree) (id : Nat) : Span :=
  match t.get? id with
  | some e => e.symbol.span
  | none => ⟨.start, 0⟩

def position (t : SymbolTree) (id : Nat) : Position := (t.span id).start

/-! ## Growing -/

/-- Adds `symbol` as the last child of `parent`, or as the last root. Its number is the size that
the tree had. -/
def push (parent : Option Nat) (symbol : Symbol) (t : SymbolTree) : SymbolTree :=
  let id := t.size
  match parent with
  | none => ⟨t.entries.push (.leaf symbol none), t.roots.push id⟩
  | some p =>
    ⟨(t.entries.modify p (Entry.addChild id symbol)).push (.leaf symbol (some p)), t.roots⟩

/-- Extends the span of `id` to the end of `stop`. -/
def close (id : Nat) (stop : Span) (t : SymbolTree) : SymbolTree :=
  { t with
    entries := t.entries.modify id fun e =>
      { e with symbol := { e.symbol with span := e.symbol.span.upTo stop } } }

/-- Extends the span of `id` to the end of its last child. -/
def closeAround (id : Nat) (t : SymbolTree) : SymbolTree :=
  match t.lastChild? id with
  | some child => t.close id (t.span child)
  | none => t

/-- Puts `symbol` in the place of `id` and of everything added after it. -/
def collapse (id : Nat) (symbol : Symbol) (t : SymbolTree) : SymbolTree :=
  { t with
    entries := (t.entries.shrink (id + 1)).modify id fun e => .leaf symbol e.parent }

theorem size_push (parent : Option Nat) (symbol : Symbol) (t : SymbolTree) :
    (t.push parent symbol).size = t.size + 1 := by
  cases parent <;> simp [push, size]

/-- A new symbol has nothing below it. Of the others only its parent has changed. -/
theorem get?_push (parent : Option Nat) (symbol : Symbol) (t : SymbolTree) (id : Nat) :
    (t.push parent symbol).get? id =
      if id = t.size then some (.leaf symbol parent)
      else (t.get? id).map fun e => if parent = some id then e.addChild t.size symbol else e := by
  cases parent with
  | none => simp [push, get?, size, Array.getElem?_push]
  | some p =>
    simp only [push, get?, Array.getElem?_push, Array.size_modify, Array.getElem?_modify, size,
      Option.some.injEq]
    split
    · rfl
    split <;> simp

/-! ## Upwards -/

/-- The symbols above `id`, innermost first. -/
def ancestors (t : SymbolTree) (id : Nat) : List Nat :=
  match (t.get? id).bind Entry.parent with
  | none => []
  | some p => if p < id then p :: t.ancestors p else []
termination_by id

/-- The name of the closest attribute above `id`. -/
def attributeAbove (t : SymbolTree) (id : Nat) : String :=
  let entries := (t.ancestors id).filterMap t.get?
  ((entries.find? (·.symbol.isAttribute)).bind (·.symbol.name)).getD ""

end SymbolTree

end Hcl
