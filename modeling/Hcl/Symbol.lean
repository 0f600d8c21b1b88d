import Hcl.Span

/-!
# Symbols

What a source says, read but not yet reduced: blocks, attributes, literals in their textual form,
containers, and expressions kept as text for a later evaluation.
-/

namespace Hcl

/-! ## Literals -/

inductive LiteralType where
  | string
  | number
  | boolean
  | null
deriving DecidableEq, Repr

def LiteralType.describe : LiteralType → String
  | string => "string"
  | number => "number"
  | boolean => "boolean"
  | null => "null"

/-! ## Deferred expressions -/

/-- The shape of an expression that is not evaluated. -/
inductive EvalKind where
  /-- `var.name`, `local.list[0]`, `aws_instance.web.*.id` -/
  | traversal
  /-- `name(...)` -/
  | call
  /-- `[for ...]` or `{for ...}` -/
  | comprehension
  /-- operations, conditionals and expressions in parentheses -/
  | operation
deriving DecidableEq, Repr

/-- The name of the shape in a listing of expressions. -/
def EvalKind.name : EvalKind → String
  | traversal => "Variable"
  | call => "Function"
  | comprehension => "For"
  | operation => "Expression"

/-- An expression left for a later evaluation, as written. -/
structure Eval where
  kind : EvalKind
  text : String
deriving DecidableEq, Repr

def Eval.interpolation (e : Eval) : String := String.ofList ('$' :: '{' :: e.text.toList ++ ['}'])

/-! ## Type keywords -/

inductive TypeKeyword where
  | string
  | number
  | bool
  | any
deriving DecidableEq, Repr

namespace TypeKeyword

def text : TypeKeyword → String
  | string => "string"
  | number => "number"
  | bool => "bool"
  | any => "any"

def ofString? (s : String) : Option TypeKeyword :=
  if s = "string" then some string
  else if s = "number" then some number
  else if s = "bool" then some bool
  else if s = "any" then some any
  else none

end TypeKeyword

/-! ## Symbols -/

inductive SymbolKind where
  /-- an identifier and its labels in front of a body -/
  | block (names : List String)
  /-- a name and an expression, its only child -/
  | attr
  | literal (type : LiteralType) (raw : String)
  /-- the children are the elements -/
  | array
  /-- the children are attributes -/
  | map
  | eval (e : Eval)
  | keyword (k : TypeKeyword)
deriving DecidableEq, Repr

def SymbolKind.describe : SymbolKind → String
  | block _ => "block"
  | attr => "attribute"
  | literal _ _ => "value"
  | array => "array"
  | map => "map"
  | eval _ => "expression"
  | keyword _ => "primitive type"

structure Symbol where
  kind : SymbolKind
  name : Option String
  span : Span
deriving DecidableEq, Repr

namespace Symbol

/-- A block is called by its first name. -/
def block (names : List String) (span : Span) : Symbol := ⟨.block names, names.head?, span⟩

def attr (name : String) (span : Span) : Symbol := ⟨.attr, some name, span⟩

def literal (type : LiteralType) (raw : String) (span : Span) : Symbol :=
  ⟨.literal type raw, none, span⟩

def array (span : Span) : Symbol := ⟨.array, none, span⟩

def map (span : Span) : Symbol := ⟨.map, none, span⟩

def position (s : Symbol) : Position := s.span.start

def isAttribute (s : Symbol) : Bool := s.kind == .attr

/-- Blocks and maps list their attributes. -/
def listsAttributes (s : Symbol) : Bool :=
  match s.kind with
  | .block _ | .map => true
  | _ => false

/-- The deferred expression, if the symbol is one. -/
def eval? (s : Symbol) : Option Eval :=
  match s.kind with
  | .eval e => some e
  | _ => none

end Symbol

end Hcl
