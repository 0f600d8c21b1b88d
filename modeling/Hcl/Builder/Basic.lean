import Hcl.Operand
import Hcl.SymbolTree.Basic

/-!
# The tree builder

A builder reads tokens, grows a tree and keeps the scopes that are open, the innermost first. What
it does next depends on the innermost scope alone. It is done when no scope is open.
-/

namespace Hcl

/-- What the next tokens are read into. `complete` says that a whole value has been read. -/
inductive Scope where
  /-- blocks and attributes up to the end of the source -/
  | document
  /-- blocks and attributes up to `}` -/
  | block (id : Nat)
  /-- the value of an attribute or map entry -/
  | attr (id : Nat) (complete : Bool)
  /-- elements up to `]` -/
  | array (id : Nat) (complete : Bool)
  /-- entries up to `}` -/
  | map (id : Nat)
deriving DecidableEq, Repr

namespace Scope

/-- The symbol below which a scope reads. -/
def symbol? : Scope → Option Nat
  | document => none
  | block id | attr id _ | array id _ | map id => some id

/-- The scope after a value has been read into it. -/
def completed : Scope → Scope
  | attr id _ => attr id true
  | array id _ => array id true
  | scope => scope

end Scope

structure Builder where
  source : List Char
  stream : TokenStream
  tree : SymbolTree
  scopes : List Scope

/-- Why a builder stopped, and the tree it had built. -/
structure Stopped where
  tree : SymbolTree
  error : Error

namespace Builder

/-- A builder at the beginning of `source`. -/
def ofString (source : String) : Builder :=
  ⟨source.toList, .ofString source, .empty, [.document]⟩

/-- What comes of one step. -/
abbrev Step := Except Stopped Builder

def fail (e : Error) (b : Builder) : Step := .error ⟨b.tree, e⟩

/-- Goes on with what was found out, or stops. -/
@[inline] def attempt {α : Type} (r : Except Error α) (b : Builder) (go : α → Step) : Step :=
  match r with
  | .error e => b.fail e
  | .ok a => go a

/-- Goes on behind what was read, or stops. -/
@[inline] def read {α : Type} (r : Reading α) (b : Builder) (go : α → Builder → Step) : Step :=
  match r with
  | .error e => b.fail e
  | .ok (a, stream) => go a { b with stream }

/-! ## Scopes -/

/-- A value has been read into the innermost scope. -/
def complete : List Scope → List Scope
  | [] => []
  | scope :: outer => scope.completed :: outer

/-- Opens a scope for a symbol that begins at `p`. -/
def enter (scope : Scope) (p : Position) (b : Builder) : Step :=
  if maxDepth ≤ b.scopes.length then b.fail (.syntactic .scopesTooDeep p)
  else .ok { b with scopes := scope :: b.scopes }

/-- Closes the innermost scope. What was read in it is a value of the scope around it. -/
def leave (b : Builder) : Builder := { b with scopes := complete b.scopes.tail }

/-- Whether the innermost scope is a map. -/
def inMap (b : Builder) : Bool :=
  match b.scopes with
  | .map _ :: _ => true
  | _ => false

/-! ## Symbols -/

def push (parent : Option Nat) (symbol : Symbol) (b : Builder) : Builder :=
  { b with tree := b.tree.push parent symbol }

/-- Adds a symbol and opens the scope that reads what is below it. -/
def pushScope (parent : Option Nat) (symbol : Symbol) (scope : Nat → Scope)
    (b : Builder) : Step :=
  (b.push parent symbol).enter (scope b.tree.size) symbol.position

/-- Adds a symbol with nothing below it, a whole value of the innermost scope. -/
def pushValue (parent : Nat) (symbol : Symbol) (b : Builder) : Builder :=
  { b.push (some parent) symbol with scopes := complete b.scopes }

end Builder

end Hcl
