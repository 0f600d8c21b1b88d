import Hcl.Lexer.Basic

/-!
# Errors

Everything that can go wrong between a source text and its document, as causes. The wording of a
cause is in one place, `Error.message`.
-/

namespace Hcl

/-- How many scopes may be open at once, the document body included. -/
def maxDepth : Nat := 128

/-! ## Structure of a source -/

/-- What the grammar allows where another token was found. -/
inductive Expected where
  | bodyItem
  | label
  | attributeEnd
  | separator
  | mapKey
  | entrySign
  | expression
  | attributeName
deriving DecidableEq, Repr

def Expected.describe : Expected → String
  | bodyItem => "block or attribute"
  | label => "block label, `\x7b` or `=`"
  | attributeEnd => "newline after attribute"
  | separator => "`,` or `]`"
  | mapKey => "map key"
  | entrySign => "`=` or `:`"
  | expression => "expression"
  | attributeName => "attribute name"

/-- What an opening bracket opens. -/
inductive Construct where
  | block
  | array
  | map
  | expression
deriving DecidableEq, Repr

def Construct.describe : Construct → String
  | block => "block"
  | array => "array"
  | map => "map"
  | expression => "expression"

inductive SyntaxFault where
  /-- `found` is the description of a token -/
  | unexpectedToken (expected : Expected) (found : String)
  | unmatchedClose (bracket : Char)
  | unclosed (what : Construct)
  /-- more than `maxDepth` scopes inside each other -/
  | scopesTooDeep
deriving DecidableEq, Repr

def SyntaxFault.message : SyntaxFault → String
  | unexpectedToken expected found => "expected " ++ expected.describe ++ ", found " ++ found
  | unmatchedClose bracket => "unmatched closing `" ++ bracket.toString ++ "`"
  | unclosed what => "unclosed " ++ what.describe
  | scopesTooDeep => s!"nesting exceeds {maxDepth} levels"

/-! ## Reduction -/

/-- What sits where a block's labels lead through. -/
inductive ScopeConflict where
  /-- a list, although more labels follow -/
  | array
  /-- something that is no object and no list -/
  | value
deriving DecidableEq, Repr

def ScopeConflict.describe : ScopeConflict → String
  | array => "array"
  | value => "value"

/-- Why a text is not a number. -/
inductive NumeralFault where
  | empty
  | invalid
deriving DecidableEq, Repr

def NumeralFault.message : NumeralFault → String
  | empty => "cannot parse float from empty string"
  | invalid => "invalid float literal"

/-! ## All errors -/

inductive Error where
  | lexical (fault : LexicalFault) (position : Position)
  | syntactic (fault : SyntaxFault) (position : Position)
  | scopeConflict (conflict : ScopeConflict) (label : String) (position : Position)
  /-- something other than a block or an attribute at the root of a configuration -/
  | rootSymbol (found : String) (position : Position)
  /-- a literal in the attribute `owner` that is not a number -/
  | number (owner raw : String) (fault : NumeralFault) (position : Position)
  /-- the source could not be read -/
  | io (reason : String)
deriving DecidableEq, Repr

namespace Error

def message : Error → String
  | lexical fault p => fault.message ++ " at " ++ p.describe
  | syntactic fault p => fault.message ++ " at " ++ p.describe
  | scopeConflict conflict label p =>
    "HCL Block expression scope traverses an object " ++ conflict.describe ++ " (`" ++ label ++
      "` at " ++ p.describe ++ ")"
  | rootSymbol found p =>
    "The root blocks must only consist of Blocks and Attributes (found " ++ found ++ " at " ++
      p.describe ++ ")"
  | number owner raw _ p =>
    "Error parsing numerical value `" ++ raw ++ "` in HCL attribute `" ++ owner ++ "` at " ++
      p.describe
  | io _ => "IO error"

/-- Where in the source the error was noticed, if it was in a source. -/
def position? : Error → Option Position
  | lexical _ p | syntactic _ p | scopeConflict _ _ p | rootSymbol _ p | number _ _ _ p => some p
  | io _ => none

/-- What lies behind the error, if its message does not say it. -/
def cause? : Error → Option String
  | number _ _ fault _ => some fault.message
  | io reason => some reason
  | _ => none

end Error

end Hcl
