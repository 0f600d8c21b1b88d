import Hcl.Binary64.Shortest
import Hcl.Json.Writer

/-!
# The writer of the program

Of the characters in a string only the quote, the backslash and the controls below space are
escaped. The compact form has no blanks; the pretty one has a line for each element and entry,
indented by two spaces for each container around it.
-/

namespace Hcl

namespace Json

/-! ## Scalars -/

def boolText (b : Bool) : List Char := (if b then "true" else "false").toList

/-- Numbers from `0.00001` up to, but not including, `1e+16` are written without an exponent. -/
def layout : Binary64.Layout := ⟨-5, 15, true⟩

/-- Numbers that are not finite have no numeral. -/
def numberChars (x : Binary64) : List Char :=
  match x.text? layout with
  | some numeral => numeral.toList
  | none => "null".toList

def escapeChar (c : Char) : List Char :=
  match c with
  | '"' => ['\\', '"']
  | '\\' => ['\\', '\\']
  | '\x08' => ['\\', 'b']
  | '\x0c' => ['\\', 'f']
  | '\n' => ['\\', 'n']
  | '\r' => ['\\', 'r']
  | '\t' => ['\\', 't']
  | c =>
    if c.toNat < 0x20 then
      ['\\', 'u', '0', '0', Nat.digitChar (c.toNat / 16), Nat.digitChar (c.toNat % 16)]
    else [c]

def quote (s : String) : List Char := '"' :: s.toList.flatMap escapeChar ++ ['"']

/-! ## Containers -/

/-- Without blanks. -/
def compactEnclosure (opening closing : Char) : Enclosure where
  opening _ := [opening]
  before _ first := if first then [] else [',']
  behind _ := []
  closing _ _ := [closing]

/-- A line break and the indentation inside of `depth` containers. -/
def newLine (depth : Nat) : List Char := '\n' :: List.replicate (2 * depth) ' '

/-- With a line for each part. -/
def prettyEnclosure (opening closing : Char) : Enclosure where
  opening _ := [opening]
  before depth first := (if first then [] else [',']) ++ newLine (depth + 1)
  behind _ := []
  closing depth isEmpty := (if isEmpty then [] else newLine depth) ++ [closing]

/-- How the program writes JSON. -/
def standard : Writer where
  null := "null".toList
  bool := boolText
  number := numberChars
  string := quote
  compact := ⟨compactEnclosure '[' ']', compactEnclosure '{' '}', fun _ => [':']⟩
  pretty := ⟨prettyEnclosure '[' ']', prettyEnclosure '{' '}', fun _ => [':', ' ']⟩

end Json

def Value.toJson (v : Value) : Json.Texts := v.jsonTexts Json.standard

end Hcl
