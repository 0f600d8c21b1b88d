import Hcl.Binary64.Shortest
import Hcl.Value.Basic
import Hcl.Yaml.Scalar

/-!
# Writing YAML

Documents are written in block style, indented by two spaces. A value is a list of lines: what is
inside a container is put behind the mark of the container, on the same line. Only a list below a
key begins on a line of its own and is not indented.
-/

namespace Hcl.Yaml

/-- Puts a line behind `mark`. -/
def Line.behind (mark : List Char) (line : Line) : Line := ⟨mark ++ line.text, line.lineBreak⟩

/-- Indents a line that is not empty. -/
def Line.indent (line : Line) : Line :=
  if line.text.isEmpty then line else line.behind [' ', ' ']

/-- Puts the first line behind `mark` and indents the others. -/
def hang (mark : List Char) : List Line → List Line
  | [] => [.ofText mark]
  | line :: lines => line.behind mark :: lines.map Line.indent

/-- Keys of more than 128 bytes or several lines do not stand before their colon. -/
def isSimpleKey (key : String) : Bool := key.utf8ByteSize ≤ 128 && !key.toList.any isBreak

/-- Puts the lines of a key before those of its value. -/
def entryLines (key : String) (v : Value) (lines : List Line) : List Line :=
  let keyLines := stringLines key
  if isSimpleKey key then
    let key := keyLines.flatMap Line.text ++ [':']
    match v with
    | .object (_ :: _) => .ofText key :: lines.map Line.indent
    | .array (_ :: _) => .ofText key :: lines
    | _ => hang (key ++ [' ']) lines
  else hang ['?', ' '] keyLines ++ hang [':', ' '] lines

/-- Numbers from `0.00001` up to, but not including, `1e16` are written without an exponent. -/
def layout : Binary64.Layout := ⟨-5, 15, false⟩

/-- The text of a number; infinities and what is not a number have names. -/
def numberText (x : Binary64) : String :=
  match x.text? layout with
  | some text => text
  | none => if x.isNaN then ".nan" else if x.isNegative then "-.inf" else ".inf"

mutual
def valueLines : Value → List Line
  | .null => [.ofText "null".toList]
  | .boolean b => [.ofText (if b then "true" else "false").toList]
  | .number x => [.ofText (numberText x).toList]
  | .string s => stringLines s
  | .array [] => [.ofText ['[', ']']]
  | .array (e :: es) => hang ['-', ' '] (valueLines e) ++ elementsLines es
  | .object [] => [.ofText ['{', '}']]
  | .object ((key, v) :: es) => entryLines key v (valueLines v) ++ entriesLines es
  | .eval e => stringLines e.interpolation
  | .keyword k => stringLines k.text

/-- The lines of the elements behind the first one. -/
def elementsLines : List Value → List Line
  | [] => []
  | e :: es => hang ['-', ' '] (valueLines e) ++ elementsLines es

/-- The lines of the entries behind the first one. -/
def entriesLines : List (String × Value) → List Line
  | [] => []
  | (key, v) :: es => entryLines key v (valueLines v) ++ entriesLines es
end

/-- A document, each line with its line break. -/
def document (v : Value) : String :=
  String.ofList ((valueLines v).flatMap fun line => line.text ++ [line.lineBreak])

end Hcl.Yaml
