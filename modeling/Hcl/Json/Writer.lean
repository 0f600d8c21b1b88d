import Hcl.Value.Basic

/-!
# Writing JSON

A value is handed part by part to a library that writes JSON. How scalars are written, and what is
put around the parts of arrays and objects, is up to the library, which is given by what it writes.
Expressions and type keywords are handed over as strings.
-/

namespace Hcl

namespace Json

/-- What is written around the parts of a container inside of `depth` others. -/
structure Enclosure where
  opening : (depth : Nat) → List Char
  /-- in front of the first part, or of another one -/
  before : (depth : Nat) → (first : Bool) → List Char
  behind : (depth : Nat) → List Char
  closing : (depth : Nat) → (isEmpty : Bool) → List Char

/-- How arrays and objects are laid out. -/
structure Formatter where
  array : Enclosure
  object : Enclosure
  /-- between a key and its value -/
  colon : (depth : Nat) → List Char

/-- A library that writes JSON, with a compact and a pretty form. -/
structure Writer where
  null : List Char
  bool : Bool → List Char
  number : Binary64 → List Char
  string : String → List Char
  compact : Formatter
  pretty : Formatter

/-- Both forms of a text. -/
structure Texts where
  compact : String
  pretty : String

end Json

namespace Value

open Json (Writer Formatter Texts)

mutual
/-- Writes a value inside of `depth` containers. -/
def jsonChars (w : Writer) (f : Formatter) (depth : Nat) : Value → List Char
  | null => w.null
  | boolean b => w.bool b
  | number x => w.number x
  | string s => w.string s
  | array elements =>
    f.array.opening depth ++ jsonElements w f depth true elements ++
      f.array.closing depth elements.isEmpty
  | object entries =>
    f.object.opening depth ++ jsonEntries w f depth true entries ++
      f.object.closing depth entries.isEmpty
  | eval e => w.string e.interpolation
  | keyword k => w.string k.text

/-- Writes the elements of an array inside of `depth` containers. -/
def jsonElements (w : Writer) (f : Formatter) (depth : Nat) (first : Bool) :
    List Value → List Char
  | [] => []
  | v :: vs =>
    f.array.before depth first ++ v.jsonChars w f (depth + 1) ++ f.array.behind depth ++
      jsonElements w f depth false vs

/-- Writes the entries of an object inside of `depth` containers. -/
def jsonEntries (w : Writer) (f : Formatter) (depth : Nat) (first : Bool) :
    List (String × Value) → List Char
  | [] => []
  | (key, v) :: entries =>
    f.object.before depth first ++ w.string key ++ f.colon depth ++ v.jsonChars w f (depth + 1) ++
      f.object.behind depth ++ jsonEntries w f depth false entries
end

def jsonTexts (w : Writer) (v : Value) : Texts :=
  ⟨String.ofList (v.jsonChars w w.compact 0), String.ofList (v.jsonChars w w.pretty 0)⟩

end Value

end Hcl
