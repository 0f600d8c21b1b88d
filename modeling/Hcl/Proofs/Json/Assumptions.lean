import Hcl.Json.Writer
import Hcl.Proofs.Json.Reader
import Hcl.Proofs.Lexer.Greedy

/-!
# What is assumed of a writer

The library that writes JSON is not part of the program. Known of it is how strings are escaped,
that the numeral of a finite number is a number of JSON, and where brackets, commas and colons are
put; the blanks around these are its own affair.
-/

namespace Hcl.Json

open Lexeme (IsDigits IsFraction IsExponent)

/-! ## Numbers -/

/-- Digits, without a zero in front of others, a fraction or none and an exponent or none. -/
inductive IsMagnitude : List Char → Prop where
  | mk {ds f e : List Char} : IsDigits ds → (ds.head? = some '0' → ds = ['0']) → IsFraction f →
      IsExponent e → IsMagnitude (ds ++ (f ++ e))

inductive IsNumber : List Char → Prop where
  | positive {cs : List Char} : IsMagnitude cs → IsNumber cs
  | negative {cs : List Char} : IsMagnitude cs → IsNumber ('-' :: cs)

/-! ## Strings -/

/-- The characters that have an escape of one letter, each with its letter. -/
def letters : List (Char × Char) :=
  [('"', '"'), ('\\', '\\'), ('\x08', 'b'), ('\x0c', 'f'), ('\n', 'n'), ('\r', 'r'), ('\t', 't')]

/-- How a character is written in a string. -/
inductive IsEscaped : Char → List Char → Prop where
  | self {c : Char} : c ≠ '"' → c ≠ '\\' → ¬c.toNat < 0x20 → IsEscaped c [c]
  | letter {c d : Char} : (c, d) ∈ letters → IsEscaped c ['\\', d]
  | control {c : Char} : c.toNat < 0x20 → IsEscaped c
      ['\\', 'u', '0', '0', Nat.digitChar (c.toNat / 16), Nat.digitChar (c.toNat % 16)]

/-- Character by character. -/
inductive AreEscaped : List Char → List Char → Prop where
  | nil : AreEscaped [] []
  | cons {c : Char} {cs text more : List Char} : IsEscaped c text → AreEscaped cs more →
      AreEscaped (c :: cs) (text ++ more)

/-! ## Containers -/

def IsBlanks (cs : List Char) : Prop := ∀ c ∈ cs, isBlank c = true

/-- The character `mark` with blanks around it. -/
def IsSpaced (mark : Char) (cs : List Char) : Prop :=
  ∃ before behind, IsBlanks before ∧ IsBlanks behind ∧ cs = before ++ mark :: behind

/-- The parts are in brackets, with commas between them. -/
structure Enclosure.Separates (e : Enclosure) (opening closing : Char) : Prop where
  opening : ∀ depth, IsSpaced opening (e.opening depth)
  first : ∀ depth, IsBlanks (e.before depth true)
  comma : ∀ depth, IsSpaced ',' (e.before depth false)
  behind : ∀ depth, IsBlanks (e.behind depth)
  closing : ∀ depth isEmpty, IsSpaced closing (e.closing depth isEmpty)

structure Formatter.Separates (f : Formatter) : Prop where
  array : f.array.Separates '[' ']'
  object : f.object.Separates '{' '}'
  colon : ∀ depth, IsSpaced ':' (f.colon depth)

structure Writer.Assumptions (w : Writer) : Prop where
  null : w.null = "null".toList
  bool : ∀ b, w.bool b = (if b then "true" else "false").toList
  finite : ∀ x, x.isFinite = true → IsNumber (w.number x)
  notFinite : ∀ x, x.isFinite = false → w.number x = "null".toList
  string : ∀ s, ∃ escaped, AreEscaped s.toList escaped ∧ w.string s = '"' :: escaped ++ ['"']
  compact : w.compact.Separates
  pretty : w.pretty.Separates

end Hcl.Json
