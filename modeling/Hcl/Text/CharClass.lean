import Hcl.Text.Alphabetic
import Hcl.Text.Numeric
import Hcl.Text.ExtendingMark
import Hcl.Text.Unprintable

/-!
# Character classes

Identifiers, heredoc trimming and the quoted form of a text depend on Unicode properties. ASCII is
answered by the classes of `Char`; the tables hold the rest.
-/

namespace Hcl.Text

/-- Whether `c` lies in one of the inclusive ranges of `table`. -/
def inRanges (table : List (Nat × Nat)) (c : Char) : Bool :=
  table.any fun (first, last) => first ≤ c.toNat && c.toNat ≤ last

/-- The Unicode property Alphabetic. -/
def isAlphabetic (c : Char) : Bool :=
  if c.toNat < 0x80 then c.isAlpha else inRanges alphabeticRanges c

/-- The Unicode general categories Nd, Nl and No. -/
def isNumeric (c : Char) : Bool :=
  if c.toNat < 0x80 then c.isDigit else inRanges numericRanges c

/-- The code points of the Unicode property White_Space. -/
def whiteSpaceRanges : List (Nat × Nat) :=
  [(0x9, 0xd), (0x20, 0x20), (0x85, 0x85), (0xa0, 0xa0), (0x1680, 0x1680), (0x2000, 0x200a),
   (0x2028, 0x2029), (0x202f, 0x202f), (0x205f, 0x205f), (0x3000, 0x3000)]

/-- The Unicode property White_Space. -/
def isWhiteSpace (c : Char) : Bool := inRanges whiteSpaceRanges c

/-- Whether `c` is a mark that is drawn as part of the character before it. -/
def isExtendingMark (c : Char) : Bool :=
  if c.toNat < 0x80 then false else inRanges extendingMarkRanges c

/-- Whether `c` leaves a visible mark, the space included. -/
def isPrintable (c : Char) : Bool :=
  if c.toNat < 0x80 then 0x20 ≤ c.toNat && c.toNat < 0x7f else !inRanges unprintableRanges c

/-! ## Identifiers -/

/-- An identifier starts with a letter or `_`. -/
def isIdentStart (c : Char) : Bool := isAlphabetic c || c == '_'

/-- An identifier goes on with letters, numerals, `_` and `-`. -/
def isIdentContinue (c : Char) : Bool := isAlphabetic c || isNumeric c || c == '_' || c == '-'

theorem isIdentContinue_of_isIdentStart {c : Char} (h : isIdentStart c = true) :
    isIdentContinue c = true := by
  simp only [isIdentStart, Bool.or_eq_true] at h
  rcases h with h | h <;> simp [isIdentContinue, h]

/-! ## Trimming -/

/-- The text without the characters of White_Space it starts with. -/
def trimStart (cs : List Char) : List Char := cs.dropWhile isWhiteSpace

/-- Whether nothing but White_Space is in the text. -/
def isBlank (cs : List Char) : Bool := cs.all isWhiteSpace

end Hcl.Text
