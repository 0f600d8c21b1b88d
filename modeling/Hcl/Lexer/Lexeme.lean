import Hcl.Lexer.Basic

/-!
# Lexemes without structure

Numerals, words and fixed tokens are found at the front of a text alone. Each function returns the
characters of the longest lexeme, or how many they are.
-/

namespace Hcl.Lexeme

/-! ## Numerals -/

/-- The decimal digits `cs` begins with. -/
def digits (cs : List Char) : List Char := cs.takeWhile Char.isDigit

def sign : List Char → List Char
  | '-' :: _ => ['-']
  | '+' :: _ => ['+']
  | _ => []

/-- A point and the digits behind it, at the front of `cs`. -/
def fraction : List Char → List Char
  | '.' :: cs => if (digits cs).isEmpty then [] else '.' :: digits cs
  | _ => []

/-- `e` or `E`, a sign if there is one, and the digits behind it, at the front of `cs`. -/
def exponent : List Char → List Char
  | e :: cs =>
    let power := digits (cs.drop (sign cs).length)
    if (e == 'e' || e == 'E') && !power.isEmpty then e :: (sign cs ++ power) else []
  | [] => []

/-- The numeral `cs` begins with: a sign, digits, a fraction and an exponent, of which only the
digits must be there. -/
def numeral (cs : List Char) : List Char :=
  let sign := sign cs
  let whole := digits (cs.drop sign.length)
  let fraction := fraction (cs.drop (sign.length + whole.length))
  let exponent := exponent (cs.drop (sign.length + whole.length + fraction.length))
  sign ++ whole ++ fraction ++ exponent

/-- Whether a numeral begins here. A sign belongs to a numeral only where an operand may begin. -/
def numeralAhead (signAllowed : Bool) : List Char → Bool
  | c :: cs =>
    c.isDigit || (signAllowed && (c == '-' || c == '+') && (cs.head?.any Char.isDigit))
  | [] => false

/-! ## Words -/

/-- The characters of an identifier at the front of `cs`. -/
def word (cs : List Char) : List Char := cs.takeWhile Text.isIdentContinue

/-- Three words are not identifiers. -/
def wordKind (word : List Char) : TokenKind :=
  if word = ['t', 'r', 'u', 'e'] ∨ word = ['f', 'a', 'l', 's', 'e'] then .bool
  else if word = ['n', 'u', 'l', 'l'] then .null
  else .ident

/-! ## Fixed tokens -/

/-- The kind and the length of the longest fixed token `cs` begins with. -/
def fixed? : List Char → Option (TokenKind × Nat)
  | '\n' :: _ => some (.newline, 1)
  | '{' :: _ => some (.lBrace, 1)
  | '}' :: _ => some (.rBrace, 1)
  | '[' :: _ => some (.lBracket, 1)
  | ']' :: _ => some (.rBracket, 1)
  | '(' :: _ => some (.lParen, 1)
  | ')' :: _ => some (.rParen, 1)
  | ',' :: _ => some (.comma, 1)
  | ':' :: _ => some (.colon, 1)
  | '?' :: _ => some (.question, 1)
  | '.' :: '.' :: '.' :: _ => some (.ellipsis, 3)
  | '.' :: _ => some (.dot, 1)
  | '=' :: '=' :: _ => some (.operator, 2)
  | '=' :: '>' :: _ => some (.arrow, 2)
  | '=' :: _ => some (.equals, 1)
  | '!' :: '=' :: _ => some (.operator, 2)
  | '<' :: '=' :: _ => some (.operator, 2)
  | '>' :: '=' :: _ => some (.operator, 2)
  | '&' :: '&' :: _ => some (.operator, 2)
  | '|' :: '|' :: _ => some (.operator, 2)
  | '!' :: _ => some (.operator, 1)
  | '<' :: _ => some (.operator, 1)
  | '>' :: _ => some (.operator, 1)
  | '+' :: _ => some (.operator, 1)
  | '-' :: _ => some (.operator, 1)
  | '*' :: _ => some (.operator, 1)
  | '/' :: _ => some (.operator, 1)
  | '%' :: _ => some (.operator, 1)
  | _ => none

/-! ## A lexeme is not empty -/

theorem length_numeral_pos {signAllowed : Bool} {cs : List Char}
    (h : numeralAhead signAllowed cs = true) : 0 < (numeral cs).length := by
  cases cs with
  | nil => simp [numeralAhead] at h
  | cons c cs =>
    by_cases hc : c.isDigit = true
    · have hs : sign (c :: cs) = [] := by
        unfold sign
        split <;> simp_all
      simp [numeral, hs, digits, hc]
    · simp only [numeralAhead, hc, Bool.false_or, Bool.and_eq_true, Bool.or_eq_true,
        beq_iff_eq] at h
      rcases h.1.2 with rfl | rfl <;> simp [numeral, sign]

theorem length_word_pos {c : Char} {cs : List Char} (h : Text.isIdentStart c = true) :
    0 < (word (c :: cs)).length := by
  simp [word, Text.isIdentContinue_of_isIdentStart h]

theorem length_pos_of_fixed? {cs : List Char} {kind : TokenKind} {n : Nat}
    (h : fixed? cs = some (kind, n)) : 0 < n := by
  unfold fixed? at h
  split at h <;> simp at h <;> omega

end Hcl.Lexeme
