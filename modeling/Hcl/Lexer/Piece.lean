import Hcl.Lexer.Basic

/-!
# Pieces of a literal

A quoted literal is read piece by piece. A piece is a character, an escape sequence, a doubled
template marker that stands for the marker itself, or the opening of a template sequence.
-/

namespace Hcl

inductive Piece where
  /-- `length` characters that stand for `text` -/
  | text (text : List Char) (length : Nat)
  /-- the opening of a template sequence -/
  | template
  /-- the closing quote -/
  | quote
  /-- a backslash and what follows it, which is no escape sequence -/
  | invalid (sequence : List Char)
  /-- a backslash with nothing behind it -/
  | loneBackslash
  /-- the end of the line or of the text -/
  | lineEnd
deriving DecidableEq, Repr

namespace Piece

/-- The value of hexadecimal digits, if all characters are. -/
def hexValue? (cs : List Char) : Option Nat :=
  cs.foldl
    (fun value c =>
      value.bind fun n =>
        if c.isDigit then some (16 * n + (c.toNat - '0'.toNat))
        else if 'a' ≤ c ∧ c ≤ 'f' then some (16 * n + (c.toNat - 'a'.toNat + 10))
        else if 'A' ≤ c ∧ c ≤ 'F' then some (16 * n + (c.toNat - 'A'.toNat + 10))
        else none)
    (some 0)

/-- The character of the code point `n`, if it is one. -/
def charOfCode? (n : Nat) : Option Char := if n.isValidChar then some (Char.ofNat n) else none

/-- A code point in exactly `count` hexadecimal digits, behind a backslash and `marker`. -/
def codePoint (marker : Char) (count : Nat) (cs : List Char) : Piece :=
  let hex := cs.take count
  match (if hex.length = count then hexValue? hex else none).bind charOfCode? with
  | some c => .text [c] (2 + count)
  | none => .invalid ('\\' :: marker :: hex)

/-- An escape sequence; `cs` is what follows the backslash. -/
def escape : List Char → Piece
  | [] => .loneBackslash
  | 'n' :: _ => .text ['\n'] 2
  | 'r' :: _ => .text ['\r'] 2
  | 't' :: _ => .text ['\t'] 2
  | '"' :: _ => .text ['"'] 2
  | '\\' :: _ => .text ['\\'] 2
  | 'u' :: cs => codePoint 'u' 4 cs
  | 'U' :: cs => codePoint 'U' 8 cs
  | c :: _ => .invalid ['\\', c]

/-- A `$` or `%`; `cs` is what follows it. Doubled before a brace it stands for one, and alone
before a brace it opens a template sequence. -/
def marker (c : Char) (cs : List Char) : Piece :=
  if cs.take 2 = [c, '{'] then .text [c, '{'] 3
  else if cs.head? = some '{' then .template
  else .text [c] 1

/-- The first piece of a quoted literal. -/
def ofQuoted : List Char → Piece
  | [] => .lineEnd
  | c :: cs =>
    if c = '\n' then .lineEnd
    else if c = '"' then .quote
    else if c = '\\' then escape cs
    else if c = '$' ∨ c = '%' then marker c cs
    else .text [c] 1

/-- The first piece of a heredoc line. A carriage return before the line break stands for nothing,
and a heredoc knows no escape sequences. -/
def ofHeredoc : List Char → Piece
  | [] => .lineEnd
  | c :: cs =>
    if c = '\r' ∧ cs.head? = some '\n' then .text [] 1
    else if c = '$' ∨ c = '%' then marker c cs
    else .text [c] 1

/-! ## A piece is not empty -/

theorem length_pos_of_marker {c : Char} {cs text : List Char} {n : Nat}
    (h : marker c cs = .text text n) : 0 < n := by
  unfold marker at h
  split at h
  · simp_all; omega
  · split at h
    · simp at h
    · simp_all; omega

theorem length_pos_of_codePoint {c : Char} {count : Nat} {cs text : List Char} {n : Nat}
    (h : codePoint c count cs = .text text n) : 0 < n := by
  simp only [codePoint] at h
  split at h <;> simp at h
  omega

theorem length_pos_of_escape {cs text : List Char} {n : Nat} (h : escape cs = .text text n) :
    0 < n := by
  unfold escape at h
  split at h
  case h_7 | h_8 => exact length_pos_of_codePoint h
  all_goals simp at h
  all_goals omega

theorem length_pos_of_ofQuoted {cs text : List Char} {n : Nat} (h : ofQuoted cs = .text text n) :
    0 < n ∧ cs ≠ [] := by
  cases cs with
  | nil => simp [ofQuoted] at h
  | cons c cs =>
    refine ⟨?_, by simp⟩
    simp only [ofQuoted] at h
    split at h
    · simp at h
    split at h
    · simp at h
    split at h
    · exact length_pos_of_escape h
    split at h
    · exact length_pos_of_marker h
    · simp at h; omega

theorem ne_nil_of_ofQuoted_eq_quote {cs : List Char} (h : ofQuoted cs = .quote) : cs ≠ [] := by
  rintro rfl
  simp [ofQuoted] at h

theorem length_pos_of_ofHeredoc {cs text : List Char} {n : Nat} (h : ofHeredoc cs = .text text n) :
    0 < n ∧ cs ≠ [] := by
  cases cs with
  | nil => simp [ofHeredoc] at h
  | cons c cs =>
    refine ⟨?_, by simp⟩
    simp only [ofHeredoc] at h
    split at h
    · simp at h; omega
    split at h
    · exact length_pos_of_marker h
    · simp at h; omega

end Piece

end Hcl
