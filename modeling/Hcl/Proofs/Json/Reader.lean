import Hcl.Lexer.Lexeme
import Hcl.Lexer.Piece

/-!
# Reading JSON

A reader of JSON that takes nothing else: blanks between the parts of a text, strings with all
escapes, numbers without a plus or a leading zero, and commas only between elements and entries. It
splits a text into its parts, and then reads the parts from left to right with a stack of the
containers around them. Elements and entries are kept in order, and numbers as numerals.
-/

namespace Hcl

/-- What a text of JSON says. -/
inductive Json where
  | null
  | bool (b : Bool)
  | number (numeral : String)
  | string (s : String)
  | array (elements : List Json)
  | object (entries : List (String × Json))

namespace Json

/-! ## Strings -/

/-- Reads the four hexadecimal digits of a code unit. -/
def codeUnit? (cs : List Char) : Option (Nat × List Char) :=
  if 4 ≤ cs.length then (Piece.hexValue? (cs.take 4)).map fun unit => (unit, cs.drop 4) else none

/-- Whether two code units stand for one character, and this is the first of them. -/
def IsHigh (unit : Nat) : Prop := 0xd800 ≤ unit ∧ unit ≤ 0xdbff

/-- Whether two code units stand for one character, and this is the second of them. -/
def IsLow (unit : Nat) : Prop := 0xdc00 ≤ unit ∧ unit ≤ 0xdfff

instance (unit : Nat) : Decidable (IsHigh unit) := inferInstanceAs (Decidable (_ ∧ _))

instance (unit : Nat) : Decidable (IsLow unit) := inferInstanceAs (Decidable (_ ∧ _))

/-- The character that two code units stand for. -/
def ofPair (high low : Nat) : Char :=
  Char.ofNat (0x10000 + (high - 0xd800) * 0x400 + (low - 0xdc00))

/-- Reads the second code unit of a character, with what it begins with. -/
def lowUnit? (high : Nat) : List Char → Option (Char × List Char)
  | '\\' :: 'u' :: cs =>
    match codeUnit? cs with
    | some (low, rest) => if IsLow low then some (ofPair high low, rest) else none
    | none => none
  | _ => none

/-- Reads the code units of a character, behind what they begin with. -/
def codeUnits? (cs : List Char) : Option (Char × List Char) :=
  match codeUnit? cs with
  | some (unit, rest) =>
    if IsHigh unit then lowUnit? unit rest
    else if IsLow unit then none
    else some (Char.ofNat unit, rest)
  | none => none

/-- The character that a backslash and one other character stand for. -/
def simpleEscape? : Char → Option Char
  | '"' => some '"'
  | '\\' => some '\\'
  | '/' => some '/'
  | 'b' => some '\x08'
  | 'f' => some '\x0c'
  | 'n' => some '\n'
  | 'r' => some '\r'
  | 't' => some '\t'
  | _ => none

/-- Reads an escape behind its backslash. -/
def escape? : List Char → Option (Char × List Char)
  | [] => none
  | c :: cs => if c = 'u' then codeUnits? cs else (simpleEscape? c).map fun d => (d, cs)

section Shorter

variable {cs rest : List Char} {c : Char} {high unit : Nat}

theorem length_codeUnit?_lt (h : codeUnit? cs = some (unit, rest)) : rest.length < cs.length := by
  rw [codeUnit?] at h
  split at h
  · obtain ⟨n, -, hn⟩ := Option.map_eq_some_iff.mp h
    obtain ⟨-, rfl⟩ := Prod.mk.inj hn
    rw [List.length_drop]
    omega
  · cases h

theorem length_lowUnit?_lt (h : lowUnit? high cs = some (c, rest)) : rest.length < cs.length := by
  unfold lowUnit? at h
  split at h
  · split at h
    · rename_i hunit
      have hlt := length_codeUnit?_lt hunit
      rw [Option.ite_none_right_eq_some, Option.some.injEq, Prod.mk.injEq] at h
      obtain ⟨-, -, rfl⟩ := h
      simp only [List.length_cons]
      omega
    · cases h
  · cases h

theorem length_codeUnits?_lt (h : codeUnits? cs = some (c, rest)) : rest.length < cs.length := by
  rw [codeUnits?] at h
  split at h
  · rename_i hunit
    have hlt := length_codeUnit?_lt hunit
    split at h
    · exact Nat.lt_trans (length_lowUnit?_lt h) hlt
    · rw [Option.ite_none_left_eq_some, Option.some.injEq, Prod.mk.injEq] at h
      obtain ⟨-, -, rfl⟩ := h
      exact hlt
  · cases h

theorem length_escape?_lt (h : escape? cs = some (c, rest)) : rest.length < cs.length := by
  cases cs with
  | nil => cases h
  | cons d cs =>
    rw [escape?] at h
    rw [List.length_cons]
    split at h
    · exact Nat.lt_succ_of_lt (length_codeUnits?_lt h)
    · obtain ⟨e, -, he⟩ := Option.map_eq_some_iff.mp h
      obtain ⟨-, rfl⟩ := Prod.mk.inj he
      exact Nat.lt_succ_self _

end Shorter

/-- Reads a string behind its opening quote, up to and including the closing one. `decoded` holds
in reverse what was read. -/
def string? (decoded : List Char) (cs : List Char) : Option (List Char × List Char) :=
  match cs with
  | [] => none
  | c :: cs =>
    if c = '"' then some (decoded.reverse, cs)
    else if c = '\\' then
      match _ : escape? cs with
      | some (d, rest) => string? (d :: decoded) rest
      | none => none
    else if c.toNat < 0x20 then none
    else string? (c :: decoded) cs
termination_by cs.length
decreasing_by
  · rename_i h
    exact Nat.lt_succ_of_lt (length_escape?_lt h)
  · exact Nat.lt_succ_self _

theorem length_string?_lt {decoded cs text rest : List Char}
    (h : string? decoded cs = some (text, rest)) : rest.length < cs.length := by
  fun_induction string? decoded cs with
  | case2 decoded cs =>
    cases h
    exact Nat.lt_succ_self _
  | case3 decoded cs d rest' hescape _ ih =>
    exact Nat.lt_succ_of_lt (Nat.lt_trans (ih h) (length_escape?_lt hescape))
  | case6 decoded c cs _ _ _ ih => exact Nat.lt_succ_of_lt (ih h)
  | _ => cases h

/-! ## The parts of a text -/

/-- What a text is made of, blanks apart. -/
inductive Part where
  | openArray
  | closeArray
  | openObject
  | closeObject
  | comma
  | colon
  | string (s : String)
  /-- null, a boolean or a number -/
  | scalar (j : Json)

def isBlank (c : Char) : Bool := c == ' ' || c == '\t' || c == '\n' || c == '\r'

def mark? : Char → Option Part
  | '[' => some .openArray
  | ']' => some .closeArray
  | '{' => some .openObject
  | '}' => some .closeObject
  | ',' => some .comma
  | ':' => some .colon
  | _ => none

/-- What scalars are written with. -/
def isScalarChar (c : Char) : Bool := c.isAlphanum || c == '-' || c == '+' || c == '.'

/-- A number is a numeral without a plus, and without a zero in front of other digits. -/
def isNumber (cs : List Char) : Bool :=
  let whole := Lexeme.digits (cs.drop (Lexeme.sign cs).length)
  Lexeme.sign cs != ['+'] && !whole.isEmpty && (whole.head? != some '0' || whole == ['0']) &&
    Lexeme.numeral cs == cs

def scalar? (cs : List Char) : Option Json :=
  if cs = "null".toList then some .null
  else if cs = "true".toList then some (.bool true)
  else if cs = "false".toList then some (.bool false)
  else if isNumber cs then some (.number (String.ofList cs))
  else none

/-- Splits a text into its parts. -/
def parts? (cs : List Char) : Option (List Part) :=
  match cs with
  | [] => some []
  | c :: cs =>
    if isBlank c then parts? cs
    else if c = '"' then
      match _ : string? [] cs with
      | some (text, rest) => (parts? rest).map (.string (String.ofList text) :: ·)
      | none => none
    else
      match mark? c with
      | some part => (parts? cs).map (part :: ·)
      | none =>
        match scalar? (c :: cs.takeWhile isScalarChar) with
        | some j => (parts? (cs.dropWhile isScalarChar)).map (.scalar j :: ·)
        | none => none
termination_by cs.length
decreasing_by
  · exact Nat.lt_succ_self _
  · rename_i h
    exact Nat.lt_succ_of_lt (length_string?_lt h)
  · exact Nat.lt_succ_self _
  · exact Nat.lt_succ_of_le (List.dropWhile_suffix _).length_le

/-! ## Values -/

/-- A container that is not closed: what it has so far, last first, and in an object the key of the
value that is read. -/
inductive Frame where
  | array (before : List Json)
  | object (before : List (String × Json)) (key : String)

mutual
/-- Reads a value inside of the containers of the stack, and what is behind it. -/
def value? (stack : List Frame) : List Part → Option Json
  | .scalar j :: ps => after? j stack ps
  | .string s :: ps => after? (.string s) stack ps
  | .openArray :: .closeArray :: ps => after? (.array []) stack ps
  | .openArray :: ps => value? (.array [] :: stack) ps
  | .openObject :: .closeObject :: ps => after? (.object []) stack ps
  | .openObject :: .string key :: .colon :: ps => value? (.object [] key :: stack) ps
  | _ => none

/-- Reads what is behind the value `j`. -/
def after? (j : Json) : List Frame → List Part → Option Json
  | [], [] => some j
  | .array before :: stack, .comma :: ps => value? (.array (j :: before) :: stack) ps
  | .array before :: stack, .closeArray :: ps => after? (.array (j :: before).reverse) stack ps
  | .object before key :: stack, .comma :: .string next :: .colon :: ps =>
    value? (.object ((key, j) :: before) next :: stack) ps
  | .object before key :: stack, .closeObject :: ps =>
    after? (.object ((key, j) :: before).reverse) stack ps
  | _, _ => none
end

/-- Reads a text that is one value. -/
def read? (text : String) : Option Json := (parts? text.toList).bind (value? [])

end Json

end Hcl
