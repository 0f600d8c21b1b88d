import Hcl.Binary64.Decimal
import Hcl.Lexer.Piece

/-!
# Strings in YAML

A string is written plain if it reads back as the same string. Otherwise it is quoted, or written
as a literal block if it has several lines. Which styles are possible depends on the characters of
the string and on where its blanks and line breaks are.
-/

namespace Hcl.Yaml

/-! ## Character classes -/

def isBreak (c : Char) : Bool :=
  c == '\n' || c == '\r' || c == '\u0085' || c == '\u2028' || c == '\u2029'

def isBlankOrBreak (c : Char) : Bool := c == ' ' || c == '\t' || isBreak c

/-- Whether a character may stand for itself: everything but controls, the tab included, the byte
order mark and the last two codes of the basic plane, which are no characters. -/
def isPrintable (c : Char) : Bool :=
  let n := c.toNat
  c == '\n' || (0x20 ≤ n && n ≤ 0x7e) || (0xa0 ≤ n && n != 0xfeff && n != 0xfffe && n != 0xffff)

/-- Characters that have a meaning at the beginning of a scalar. -/
def isIndicator (c : Char) : Bool := "#,[]{}&*!|>'\"%@`".toList.contains c

/-! ## What a plain scalar reads back as -/

def isNullWord (s : String) : Bool := ["", "null", "Null", "NULL", "~"].contains s

def isBoolWord (s : String) : Bool :=
  ["true", "True", "TRUE", "false", "False", "FALSE"].contains s

/-- Infinities, with a sign or without, and what is not a number. -/
def isSpecialNumber (s : String) : Bool :=
  [".inf", ".Inf", ".INF", "+.inf", "+.Inf", "+.INF", "-.inf", "-.Inf", "-.INF", ".nan", ".NaN",
    ".NAN"].contains s

/-- The value of digits of the base 2, 8 or 16, if there are any. -/
def radixValue? (base : Nat) (digits : List Char) : Option Nat :=
  if digits.isEmpty then none
  else
    (digits.mapM fun c => (Piece.hexValue? [c]).filter (· < base)).map
      (·.foldl (fun n d => base * n + d) 0)

/-- Whether the text is a whole number of the base 2, 8 or 16 that has at most 128 bits. -/
def isRadixInteger (cs : List Char) : Bool :=
  let negative := cs.head? == some '-'
  let digits := if negative || cs.head? == some '+' then cs.drop 1 else cs
  let value? :=
    match digits with
    | '0' :: 'x' :: digits => radixValue? 16 digits
    | '0' :: 'o' :: digits => radixValue? 8 digits
    | '0' :: 'b' :: digits => radixValue? 2 digits
    | _ => none
  value?.any fun n => if negative then n ≤ 0x80000000000000000000000000000000
    else n ≤ 0xffffffffffffffffffffffffffffffff

/-- Whether the text is a zero and more digits, which is a number to some readers only. -/
def isZeroPadded (cs : List Char) : Bool :=
  let digits := if cs.head? == some '-' || cs.head? == some '+' then cs.drop 1 else cs
  match digits with
  | '0' :: d :: ds => (d :: ds).all Char.isDigit
  | _ => false

/-- Whether the text is a decimal number within the range of the format. -/
def isDecimal (s : String) : Bool :=
  let s := if s.startsWith "+" && !s.startsWith "++" && !s.startsWith "+-" then
      String.ofList (s.toList.drop 1) else s
  match Binary64.parse s with
  | .ok x => x.isFinite
  | .error _ => false

/-- Whether the text would not be read back as a string. -/
def readsAsOther (s : String) : Bool :=
  isNullWord s || isBoolWord s || isSpecialNumber s || isRadixInteger s.toList ||
    isZeroPadded s.toList || isDecimal s

/-! ## Possible styles -/

/-- Whether a space stands right before a line break. -/
def hasSpaceBreak (cs : List Char) : Bool :=
  (cs.zip (cs.drop 1)).any fun (c, d) => c == ' ' && isBreak d

/-- Whether a space stands right behind a line break. -/
def hasBreakSpace (cs : List Char) : Bool :=
  (cs.zip (cs.drop 1)).any fun (c, d) => isBreak c && d == ' '

/-- Whether the next character is a blank, a line break or the end. -/
def blankFollows (cs : List Char) : Bool := cs.head?.all isBlankOrBreak

/-- Whether the scalar begins like something else. -/
def startsWithIndicator (cs : List Char) : Bool :=
  cs.take 3 == ['-', '-', '-'] || cs.take 3 == ['.', '.', '.'] ||
    match cs with
    | [] => false
    | c :: cs =>
      isIndicator c || ((c == '?' || c == ':' || c == '-') && blankFollows cs)

/-- Whether there is a colon before a blank or the end, or a hash behind a blank. `previous` is the
character before `cs`. -/
def hasInnerIndicator (previous : Char) : List Char → Bool
  | [] => false
  | c :: cs =>
    (c == ':' && blankFollows cs) || (c == '#' && isBlankOrBreak previous) ||
      hasInnerIndicator c cs

def isPlainAllowed (cs : List Char) : Bool :=
  match cs with
  | [] => true
  | c :: more =>
    cs.all (fun c => isPrintable c && !isBreak c) && c != ' ' && cs.getLast? != some ' ' &&
      !startsWithIndicator cs && !hasInnerIndicator c more

def isSingleQuotedAllowed (cs : List Char) : Bool :=
  cs.all isPrintable && !hasSpaceBreak cs && !hasBreakSpace cs

def isLiteralAllowed (cs : List Char) : Bool :=
  cs.all isPrintable && !hasSpaceBreak cs && cs.getLast? != some ' '

/-! ## Writing -/

def singleQuoted (cs : List Char) : List Char :=
  '\'' :: cs.flatMap (fun c => if c = '\'' then ['\'', '\''] else [c]) ++ ['\'']

/-- `n` in `width` digits of base 16, upper case. -/
def hexText (width n : Nat) : List Char :=
  let digits := (Nat.toDigits 16 n).map Char.toUpper
  List.replicate (width - digits.length) '0' ++ digits

/-- How a character is written in double quotes. -/
def doubleQuotedChar (c : Char) : List Char :=
  match c with
  | '\x00' => ['\\', '0']
  | '\x07' => ['\\', 'a']
  | '\x08' => ['\\', 'b']
  | '\t' => ['\\', 't']
  | '\n' => ['\\', 'n']
  | '\x0b' => ['\\', 'v']
  | '\x0c' => ['\\', 'f']
  | '\r' => ['\\', 'r']
  | '\x1b' => ['\\', 'e']
  | '"' => ['\\', '"']
  | '\\' => ['\\', '\\']
  | '\u0085' => ['\\', 'N']
  | '\u2028' => ['\\', 'L']
  | '\u2029' => ['\\', 'P']
  | c =>
    if isPrintable c then [c]
    else if c.toNat ≤ 0xff then '\\' :: 'x' :: hexText 2 c.toNat
    else if c.toNat ≤ 0xffff then '\\' :: 'u' :: hexText 4 c.toNat
    else '\\' :: 'U' :: hexText 8 c.toNat

def doubleQuoted (cs : List Char) : List Char :=
  '"' :: cs.flatMap doubleQuotedChar ++ ['"']

/-- The first line of a literal block: the indentation if the text begins with a space or line
break, and what becomes of the line breaks at the end. -/
def literalHeader (cs : List Char) : List Char :=
  let indent := if cs.head?.any fun c => c == ' ' || isBreak c then ['2'] else []
  let chomp :=
    match cs.reverse with
    | [] => ['-']
    | [c] => if isBreak c then ['+'] else ['-']
    | c :: d :: _ => if !isBreak c then ['-'] else if isBreak d then ['+'] else []
  '|' :: indent ++ chomp

/-- A line and the line break at its end. -/
structure Line where
  text : List Char
  lineBreak : Char
deriving DecidableEq, Repr

def Line.ofText (text : List Char) : Line := ⟨text, '\n'⟩

/-- The lines of a text, each with its own line break. A line break at the end begins no new
line. -/
def textLines : List Char → List Line
  | [] => []
  | c :: cs =>
    if isBreak c then ⟨[], c⟩ :: textLines cs
    else
      match textLines cs with
      | [] => [.ofText [c]]
      | line :: more => ⟨c :: line.text, line.lineBreak⟩ :: more

/-- The lines in which a string is written. The lines of a literal block follow its header. -/
def stringLines (s : String) : List Line :=
  let cs := s.toList
  if cs.contains '\n' then
    if isLiteralAllowed cs then .ofText (literalHeader cs) :: textLines cs
    else [.ofText (doubleQuoted cs)]
  else if !readsAsOther s && isPlainAllowed cs then [.ofText cs]
  else if isSingleQuotedAllowed cs then textLines (singleQuoted cs)
  else [.ofText (doubleQuoted cs)]

end Hcl.Yaml
