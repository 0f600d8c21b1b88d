import Hcl.Token

/-!
# The lexer and its modes

A lexer is the text it has not read yet, the position of that text in the whole source, and two
memories: the modes it has entered, and the kind of the last token, on which the reading of a sign
depends. A scan returns a lexer also when it fails, so scanning can go on behind an error.
-/

namespace Hcl

/-- How many template sequences may be open inside each other. -/
def maxTemplateDepth : Nat := 32

/-- What the characters that come next belong to. -/
inductive Mode where
  | default
  | string
  | heredoc
  | blockComment
  | interpolation
deriving DecidableEq, Repr

def Mode.describe : Mode → String
  | default => "expression"
  | string => "string literal"
  | heredoc => "heredoc"
  | blockComment => "block comment"
  | interpolation => "template interpolation"

/-! ## Errors -/

inductive LexicalFault where
  /-- the text ends, or the line of a string does, before the construct is closed -/
  | unterminated (mode : Mode)
  | invalidEscape (sequence : String)
  | unexpectedChar (c : Char)
  | invalidHeredocMarker
  /-- more than `maxTemplateDepth` template sequences inside each other -/
  | templatesTooDeep
deriving DecidableEq, Repr

def LexicalFault.message : LexicalFault → String
  | unterminated mode => "unterminated " ++ mode.describe
  | invalidEscape sequence => "invalid escape sequence `" ++ sequence ++ "`"
  | unexpectedChar c => "unexpected character `" ++ c.toString ++ "`"
  | invalidHeredocMarker => "heredoc marker must be an identifier followed by a newline"
  | templatesTooDeep => s!"template sequences nested deeper than {maxTemplateDepth} levels"

structure LexicalError where
  fault : LexicalFault
  position : Position
deriving DecidableEq, Repr

/-! ## States -/

structure Lexer where
  /-- the text that is not read yet -/
  rest : List Char
  /-- where `rest` begins -/
  position : Position
  /-- the modes entered and not left, innermost first; below them lies `Mode.default` -/
  entered : List Mode
  /-- the kind of the last token -/
  last : Option TokenKind
deriving DecidableEq, Repr

namespace Lexer

def ofString (source : String) : Lexer := ⟨source.toList, .start, [], none⟩

/-- All modes, innermost first. -/
def modes (lx : Lexer) : List Mode := lx.entered ++ [.default]

def mode (lx : Lexer) : Mode := lx.entered.headD .default

def enter (mode : Mode) (lx : Lexer) : Lexer := { lx with entered := mode :: lx.entered }

def leave (lx : Lexer) : Lexer := { lx with entered := lx.entered.tail }

def consume (n : Nat) (lx : Lexer) : Lexer :=
  { lx with rest := lx.rest.drop n, position := lx.position.after (lx.rest.take n) }

/-- The span from `start` to where the lexer stands. -/
def spanFrom (start : Position) (lx : Lexer) : Span :=
  ⟨start, lx.position.offset - start.offset⟩

/-- The text read between `lx` and the later `next`. -/
def textUntil (lx next : Lexer) : List Char :=
  (takeBytes? (next.position.offset - lx.position.offset) lx.rest).getD []

/-- How many more template sequences may be opened. -/
def templatesLeft (lx : Lexer) : Nat := maxTemplateDepth - lx.entered.count .interpolation

/-- The construct that begins at `start` and belongs to the innermost mode is not closed. -/
def unterminated (start : Position) (lx : Lexer) : LexicalError := ⟨.unterminated lx.mode, start⟩

@[simp] theorem enter_rest (mode : Mode) (lx : Lexer) : (lx.enter mode).rest = lx.rest := rfl
@[simp] theorem leave_rest (lx : Lexer) : lx.leave.rest = lx.rest := rfl
@[simp] theorem consume_rest (n : Nat) (lx : Lexer) : (lx.consume n).rest = lx.rest.drop n := rfl
@[simp] theorem leave_enter (mode : Mode) (lx : Lexer) : (lx.enter mode).leave = lx := rfl
@[simp] theorem mode_enter (mode : Mode) (lx : Lexer) : (lx.enter mode).mode = mode := rfl

end Lexer

/-- The outcome of a scan, with the lexer as it stands afterwards. -/
inductive Scan (α : Type) where
  | ok (value : α) (after : Lexer)
  | error (cause : LexicalError) (after : Lexer)
deriving Repr

/-- The lexer behind a scan, whatever its outcome. -/
def Scan.after {α : Type} : Scan α → Lexer
  | ok _ lx => lx
  | error _ lx => lx

/-- Completes the token `kind` that begins at `start` and ends where `lx` stands. -/
def Lexer.finish (kind : TokenKind) (text : String) (start : Position) (lx : Lexer) : Scan Token :=
  .ok ⟨kind, text, lx.spanFrom start⟩ { lx with last := some kind }

end Hcl
