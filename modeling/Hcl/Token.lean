import Hcl.Span
import Hcl.Text.Quoted

/-!
# Tokens

What the parser reads: a kind, the text and the place it has in the source. Line breaks are tokens,
for they separate attributes, elements and entries.
-/

namespace Hcl

inductive TokenKind where
  /-- a bare name, which may contain `-` -/
  | ident
  /-- a quoted literal; its text is the decoded content -/
  | string
  /-- a heredoc; its text is the content lines -/
  | heredoc
  /-- a numeral with its sign, if it has one -/
  | number
  /-- `true` or `false` -/
  | bool
  | null
  | lBrace
  | rBrace
  | lBracket
  | rBracket
  | lParen
  | rParen
  | equals
  | colon
  | comma
  | dot
  | ellipsis
  | question
  /-- `=>` -/
  | arrow
  /-- arithmetic, comparison and logic -/
  | operator
  | newline
  | eof
deriving DecidableEq, Repr

namespace TokenKind

/-- The name of the kind in a listing of tokens. -/
def name : TokenKind → String
  | ident => "Ident"
  | string => "String"
  | heredoc => "Heredoc"
  | number => "Number"
  | bool => "Bool"
  | null => "Null"
  | lBrace => "LBrace"
  | rBrace => "RBrace"
  | lBracket => "LBracket"
  | rBracket => "RBracket"
  | lParen => "LParen"
  | rParen => "RParen"
  | equals => "Equals"
  | colon => "Colon"
  | comma => "Comma"
  | dot => "Dot"
  | ellipsis => "Ellipsis"
  | question => "Question"
  | arrow => "Arrow"
  | operator => "Operator"
  | newline => "Newline"
  | eof => "Eof"

/-- Whether an operand may end with a token of this kind. A `-` or `+` behind it is an operator,
not a sign. -/
def endsOperand : TokenKind → Bool
  | ident | string | heredoc | number | bool | null | rBrace | rBracket | rParen => true
  | _ => false

/-- `{`, `[` and `(`. -/
def opensBracket : TokenKind → Bool
  | lBrace | lBracket | lParen => true
  | _ => false

/-- `}`, `]` and `)`. -/
def closesBracket : TokenKind → Bool
  | rBrace | rBracket | rParen => true
  | _ => false

end TokenKind

structure Token where
  kind : TokenKind
  text : String
  span : Span
deriving DecidableEq, Repr

namespace Token

def describe (t : Token) : String :=
  match t.kind with
  | .newline => "newline"
  | .eof => "end of input"
  | .string => "string " ++ Text.quoted t.text
  | .heredoc => "heredoc"
  | _ => "`" ++ t.text ++ "`"

def isOperator (t : Token) (text : String) : Bool := t.kind == .operator && t.text == text

end Token

end Hcl
