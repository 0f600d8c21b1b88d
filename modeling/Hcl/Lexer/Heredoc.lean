import Hcl.Lexer.Basic

/-!
# The frame of a heredoc

A heredoc opens with `<<` or `<<-`, a marker and the end of the line, and closes with a line that
is the marker. After `<<-` the closing line may be indented, and the indentation that the lines of
the content share is removed.
-/

namespace Hcl.Heredoc

/-- The first line of a heredoc. -/
structure Opening where
  /-- whether shared indentation is removed -/
  flush : Bool
  marker : List Char
  /-- characters up to the end of the line, which is not counted -/
  length : Nat
deriving DecidableEq, Repr

/-- Space, tab and carriage return may follow the marker. -/
def isMarkerBlank (c : Char) : Bool := c == ' ' || c == '\t' || c == '\r'

/-- Reads the opening line, if `cs` begins with `<<` or `<<-` and a marker. -/
def opening? : List Char → Option Opening
  | '<' :: '<' :: cs =>
    let flush := cs.head? == some '-'
    let dash := if flush then 1 else 0
    let cs := cs.drop dash
    if cs.head?.any Text.isIdentStart then
      let marker := cs.takeWhile Text.isIdentContinue
      let blanks := (cs.drop marker.length).takeWhile isMarkerBlank
      some ⟨flush, marker, 2 + dash + marker.length + blanks.length⟩
    else none
  | _ => none

/-- The line at the front of `cs`, without the carriage return it may end with. -/
def line (cs : List Char) : List Char :=
  let line := cs.takeWhile (· != '\n')
  if line.getLast? = some '\r' then line.dropLast else line

/-- Whether the line at the front of `cs` closes the heredoc. -/
def Opening.closes (o : Opening) (cs : List Char) : Bool :=
  (if o.flush then Text.trimStart (line cs) else line cs) == o.marker

/-! ## Shared indentation -/

/-- Splits a text behind each line break. -/
def lines : List Char → List (List Char)
  | [] => []
  | c :: cs =>
    if c = '\n' then [c] :: lines cs
    else
      match lines cs with
      | [] => [[c]]
      | line :: more => (c :: line) :: more

/-- How many spaces and tabs a line begins with. -/
def indentOf (line : List Char) : Nat :=
  (line.takeWhile fun c => c == ' ' || c == '\t').length

/-- The least indentation of the lines that are not blank; zero if all are. -/
def sharedIndent (lines : List (List Char)) : Nat :=
  (((lines.filter (! Text.isBlank ·)).map indentOf).min?).getD 0

/-- Removes the shared indentation. A blank line loses at most what it has. -/
def dedent (content : List Char) : List Char :=
  let lines := lines content
  let indent := sharedIndent lines
  lines.flatMap fun line => line.drop (min (indentOf line) indent)

end Hcl.Heredoc
