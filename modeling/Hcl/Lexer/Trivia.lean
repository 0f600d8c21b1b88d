import Hcl.Lexer.Basic

/-!
# What lies between tokens

Blanks, line comments and block comments carry no meaning and are skipped. The line break behind a
line comment is not part of it.
-/

namespace Hcl

/-- Space, tab, carriage return and byte order mark. -/
def isGapChar (c : Char) : Bool := c == ' ' || c == '\t' || c == '\r' || c == '\ufeff'

namespace Trivia

/-- What the skipped text is inside of. -/
inductive Inside where
  | nothing
  | lineComment
  | blockComment (start : Position)

/-- Where skipping ends. -/
structure Stop where
  position : Position
  rest : List Char
  /-- where a block comment begins that does not end -/
  unclosed : Option Position

/-- Skips what carries no meaning at the beginning of a text that begins at position `p`. -/
def skip : Inside → Position → List Char → Stop
  | .nothing, p, '/' :: '/' :: cs => skip .lineComment ((p.next '/').next '/') cs
  | .nothing, p, '/' :: '*' :: cs => skip (.blockComment p) ((p.next '/').next '*') cs
  | .nothing, p, c :: cs =>
    if isGapChar c then skip .nothing (p.next c) cs
    else if c == '#' then skip .lineComment (p.next c) cs
    else ⟨p, c :: cs, none⟩
  | .lineComment, p, c :: cs =>
    if c == '\n' then ⟨p, c :: cs, none⟩ else skip .lineComment (p.next c) cs
  | .blockComment _, p, '*' :: '/' :: cs => skip .nothing ((p.next '*').next '/') cs
  | .blockComment start, p, c :: cs => skip (.blockComment start) (p.next c) cs
  | .blockComment start, p, [] => ⟨p, [], some start⟩
  | .nothing, p, [] => ⟨p, [], none⟩
  | .lineComment, p, [] => ⟨p, [], none⟩

theorem length_skip_le (i : Inside) (p : Position) (cs : List Char) :
    (skip i p cs).rest.length ≤ cs.length := by
  fun_induction skip i p cs <;> simp_all <;> omega

end Trivia

/-- Skips to where the next token begins. -/
def Lexer.skipTrivia (lx : Lexer) : Scan Unit :=
  let stop := Trivia.skip .nothing lx.position lx.rest
  let lx := { lx with rest := stop.rest, position := stop.position }
  match stop.unclosed with
  | none => .ok () lx
  | some start =>
    let lx := lx.enter .blockComment
    .error (lx.unterminated start) lx

theorem Lexer.length_skipTrivia_le (lx : Lexer) :
    lx.skipTrivia.after.rest.length ≤ lx.rest.length := by
  have h := Trivia.length_skip_le .nothing lx.position lx.rest
  simp only [Lexer.skipTrivia]
  split <;> simpa [Scan.after] using h

end Hcl
