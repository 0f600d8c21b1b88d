/-!
# Places in a source text

A position is counted in lines, in characters of the line and in UTF-8 bytes of the whole text. A
span is a position and a number of bytes.
-/

namespace Hcl

/-- `line` and `column` count from one, `offset` counts bytes from zero. -/
structure Position where
  line : Nat
  column : Nat
  offset : Nat
deriving DecidableEq, Repr

namespace Position

/-- Where every text begins. -/
def start : Position := ⟨1, 1, 0⟩

instance : Inhabited Position := ⟨start⟩

/-- The position behind the character `c`: a line break starts a new line. -/
def next (p : Position) (c : Char) : Position :=
  if c = '\n' then ⟨p.line + 1, 1, p.offset + c.utf8Size⟩
  else ⟨p.line, p.column + 1, p.offset + c.utf8Size⟩

def after (p : Position) (cs : List Char) : Position := cs.foldl next p

@[simp] theorem after_nil (p : Position) : p.after [] = p := rfl

@[simp] theorem after_cons (p : Position) (c : Char) (cs : List Char) :
    p.after (c :: cs) = (p.next c).after cs := rfl

theorem after_append (p : Position) (as bs : List Char) :
    p.after (as ++ bs) = (p.after as).after bs := List.foldl_append

def describe (p : Position) : String := s!"line {p.line}, column {p.column}"

end Position

structure Span where
  start : Position
  length : Nat
deriving DecidableEq, Repr

namespace Span

/-- The byte offset behind the span. -/
def stop (s : Span) : Nat := s.start.offset + s.length

/-- From the start of `s` to the end of `other`; empty if that end lies before the start. -/
def upTo (s other : Span) : Span := ⟨s.start, other.stop - s.start.offset⟩

end Span

/-! ## Cutting a text by bytes -/

/-- What follows the first `n` bytes of a text, if a character ends there. -/
def dropBytes? : Nat → List Char → Option (List Char)
  | 0, cs => some cs
  | _ + 1, [] => none
  | n + 1, c :: cs => if c.utf8Size ≤ n + 1 then dropBytes? (n + 1 - c.utf8Size) cs else none

/-- The first `n` bytes of a text, if a character ends there. -/
def takeBytes? : Nat → List Char → Option (List Char)
  | 0, _ => some []
  | _ + 1, [] => none
  | n + 1, c :: cs =>
    if c.utf8Size ≤ n + 1 then (takeBytes? (n + 1 - c.utf8Size) cs).map (c :: ·) else none

/-- The text of `s` in `source`. There is none if `s` reaches beyond the end or one of its ends is
inside a character. -/
def Span.slice? (s : Span) (source : List Char) : Option String :=
  (dropBytes? s.start.offset source).bind fun rest =>
    (takeBytes? s.length rest).map String.ofList

end Hcl
