import Hcl.Error
import Hcl.Proofs.Text.Bytes

/-!
# Shifted places

What stands behind other text has its lines and offsets shifted, by the line breaks and the bytes of
that text. Columns are kept if that text ends with a line break.
-/

namespace Hcl

structure Shift where
  lines : Nat
  bytes : Nat
deriving DecidableEq, Repr

/-- How far things are shifted behind the text `cs`. -/
def Shift.behind (cs : List Char) : Shift := ⟨cs.count '\n', byteCount cs⟩

def Position.shift (d : Shift) (p : Position) : Position :=
  ⟨p.line + d.lines, p.column, p.offset + d.bytes⟩

def Span.shift (d : Shift) (s : Span) : Span := { s with start := s.start.shift d }

def Token.shift (d : Shift) (t : Token) : Token := { t with span := t.span.shift d }

def LexicalError.shift (d : Shift) (e : LexicalError) : LexicalError :=
  { e with position := e.position.shift d }

/-- An error has its position shifted; what was not read from a source has none. -/
def Error.shift (d : Shift) : Error → Error
  | lexical fault p => lexical fault (p.shift d)
  | syntactic fault p => syntactic fault (p.shift d)
  | scopeConflict conflict label p => scopeConflict conflict label (p.shift d)
  | rootSymbol found p => rootSymbol found (p.shift d)
  | number owner raw fault p => number owner raw fault (p.shift d)
  | io reason => io reason

variable {d : Shift} {cs : List Char}

/-! ## Positions -/

theorem Position.next_shift (p : Position) (c : Char) :
    (p.shift d).next c = (p.next c).shift d := by
  simp only [next]
  split <;> simp [shift, Nat.add_right_comm]

theorem Position.after_shift (p : Position) (cs : List Char) :
    (p.shift d).after cs = (p.after cs).shift d := by
  induction cs generalizing p with
  | nil => rfl
  | cons c cs ih => rw [after_cons, after_cons, next_shift, ih]

theorem Position.line_after (p : Position) (cs : List Char) :
    (p.after cs).line = p.line + cs.count '\n' := by
  induction cs generalizing p with
  | nil => rfl
  | cons c cs ih =>
    rw [after_cons, ih, next]
    split
    · rename_i hc
      rw [hc, List.count_cons_self]
      exact Nat.add_right_comm p.line 1 _
    · rename_i hc
      rw [List.count_cons_of_ne hc]

/-- Behind a line break begins the text that follows as if nothing stood in front of it. -/
theorem Position.start_after (h : cs.getLast? = some '\n') :
    start.after cs = start.shift (.behind cs) := by
  obtain ⟨body, rfl⟩ := List.getLast?_eq_some_iff.mp h
  have hcolumn : (start.after (body ++ ['\n'])).column = 1 := by
    rw [after_append]
    rfl
  have hline := line_after start (body ++ ['\n'])
  have hoffset := offset_after start (body ++ ['\n'])
  generalize start.after (body ++ ['\n']) = p at *
  obtain ⟨line, column, offset⟩ := p
  simp only at hline hcolumn hoffset
  rw [hline, hcolumn, hoffset]
  rfl

/-! ## Spans -/

@[simp] theorem Span.start_shift (s : Span) : (s.shift d).start = s.start.shift d := rfl
@[simp] theorem Token.span_shift (t : Token) : (t.shift d).span = t.span.shift d := rfl
@[simp] theorem Token.kind_shift (t : Token) : (t.shift d).kind = t.kind := rfl
@[simp] theorem Token.text_shift (t : Token) : (t.shift d).text = t.text := rfl

theorem Span.upTo_shift (s other : Span) :
    (s.shift d).upTo (other.shift d) = (s.upTo other).shift d := by
  have hlength : (other.shift d).stop - (s.shift d).start.offset = other.stop - s.start.offset := by
    simp only [stop, shift, Position.shift]
    omega
  rw [upTo, hlength]
  rfl

/-- The text of a span is found in its place behind other text. -/
theorem Span.slice?_shift (before source : List Char) (s : Span) :
    (s.shift (.behind before)).slice? (before ++ source) = s.slice? source := by
  have hoffset : (s.shift (.behind before)).start.offset = byteCount before + s.start.offset :=
    Nat.add_comm _ _
  rw [slice?, hoffset, dropBytes?_append]
  rfl

end Hcl
