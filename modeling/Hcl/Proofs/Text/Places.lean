import Mathlib.Data.List.Induction
import Hcl.Proofs.Text.Shift

/-!
# Positions in a text

A position is moved on character by character. Wherever it comes to stand, it says how many bytes,
how many lines and how many characters of the line are in front of it.
-/

namespace Hcl

/-- The bytes of a text are those of its UTF-8 encoding. -/
theorem byteCount_toList (text : String) : byteCount text.toList = text.utf8ByteSize := by
  have hsize : ∀ cs : List Char, (String.ofList cs).utf8ByteSize = byteCount cs := by
    intro cs
    induction cs with
    | nil => rfl
    | cons c cs ih => rw [String.ofList_cons, String.utf8ByteSize_append,
        String.utf8ByteSize_singleton, ih, byteCount_cons]
  rw [← hsize, String.ofList_toList]

namespace Position

/-- The characters of `cs` behind its last line break. -/
def lastLine (cs : List Char) : List Char := (cs.reverse.takeWhile (· != '\n')).reverse

/-- `p` stands between two characters of the source, and counts what is in front of it. -/
structure CountsBehind (before : List Char) (p : Position) : Prop where
  offset : p.offset = byteCount before
  line : p.line = before.count '\n' + 1
  column : p.column = (lastLine before).length + 1

/-- The position `p` is exact: it is that of a place between two characters of the source. -/
def IsIn (source : List Char) (p : Position) : Prop :=
  ∃ before rest, source = before ++ rest ∧ p.CountsBehind before

variable {source before rest cs : List Char} {p : Position}

theorem lastLine_concat_newline (cs : List Char) : lastLine (cs ++ ['\n']) = [] := by
  simp [lastLine]

theorem lastLine_concat {c : Char} (hc : c ≠ '\n') (cs : List Char) :
    lastLine (cs ++ [c]) = lastLine cs ++ [c] := by
  simp [lastLine, hc]

/-- The column is known from the last line only, so the text is taken from its end. -/
theorem column_start_after (cs : List Char) :
    (start.after cs).column = (lastLine cs).length + 1 := by
  induction cs using List.reverseRecOn with
  | nil => rfl
  | append_singleton cs c ih =>
    rw [after_append, after_cons, after_nil, next]
    split
    · rename_i hc
      rw [hc, lastLine_concat_newline]
      rfl
    · rename_i hc
      rw [lastLine_concat hc, List.length_append, ih]
      rfl

theorem countsBehind_start_after (before : List Char) : (start.after before).CountsBehind before where
  offset := by
    rw [offset_after]
    exact Nat.zero_add _
  line := by
    rw [line_after]
    exact Nat.add_comm _ _
  column := column_start_after before

/-- What the lexer counts is what is there. -/
theorem isIn_start_after (before rest : List Char) : (start.after before).IsIn (before ++ rest) :=
  ⟨before, rest, rfl, countsBehind_start_after before⟩

end Position

end Hcl
