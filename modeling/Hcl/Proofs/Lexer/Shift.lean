import Hcl.Proofs.Lexer.Unfold
import Hcl.Proofs.Text.Shift

/-!
# A lexer behind other text

A lexer scans the same tokens wherever it stands. Only their places, and the place of an error,
depend on the text in front of it. The beginning of a text is like the beginning of a line.
-/

namespace Hcl

variable {d : Shift}

/-! ## Skipped text -/

def Trivia.Inside.shift (d : Shift) : Inside → Inside
  | nothing => nothing
  | lineComment => lineComment
  | blockComment start => blockComment (start.shift d)

theorem Trivia.skip_shift (i : Inside) (p : Position) (cs : List Char) :
    skip (i.shift d) (p.shift d) cs =
      ⟨(skip i p cs).position.shift d, (skip i p cs).rest,
        (skip i p cs).unclosed.map (Position.shift d)⟩ := by
  fun_induction skip i p cs with
  | case1 p cs ih | case2 p cs ih | case8 start p cs ih =>
    simp only [Inside.shift] at ih ⊢
    rw [skip, Position.next_shift, Position.next_shift, ih]
  | case3 p c cs hline hblock hg ih =>
    simp only [Inside.shift] at ih ⊢
    rw [← ih, skip.eq_3 _ _ _ hline hblock, if_pos hg, Position.next_shift]
  | case4 p c cs hline hblock hg hc ih =>
    simp only [Inside.shift] at ih ⊢
    rw [← ih, skip.eq_3 _ _ _ hline hblock, if_neg hg, if_pos hc, Position.next_shift]
  | case5 p c cs hline hblock hg hc =>
    simp only [Inside.shift]
    rw [skip.eq_3 _ _ _ hline hblock, if_neg hg, if_neg hc]
    rfl
  | case6 p c cs hc =>
    simp only [Inside.shift]
    rw [skip, if_pos hc]
    rfl
  | case7 p c cs hc ih =>
    simp only [Inside.shift] at ih ⊢
    rw [← ih, skip, if_neg hc, Position.next_shift]
  | case9 start p c cs hend ih =>
    simp only [Inside.shift] at ih ⊢
    rw [← ih, skip.eq_6 _ _ _ _ hend, Position.next_shift]
  | case10 | case11 | case12 =>
    simp only [Inside.shift]
    rw [skip]
    rfl

/-! ## Lexers -/

/-- The lexer when it stands behind other text, which ends with a line break. -/
def Lexer.shift (d : Shift) (lx : Lexer) : Lexer :=
  { lx with position := lx.position.shift d, last := some (lx.last.getD .newline) }

/-- The outcome of a scan behind other text; `f` shifts the value. -/
def Scan.shift {α : Type} (d : Shift) (f : α → α) : Scan α → Scan α
  | ok a lx => ok (f a) (lx.shift d)
  | error cause lx => error (cause.shift d) (lx.shift d)

namespace Lexer

variable {lx next : Lexer} {n : Nat}

@[simp] theorem shift_rest (d : Shift) (lx : Lexer) : (lx.shift d).rest = lx.rest := rfl
@[simp] theorem shift_position (d : Shift) (lx : Lexer) :
    (lx.shift d).position = lx.position.shift d := rfl
@[simp] theorem shift_enter (d : Shift) (mode : Mode) (lx : Lexer) :
    (lx.shift d).enter mode = (lx.enter mode).shift d := rfl
@[simp] theorem shift_leave (d : Shift) (lx : Lexer) : (lx.shift d).leave = lx.leave.shift d := rfl
@[simp] theorem shift_templatesLeft (d : Shift) (lx : Lexer) :
    (lx.shift d).templatesLeft = lx.templatesLeft := rfl
@[simp] theorem shift_unterminated (d : Shift) (start : Position) (lx : Lexer) :
    (lx.shift d).unterminated (start.shift d) = (lx.unterminated start).shift d := rfl

@[simp] theorem shift_consume (d : Shift) (n : Nat) (lx : Lexer) :
    (lx.shift d).consume n = (lx.consume n).shift d := by
  simp only [consume, shift, Position.after_shift]

@[simp] theorem shift_signAllowed (d : Shift) (lx : Lexer) :
    (lx.shift d).signAllowed = lx.signAllowed := by
  obtain ⟨rest, position, entered, last⟩ := lx
  cases last <;> rfl

@[simp] theorem shift_spanFrom (d : Shift) (start : Position) (lx : Lexer) :
    (lx.shift d).spanFrom (start.shift d) = (lx.spanFrom start).shift d := by
  have hlength : (lx.shift d).position.offset - (start.shift d).offset =
      lx.position.offset - start.offset := Nat.add_sub_add_right ..
  rw [spanFrom, hlength]
  rfl

@[simp] theorem shift_textUntil (d : Shift) (lx next : Lexer) :
    (lx.shift d).textUntil (next.shift d) = lx.textUntil next := by
  have hlength : (next.shift d).position.offset - (lx.shift d).position.offset =
      next.position.offset - lx.position.offset := Nat.add_sub_add_right ..
  rw [textUntil, hlength]
  rfl

@[simp] theorem shift_finish (d : Shift) (kind : TokenKind) (text : String) (start : Position)
    (lx : Lexer) :
    (lx.shift d).finish kind text (start.shift d) =
      (lx.finish kind text start).shift d (Token.shift d) := by
  rw [finish, shift_spanFrom]
  rfl

theorem shift_skipTrivia (d : Shift) (lx : Lexer) :
    (lx.shift d).skipTrivia = lx.skipTrivia.shift d id := by
  have hskip := Trivia.skip_shift (d := d) .nothing lx.position lx.rest
  simp only [skipTrivia, shift_position, shift_rest]
  rw [Trivia.Inside.shift] at hskip
  rw [hskip]
  cases (Trivia.skip .nothing lx.position lx.rest).unclosed <;> rfl

/-! ## Literals -/

/-- A template sequence is read in the same way behind other text. -/
def TemplateReader.Shifts (d : Shift) (template : TemplateReader) : Prop :=
  ∀ lx, template.read (lx.shift d) = (template.read lx).shift d id

variable {template : TemplateReader}

theorem shift_quotedPieces (ht : template.Shifts d) (start : Position) (decoded : List Char)
    (lx : Lexer) :
    quotedPieces template (start.shift d) decoded (lx.shift d) =
      (quotedPieces template start decoded lx).shift d id := by
  have hpiece (lx : Lexer) : Piece.ofQuoted (lx.shift d).rest = Piece.ofQuoted lx.rest := rfl
  fun_induction quotedPieces template start decoded lx with
  | case1 decoded lx piece n hp ih =>
    rw [quotedPieces_text ((hpiece lx).trans hp), shift_consume, ih]
  | case2 decoded lx hp piece after hr ih =>
    have hr' : template.read (lx.shift d) = .ok piece (after.shift d) := by
      rw [ht, hr]
      rfl
    rw [quotedPieces_template ((hpiece lx).trans hp) hr', ih]
  | case3 decoded lx hp cause after hr =>
    have hr' : template.read (lx.shift d) = .error (cause.shift d) (after.shift d) := by
      rw [ht, hr]
      rfl
    rw [quotedPieces_template_error ((hpiece lx).trans hp) hr']
    rfl
  | case4 decoded lx hp =>
    rw [quotedPieces_quote ((hpiece lx).trans hp), shift_consume]
    rfl
  | case5 decoded lx sequence hp =>
    rw [quotedPieces_invalid ((hpiece lx).trans hp), shift_consume]
    rfl
  | case6 decoded lx hp =>
    rw [quotedPieces_loneBackslash ((hpiece lx).trans hp), shift_consume]
    rfl
  | case7 decoded lx hp =>
    rw [quotedPieces_lineEnd ((hpiece lx).trans hp)]
    rfl

theorem shift_quotedToken (ht : template.Shifts d) (lx : Lexer) :
    (lx.shift d).quotedToken template = (lx.quotedToken template).shift d (Token.shift d) := by
  simp only [quotedToken, shift_enter, shift_consume, shift_position, shift_quotedPieces ht]
  cases quotedPieces template lx.position [] ((lx.enter .string).consume 1) with
  | ok text next => simp only [Scan.shift, id, shift_leave, shift_finish]
  | error cause next => rfl

theorem shift_heredocLines (ht : template.Shifts d) (opening : Heredoc.Opening) (start : Position)
    (lineStart : Bool) (content : List Char) (lx : Lexer) :
    heredocLines template opening (start.shift d) lineStart content (lx.shift d) =
      (heredocLines template opening start lineStart content lx).shift d id := by
  fun_induction heredocLines template opening start lineStart content lx with
  | case1 lineStart content lx hc =>
    rw [heredocLines_eq, shift_rest, if_pos hc, shift_consume]
    rfl
  | case2 lineStart content lx hc piece n hp ih =>
    rw [heredocLines_eq, shift_rest, if_neg hc, hp, ← ih]
    simp only [shift_consume]
  | case3 lineStart content lx hc hp piece after hr ih =>
    rw [heredocLines_eq, shift_rest, if_neg hc, hp, ← ih]
    simp only [ht lx, hr, Scan.shift, id]
  | case4 lineStart content lx hc hp cause after hr =>
    rw [heredocLines_eq, shift_rest, if_neg hc, hp]
    simp only [ht lx, hr, Scan.shift]
  | case5 lineStart content lx hc hne hne' =>
    rw [heredocLines_eq, shift_rest, if_neg hc]
    split <;> simp_all
    rfl

theorem shift_heredocToken (ht : template.Shifts d) (opening : Heredoc.Opening) (lx : Lexer) :
    (lx.shift d).heredocToken template opening =
      (lx.heredocToken template opening).shift d (Token.shift d) := by
  simp only [heredocToken, shift_enter, shift_consume, shift_position, shift_rest,
    shift_heredocLines ht]
  split
  · cases heredocLines template opening lx.position true []
      (((lx.consume opening.length).consume 1).enter .heredoc) with
    | ok text next => simp only [Scan.shift, id, shift_leave, shift_finish]
    | error cause next => rfl
  · rfl

/-! ## Tokens -/

theorem shift_plainToken (d : Shift) (kind : TokenKind) (n : Nat) (lx : Lexer) :
    (lx.shift d).plainToken kind n = (lx.plainToken kind n).shift d (Token.shift d) := by
  simp only [plainToken, shift_consume, shift_rest, shift_position, shift_finish]

theorem shift_tokenAt (ht : template.Shifts d) (c : Char) (lx : Lexer) :
    (lx.shift d).tokenAt template c = (lx.tokenAt template c).shift d (Token.shift d) := by
  simp only [tokenAt, shift_quotedToken ht, shift_heredocToken ht, shift_rest, shift_signAllowed,
    shift_plainToken]
  split
  · rfl
  split
  · rfl
  split
  · rfl
  split
  · rfl
  split <;> rfl

theorem shift_token (ht : template.Shifts d) (lx : Lexer) :
    (lx.shift d).token template = (lx.token template).shift d (Token.shift d) := by
  rw [token, token, shift_skipTrivia]
  cases lx.skipTrivia with
  | error cause next => rfl
  | ok u mid =>
    simp only [Scan.shift, shift_rest, shift_position]
    split
    · exact shift_finish d .eof "" mid.position mid
    · exact shift_tokenAt ht _ mid

/-! ## Template sequences -/

/-- A token is read in the same way behind other text. -/
def TokenReader.Shifts (d : Shift) (reader : TokenReader) : Prop :=
  ∀ lx, reader.read (lx.shift d) = (reader.read lx).shift d (Token.shift d)

theorem shift_templateTokens {reader : TokenReader} (hr : reader.Shifts d) (start : Position)
    (depth : Nat) (lx : Lexer) :
    templateTokens reader (start.shift d) depth (lx.shift d) =
      (templateTokens reader start depth lx).shift d id := by
  fun_induction templateTokens reader start depth lx with
  | case1 depth lx cause after ht =>
    rw [templateTokens_eq, hr, ht]
    rfl
  | case2 depth lx t after ht hk =>
    rw [templateTokens_eq, hr, ht]
    simp only [Scan.shift, Token.kind_shift, hk, if_true, shift_unterminated]
  | case3 depth lx t after ht hk hd =>
    rw [templateTokens_eq, hr, ht]
    simp only [Scan.shift, Token.kind_shift, hk, if_false, hd, id]
  | case4 depth lx t after ht hk depth' hd ih =>
    rw [templateTokens_eq, hr, ht, ← ih]
    simp only [Scan.shift, Token.kind_shift, hk, if_false, hd]

theorem shifts_ofTokenReader {reader : TokenReader} (hr : reader.Shifts d) :
    (TemplateReader.ofTokenReader reader).Shifts d := by
  intro lx
  simp only [TemplateReader.ofTokenReader, template, shift_enter, shift_consume, shift_position,
    shift_templateTokens hr]
  cases templateTokens reader lx.position 0 ((lx.enter .interpolation).consume 2) with
  | ok u next => simp only [Scan.shift, id, shift_textUntil, shift_leave]
  | error cause next => rfl

theorem shifts_templateReader (d : Shift) (n : Nat) : (templateReader n).Shifts d := by
  induction n with
  | zero => exact fun lx => rfl
  | succ n ih => exact shifts_ofTokenReader fun lx => shift_token ih lx

/-! ## Streams -/

theorem shift_next (d : Shift) (lx : Lexer) :
    (lx.shift d).next = lx.next.shift d (Token.shift d) :=
  shift_token (shifts_templateReader d lx.templatesLeft) lx

end Lexer

end Hcl
