import Hcl.TokenStream

/-!
# One round of each loop

The loops of the lexer end because every round reads on, and are defined with proofs of that. Here
is what one round does, case by case and without the proofs.
-/

namespace Hcl.Lexer

variable {template : TemplateReader} {start : Position} {lx next : Lexer} {cause : LexicalError}
  {text : List Char} {n : Nat}

/-! ## In front of a token -/

section Trivia

variable {c : Char} {cs : List Char}

/-- A character that no filler begins with. -/
def IsSolid (c : Char) : Prop := isGapChar c = false ∧ c ≠ '#' ∧ c ≠ '/'

instance (c : Char) : Decidable (IsSolid c) := inferInstanceAs (Decidable (_ ∧ _))

theorem skip_of_isSolid (h : IsSolid c) (p : Position) (cs : List Char) :
    Trivia.skip .nothing p (c :: cs) = ⟨p, c :: cs, none⟩ := by
  obtain ⟨hgap, hhash, hslash⟩ := h
  rw [Trivia.skip]
  · simp [hgap, hhash]
  · rintro cs' rfl
    exact absurd rfl hslash
  · rintro cs' rfl
    exact absurd rfl hslash

theorem token_of_isSolid (template : TemplateReader) (hrest : lx.rest = c :: cs) (h : IsSolid c) :
    lx.token template = lx.tokenAt template c := by
  have hskip := skip_of_isSolid h lx.position cs
  have hlx : { lx with rest := c :: cs, position := lx.position } = lx := by rw [← hrest]
  simp only [token, skipTrivia, hrest, hskip, hlx]

theorem next_of_isSolid (hrest : lx.rest = c :: cs) (h : IsSolid c) :
    lx.next = lx.tokenAt (templateReader lx.templatesLeft) c := token_of_isSolid _ hrest h

theorem skip_of_gapChar (h : isGapChar c = true) (p : Position) (cs : List Char) :
    Trivia.skip .nothing p (c :: cs) = Trivia.skip .nothing (p.next c) cs := by
  have hslash : c ≠ '/' := by
    rintro rfl
    cases h
  rw [Trivia.skip.eq_3 _ _ _ (fun _ hc _ => hslash hc) (fun _ hc _ => hslash hc), if_pos h]

theorem token_of_gapChar (template : TemplateReader) (hrest : lx.rest = c :: cs)
    (h : isGapChar c = true) :
    lx.token template = { lx with rest := cs, position := lx.position.next c }.token template := by
  simp only [token, skipTrivia, hrest, skip_of_gapChar h]

end Trivia

/-! ## Quoted literals -/

section Quoted

variable {decoded : List Char}

theorem quotedPieces_text (h : Piece.ofQuoted lx.rest = .text text n) :
    quotedPieces template start decoded lx =
      quotedPieces template start (text.reverseAux decoded) (lx.consume n) := by
  rw [quotedPieces]
  split <;> simp_all

theorem quotedPieces_template (h : Piece.ofQuoted lx.rest = .template)
    (hr : template.read lx = .ok text next) :
    quotedPieces template start decoded lx =
      quotedPieces template start (text.reverseAux decoded) next := by
  rw [quotedPieces]
  split <;> simp_all
  split <;> simp_all

theorem quotedPieces_template_error (h : Piece.ofQuoted lx.rest = .template)
    (hr : template.read lx = .error cause next) :
    quotedPieces template start decoded lx = .error cause next := by
  rw [quotedPieces]
  split <;> simp_all
  split <;> simp_all

theorem quotedPieces_quote (h : Piece.ofQuoted lx.rest = .quote) :
    quotedPieces template start decoded lx = .ok decoded.reverse (lx.consume 1) := by
  rw [quotedPieces]
  split <;> simp_all

theorem quotedPieces_invalid {sequence : List Char}
    (h : Piece.ofQuoted lx.rest = .invalid sequence) :
    quotedPieces template start decoded lx =
      .error ⟨.invalidEscape (String.ofList sequence), lx.position⟩ (lx.consume 2) := by
  rw [quotedPieces]
  split <;> simp_all

theorem quotedPieces_loneBackslash (h : Piece.ofQuoted lx.rest = .loneBackslash) :
    quotedPieces template start decoded lx =
      .error (lx.unterminated lx.position) (lx.consume 1) := by
  rw [quotedPieces]
  split <;> simp_all

theorem quotedPieces_lineEnd (h : Piece.ofQuoted lx.rest = .lineEnd) :
    quotedPieces template start decoded lx = .error (lx.unterminated start) lx := by
  rw [quotedPieces]
  split <;> simp_all

end Quoted

/-! ## Heredocs -/

theorem heredocLines_eq (template : TemplateReader) (opening : Heredoc.Opening) (start : Position)
    (lineStart : Bool) (content : List Char) (lx : Lexer) :
    heredocLines template opening start lineStart content lx =
      if lineStart && opening.closes lx.rest then
        .ok content.reverse (lx.consume (Heredoc.line lx.rest).length)
      else
        match Piece.ofHeredoc lx.rest with
        | .text text n =>
          heredocLines template opening start (text == ['\n']) (text.reverseAux content)
            (lx.consume n)
        | .template =>
          match template.read lx with
          | .ok text next =>
            heredocLines template opening start false (text.reverseAux content) next
          | .error cause next => .error cause next
        | _ => .error (lx.unterminated start) lx := by
  rw [heredocLines]
  split
  · rfl
  · split <;> simp_all
    split <;> simp_all

theorem heredocLines_text {opening : Heredoc.Opening} {lineStart : Bool} {content : List Char}
    (hopen : (lineStart && opening.closes lx.rest) = false)
    (h : Piece.ofHeredoc lx.rest = .text text n) :
    heredocLines template opening start lineStart content lx =
      heredocLines template opening start (text == ['\n']) (text.reverseAux content)
        (lx.consume n) := by
  rw [heredocLines_eq, if_neg (by simp [hopen]), h]

/-! ## Template sequences -/

theorem templateTokens_eq (token : TokenReader) (start : Position) (depth : Nat) (lx : Lexer) :
    templateTokens token start depth lx =
      match token.read lx with
      | .error cause next => .error cause next
      | .ok t next =>
        if t.kind = .eof then .error (next.unterminated start) next
        else
          match bracesAfter t.kind depth with
          | none => .ok () next
          | some depth => templateTokens token start depth next := by
  rw [templateTokens]
  split
  · simp_all
  · rename_i h
    rw [h]
    split <;> rename_i heof
    · exact (if_pos heof).symm
    · exact (if_neg heof).symm

end Hcl.Lexer
