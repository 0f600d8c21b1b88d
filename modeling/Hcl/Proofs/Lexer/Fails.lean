import Hcl.Proofs.Lexer.Reads

/-!
# What a failing scan leaves

A scan fails somewhere inside the constructs it has begun. It reports a place it has come past, and
leaves the lexer where it stopped reading. The modes of the constructs it was inside of are not
left; they lie on top of the modes from before, and a construct that is not closed belongs to the
topmost one.
-/

namespace Hcl

/-- A block comment that does not end goes on to the end of the text. It begins in the text, unless
the text is inside of it. -/
theorem Trivia.exists_unclosed (i : Inside) (p : Position) (cs : List Char) {start : Position}
    (h : (skip i p cs).unclosed = some start) :
    (skip i p cs).rest = [] ∧ (skip i p cs).position = p.after cs ∧
      (i = .blockComment start ∨ ∃ text rest, cs = text ++ rest ∧ start = p.after text) := by
  fun_induction skip i p cs with
  | case1 p cs ih =>
    obtain ⟨hrest, hp, hi | ⟨text, rest, rfl, rfl⟩⟩ := ih h
    · cases hi
    · exact ⟨hrest, hp, .inr ⟨'/' :: '/' :: text, rest, rfl, rfl⟩⟩
  | case2 p cs ih =>
    obtain ⟨hrest, hp, hi | ⟨text, rest, rfl, rfl⟩⟩ := ih h
    · cases hi
      exact ⟨hrest, hp, .inr ⟨[], '/' :: '*' :: cs, rfl, rfl⟩⟩
    · exact ⟨hrest, hp, .inr ⟨'/' :: '*' :: text, rest, rfl, rfl⟩⟩
  | case3 p c cs _ _ _ ih | case4 p c cs _ _ _ _ ih | case7 p c cs _ ih =>
    obtain ⟨hrest, hp, hi | ⟨text, rest, rfl, rfl⟩⟩ := ih h
    · cases hi
    · exact ⟨hrest, hp, .inr ⟨c :: text, rest, rfl, rfl⟩⟩
  | case8 begun p cs ih =>
    obtain ⟨hrest, hp, hi | ⟨text, rest, rfl, rfl⟩⟩ := ih h
    · cases hi
    · exact ⟨hrest, hp, .inr ⟨'*' :: '/' :: text, rest, rfl, rfl⟩⟩
  | case9 begun p c cs _ ih =>
    obtain ⟨hrest, hp, hi | ⟨text, rest, rfl, rfl⟩⟩ := ih h
    · exact ⟨hrest, hp, .inl hi⟩
    · exact ⟨hrest, hp, .inr ⟨c :: text, rest, rfl, rfl⟩⟩
  | case10 begun p =>
    cases h
    exact ⟨rfl, rfl, .inl rfl⟩
  | case5 | case6 | case11 | case12 => cases h

namespace Lexer

/-- A scan of `lx` fails with `cause` and leaves `next`. It is inside of at most `n` template
sequences more than `lx` is. -/
structure Fails (n : Nat) (lx : Lexer) (cause : LexicalError) (next : Lexer) : Prop where
  reads : ∃ text, lx.rest = text ++ next.rest ∧ next.position = lx.position.after text
  place : ∃ text rest, lx.rest = text ++ rest ∧ cause.position = lx.position.after text
  modes : ∃ inside, next.entered = inside ++ lx.entered ∧ .default ∉ inside ∧
    inside.count .interpolation ≤ n
  mode : ∀ m, cause.fault = .unterminated m → m = next.mode

variable {n : Nat} {lx mid next origin : Lexer} {cause : LexicalError} {text : List Char}

/-- The scan fails behind `text` for a reason that names no mode, and reports where it began. -/
theorem Reads.fails_at_start {fault : LexicalFault} (h : lx.Reads text next)
    (hfault : ∀ m, fault ≠ .unterminated m) : lx.Fails n ⟨fault, lx.position⟩ next where
  reads := ⟨text, h.rest, h.position⟩
  place := ⟨[], lx.rest, rfl, rfl⟩
  modes := ⟨[], h.entered, List.not_mem_nil, Nat.zero_le n⟩
  mode m hm := absurd hm (hfault m)

/-- The text ends in a construct that begins where `lx` stands or behind. -/
theorem Reads.fails_unterminated {start : Position} (h : lx.Reads text next)
    (hplace : ∃ as bs, lx.rest = as ++ bs ∧ start = lx.position.after as) :
    lx.Fails n (next.unterminated start) next where
  reads := ⟨text, h.rest, h.position⟩
  place := hplace
  modes := ⟨[], h.entered, List.not_mem_nil, Nat.zero_le n⟩
  mode m hm := by
    cases hm
    rfl

theorem Reads.fails_unterminated_at_start (h : lx.Reads text next) :
    lx.Fails n (next.unterminated lx.position) next := h.fails_unterminated ⟨[], lx.rest, rfl, rfl⟩

/-- The scan goes well up to `mid` and fails from there on. -/
theorem Reads.fails (h : lx.Reads text mid) (h' : mid.Fails n cause next) :
    lx.Fails n cause next where
  reads := by
    obtain ⟨more, hrest, hposition⟩ := h'.reads
    exact ⟨text ++ more, by rw [h.rest, hrest, List.append_assoc],
      by rw [hposition, h.position, Position.after_append]⟩
  place := by
    obtain ⟨more, rest, hrest, hposition⟩ := h'.place
    exact ⟨text ++ more, rest, by rw [h.rest, hrest, List.append_assoc],
      by rw [hposition, h.position, Position.after_append]⟩
  modes := h.entered ▸ h'.modes
  mode := h'.mode

theorem Fails.mono {k : Nat} (h : lx.Fails k cause next) (hk : k ≤ n) : lx.Fails n cause next where
  reads := h.reads
  place := h.place
  modes := by
    obtain ⟨inside, hentered, hdefault, hcount⟩ := h.modes
    exact ⟨inside, hentered, hdefault, Nat.le_trans hcount hk⟩
  mode := h.mode

/-- The mode a construct is read in stays behind its failure. -/
theorem Fails.enter {mode : Mode} (h : (lx.enter mode).Fails n cause next) (hm : mode ≠ .default) :
    lx.Fails (n + if mode = .interpolation then 1 else 0) cause next where
  reads := h.reads
  place := h.place
  modes := by
    obtain ⟨inside, hentered, hdefault, hcount⟩ := h.modes
    refine ⟨inside ++ [mode], by rw [hentered, List.append_assoc]; rfl, ?_, ?_⟩
    · simp [hdefault, hm.symm]
    · rw [List.count_append, List.count_singleton]
      simp only [beq_iff_eq]
      omega
  mode := h.mode

/-! ## Trivia and literals -/

theorem fails_of_skipTrivia (h : lx.skipTrivia = .error cause next) : lx.Fails 0 cause next := by
  have hunclosed := @Trivia.exists_unclosed .nothing lx.position lx.rest
  simp only [skipTrivia] at h
  generalize Trivia.skip .nothing lx.position lx.rest = stop at *
  split at h
  · cases h
  · rename_i start hu
    obtain ⟨hrest, hposition, hi | hplace⟩ := hunclosed hu
    · cases hi
    · cases h
      have hreads : (lx.enter .blockComment).Reads lx.rest
          ({ lx with rest := stop.rest, position := stop.position }.enter .blockComment) :=
        ⟨by rw [enter_rest, enter_rest, hrest, List.append_nil], hposition, rfl⟩
      exact (hreads.fails_unterminated hplace).enter (by decide)

/-- A reader of template sequences that opens at most `n` of them inside each other. -/
def TemplateReader.FailsWithin (n : Nat) (template : TemplateReader) : Prop :=
  ∀ {lx cause next}, template.read lx = .error cause next → lx.Fails n cause next

section Literals

variable {template : TemplateReader} {start : Position}

/-- The literal begins where `origin` stands, and `text` has been read of it. -/
theorem fails_of_quotedPieces (ht : template.Exact) (hf : template.FailsWithin n)
    {decoded : List Char} (horigin : origin.Reads text lx) (hstart : start = origin.position)
    (h : quotedPieces template start decoded lx = .error cause next) :
    origin.Fails n cause next := by
  fun_induction quotedPieces template start decoded lx generalizing text with
  | case1 decoded lx piece n hp ih => exact ih (horigin.trans (reads_consume lx n)) h
  | case2 decoded lx hp piece after hr ih => exact ih (horigin.trans (ht hr)) h
  | case3 decoded lx hp cause' after hr =>
    cases h
    exact horigin.fails (hf hr)
  | case4 => cases h
  | case5 decoded lx sequence hp =>
    cases h
    exact horigin.fails ((reads_consume lx 2).fails_at_start (by simp))
  | case6 decoded lx hp =>
    cases h
    exact horigin.fails (reads_consume lx 1).fails_unterminated_at_start
  | case7 decoded lx hp =>
    cases h
    exact hstart ▸ horigin.fails_unterminated_at_start

theorem fails_of_quotedToken (ht : template.Exact) (hf : template.FailsWithin n)
    (h : lx.quotedToken template = .error cause next) : lx.Fails n cause next := by
  simp only [quotedToken] at h
  split at h
  · cases h
  · rename_i hq
    cases h
    exact (fails_of_quotedPieces ht hf (reads_consume (lx.enter .string) 1) rfl hq).enter (by decide)

theorem fails_of_heredocLines (ht : template.Exact) (hf : template.FailsWithin n)
    {opening : Heredoc.Opening} {lineStart : Bool} {read : List Char}
    (horigin : origin.Reads text lx) (hstart : start = origin.position)
    (h : heredocLines template opening start lineStart read lx = .error cause next) :
    origin.Fails n cause next := by
  fun_induction heredocLines template opening start lineStart read lx generalizing text with
  | case1 => cases h
  | case2 lineStart read lx hc piece n hp ih => exact ih (horigin.trans (reads_consume lx n)) h
  | case3 lineStart read lx hc hp piece after hr ih => exact ih (horigin.trans (ht hr)) h
  | case4 lineStart read lx hc hp cause' after hr =>
    cases h
    exact horigin.fails (hf hr)
  | case5 lineStart read lx hc =>
    cases h
    exact hstart ▸ horigin.fails_unterminated_at_start

theorem fails_of_heredocToken (ht : template.Exact) (hf : template.FailsWithin n)
    {opening : Heredoc.Opening} (h : lx.heredocToken template opening = .error cause next) :
    lx.Fails n cause next := by
  have hopening := reads_consume lx opening.length
  simp only [heredocToken] at h
  split at h
  · split at h
    · cases h
    · rename_i hl
      cases h
      have horigin := (reads_consume (lx.enter .heredoc) opening.length).trans (reads_consume _ 1)
      exact (fails_of_heredocLines ht hf horigin rfl hl).enter (by decide)
  · cases h
    exact hopening.fails_at_start (by simp)

end Literals

/-! ## Tokens and template sequences -/

section Tokens

variable {template : TemplateReader}

theorem fails_of_tokenAt (ht : template.Exact) (hf : template.FailsWithin n) {c : Char}
    (h : lx.tokenAt template c = .error cause next) : lx.Fails n cause next := by
  simp only [tokenAt] at h
  split at h
  · exact fails_of_quotedToken ht hf h
  split at h
  · exact fails_of_heredocToken ht hf h
  split at h
  · cases h
  split at h
  · cases h
  split at h
  · cases h
  · cases h
    exact (Reads.refl lx).fails_at_start (by simp)

theorem fails_of_token (ht : template.Exact) (hf : template.FailsWithin n)
    (h : lx.token template = .error cause next) : lx.Fails n cause next := by
  simp only [token] at h
  split at h
  · rename_i hs
    cases h
    exact (fails_of_skipTrivia hs).mono (Nat.zero_le n)
  · rename_i hs
    obtain ⟨gap, hgap, -⟩ := reads_of_skipTrivia hs
    split at h
    · cases h
    · exact hgap.fails (fails_of_tokenAt ht hf h)

/-- The template sequence begins where `origin` stands, and `text` has been read of it. -/
theorem fails_of_templateTokens {reader : TokenReader}
    (hr : ∀ {lx t next}, reader.read lx = .ok t next → lx.Steps t next)
    (hf : ∀ {lx cause next}, reader.read lx = .error cause next → lx.Fails n cause next)
    {start : Position} {depth : Nat} (horigin : origin.Reads text lx)
    (hstart : start = origin.position)
    (h : templateTokens reader start depth lx = .error cause next) :
    origin.Fails n cause next := by
  fun_induction templateTokens reader start depth lx generalizing text with
  | case1 depth lx cause' after ht =>
    cases h
    exact horigin.fails (hf ht)
  | case2 depth lx t after ht hk =>
    obtain ⟨more, hmore⟩ := (hr ht).exists_reads
    cases h
    exact hstart ▸ (horigin.trans hmore).fails_unterminated_at_start
  | case3 => cases h
  | case4 depth lx t after ht hk depth' hd ih =>
    obtain ⟨more, hmore⟩ := (hr ht).exists_reads
    exact ih (horigin.trans hmore) h

end Tokens

/-- Each template sequence inside another one takes one of those that may be opened. -/
theorem failsWithin_templateReader (n : Nat) : (templateReader n).FailsWithin n := by
  induction n with
  | zero =>
    intro lx cause next h
    cases h
    exact (Reads.refl lx).fails_at_start (by simp)
  | succ n ih =>
    intro lx cause next h
    have ht : (templateReader n).Exact := exact_templateReader n
    simp only [templateReader, TemplateReader.ofTokenReader, Lexer.template] at h
    split at h
    · rename_i hs
      cases h
      exact (fails_of_templateTokens (fun h => steps_of_token ht h) (fun h => fails_of_token ht ih h)
        (reads_consume (lx.enter .interpolation) 2) rfl hs).enter (by decide)
    · cases h

theorem fails_of_next (h : lx.next = .error cause next) : lx.Fails lx.templatesLeft cause next :=
  fails_of_token (exact_templateReader _) (failsWithin_templateReader _) h

end Lexer

end Hcl
