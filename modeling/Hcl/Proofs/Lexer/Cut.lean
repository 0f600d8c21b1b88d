import Hcl.Proofs.Lexer.CutLexemes
import Hcl.Proofs.Lexer.Extend
import Hcl.Proofs.Lexer.HeredocEnd

/-!
# A text that is cut short behind a token

Of the text that a lexer reads, what follows some token is taken away and a text that begins with a
blank or the end of a line is put in its place. Up to there the lexer scans the same tokens, wherever the
text that is left stands. Only a heredoc needs a line break behind it.
-/

namespace Hcl

variable {kept back tail : List Char}

/-! ## Skipped text -/

namespace Trivia

/-- Nothing is skipped where skipping has ended. -/
theorem skip_stop (i : Inside) (p q : Position) (cs : List Char)
    (h : (skip i p cs).unclosed = none) :
    skip .nothing q (skip i p cs).rest = ⟨q, (skip i p cs).rest, none⟩ := by
  fun_induction skip i p cs with
  | case5 p c cs hline hblock hg hc =>
    rw [skip.eq_3 _ _ _ hline hblock, if_neg hg, if_neg hc]
  | case6 p c cs hc =>
    obtain rfl : c = '\n' := by simpa using hc
    rw [skip]
    · rfl
    · simp
    · simp
  | case10 => cases h
  | case11 | case12 => rfl
  | _ => simp_all

/-- The same, with a block comment that begins at `q`. -/
def Inside.from (q : Position) : Inside → Inside
  | nothing => nothing
  | lineComment => lineComment
  | blockComment _ => blockComment q

/-- What is left behind the first characters of a text. -/
theorem exists_kept_cons {c : Char} {cs more : List Char} (hcs : kept ++ back = c :: cs)
    (hle : (more ++ back).length ≤ cs.length) : ∃ ks, kept = c :: ks ∧ cs = ks ++ back := by
  cases kept with
  | nil =>
    have hlength := congrArg List.length hcs
    simp only [List.nil_append, List.length_append, List.length_cons] at hlength hle
    omega
  | cons d ks =>
    obtain ⟨rfl, rfl⟩ := List.cons.inj hcs
    exact ⟨ks, rfl, rfl⟩

theorem exists_kept_cons_cons {c d : Char} {cs more : List Char} (hcs : kept ++ back = c :: d :: cs)
    (hle : (more ++ back).length ≤ cs.length) : ∃ ks, kept = c :: d :: ks ∧ cs = ks ++ back := by
  obtain ⟨ks, rfl, hks⟩ := exists_kept_cons hcs (Nat.le_succ_of_le hle)
  obtain ⟨ks, rfl, rfl⟩ := exists_kept_cons hks.symm hle
  exact ⟨ks, rfl, rfl⟩

/-- What does not follow does not follow in the shorter text. -/
theorem not_cons_cut (ht : Stops tail) {a c d : Char} (hd : ¬(d = ' ' ∨ d = '\n' ∨ d = '\r'))
    (h : ∀ ds, c = a → kept ++ back = d :: ds → False) :
    ∀ ds, c = a → kept ++ tail = d :: ds → False := by
  rintro ds rfl hds
  cases kept with
  | nil =>
    rw [List.nil_append] at hds
    exact hd (ht d (by rw [hds]; rfl))
  | cons e ks => exact h (ks ++ back) rfl (congrArg (· :: _) (List.cons.inj hds).1)

/-- Nothing is skipped in front of a line break. -/
theorem skip_of_newline (i : Inside) (p q r : Position) (ht : ∀ c ∈ tail.head?, c = '\n')
    (hu : (skip i p []).unclosed = none) : ∃ stop, skip (i.from q) r tail = ⟨stop, tail, none⟩ := by
  cases tail with
  | nil => cases i <;> first | exact ⟨r, rfl⟩ | cases hu
  | cons c cs =>
    obtain rfl := ht c rfl
    cases i with
    | nothing | lineComment => exact ⟨r, by simp [Inside.from, skip, isGapChar]⟩
    | blockComment => cases hu

theorem skip_cut (i : Inside) (p q r : Position) {more : List Char} (ht : Stops tail)
    (hne : more ≠ [] ∨ back = [] ∧ ∀ c ∈ tail.head?, c = '\n')
    (hu : (skip i p (kept ++ back)).unclosed = none)
    (h : (skip i p (kept ++ back)).rest = more ++ back) :
    ∃ stop, skip (i.from q) r (kept ++ tail) = ⟨stop, more ++ tail, none⟩ := by
  generalize hcs : kept ++ back = cs at h hu
  have hle : ∀ (i : Inside) (p : Position) (cs : List Char), (skip i p cs).rest = more ++ back →
      (more ++ back).length ≤ cs.length := fun i p cs h => h ▸ length_skip_le i p cs
  have hkept : ∀ {ks : List Char} {c : Char} {cs : List Char}, ks ++ back = c :: cs →
      ks ≠ [] ∨ back = [] ∧ (∀ c ∈ tail.head?, c = '\n') → ks ≠ [] := by
    rintro ks c cs hcs (hne | ⟨rfl, -⟩)
    · exact hne
    · rw [List.append_nil] at hcs
      exact hcs ▸ List.cons_ne_nil c cs
  fun_induction skip i p cs generalizing kept q r with
  | case1 p cs ih =>
    obtain ⟨ks, rfl, rfl⟩ := exists_kept_cons_cons hcs (hle _ _ _ h)
    exact ih q _ rfl h hu
  | case2 p cs ih =>
    obtain ⟨ks, rfl, rfl⟩ := exists_kept_cons_cons hcs (hle _ _ _ h)
    exact ih r _ rfl h hu
  | case3 p c cs hline hblock hg ih =>
    obtain ⟨ks, rfl, rfl⟩ := exists_kept_cons hcs (hle _ _ _ h)
    rw [List.cons_append, Inside.from, skip.eq_3 _ _ _ (not_cons_cut ht (by decide) hline)
      (not_cons_cut ht (by decide) hblock), if_pos hg]
    exact ih q _ rfl h hu
  | case4 p c cs hline hblock hg hc ih =>
    obtain ⟨ks, rfl, rfl⟩ := exists_kept_cons hcs (hle _ _ _ h)
    rw [List.cons_append, Inside.from, skip.eq_3 _ _ _ (not_cons_cut ht (by decide) hline)
      (not_cons_cut ht (by decide) hblock), if_neg hg, if_pos hc]
    exact ih q _ rfl h hu
  | case5 p c cs hline hblock hg hc =>
    obtain rfl : kept = more := List.append_cancel_right (hcs.trans h)
    obtain ⟨d, ks, rfl⟩ := List.exists_cons_of_ne_nil (hkept hcs hne)
    obtain ⟨rfl, rfl⟩ := List.cons.inj hcs
    rw [List.cons_append, Inside.from, skip.eq_3 _ _ _ (not_cons_cut ht (by decide) hline)
      (not_cons_cut ht (by decide) hblock), if_neg hg, if_neg hc]
    exact ⟨r, rfl⟩
  | case6 p c cs hc =>
    obtain rfl : kept = more := List.append_cancel_right (hcs.trans h)
    obtain ⟨d, ks, rfl⟩ := List.exists_cons_of_ne_nil (hkept hcs hne)
    obtain ⟨rfl, rfl⟩ := List.cons.inj hcs
    rw [List.cons_append, Inside.from, skip, if_pos hc]
    exact ⟨r, rfl⟩
  | case7 p c cs hc ih =>
    obtain ⟨ks, rfl, rfl⟩ := exists_kept_cons hcs (hle _ _ _ h)
    rw [List.cons_append, Inside.from, skip, if_neg hc]
    exact ih q _ rfl h hu
  | case8 start p cs ih =>
    obtain ⟨ks, rfl, rfl⟩ := exists_kept_cons_cons hcs (hle _ _ _ h)
    exact ih q _ rfl h hu
  | case9 start p c cs hend ih =>
    obtain ⟨ks, rfl, rfl⟩ := exists_kept_cons hcs (hle _ _ _ h)
    rw [List.cons_append, Inside.from, skip.eq_6 _ _ _ _ (not_cons_cut ht (by decide) hend)]
    exact ih q _ rfl h hu
  | case10 => cases hu
  | case11 | case12 =>
    obtain ⟨rfl, rfl⟩ := List.append_eq_nil_iff.mp h.symm
    obtain ⟨rfl, -⟩ := List.append_eq_nil_iff.mp hcs
    exact skip_of_newline _ r q r (hne.resolve_left (absurd rfl)).2 rfl

end Trivia

/-! ## Lexers -/

/-- Of the text of `lx`, what comes before `back` is the text of `lx'`, in front of `tail`. -/
structure Lexer.Cut (back tail : List Char) (lx lx' : Lexer) : Prop where
  stops : Stops tail
  rest : ∃ kept, lx.rest = kept ++ back ∧ lx'.rest = kept ++ tail
  entered : lx'.entered = lx.entered
  signAllowed : lx'.signAllowed = lx.signAllowed

namespace Lexer

variable {lx lx' mid mid' next next' : Lexer} {text text' : List Char} {t : Token} {n : Nat}

theorem Reads.suffix (h : lx.Reads text next) : next.rest <:+ lx.rest := ⟨text, h.rest.symm⟩

namespace Cut

theorem withLast (h : Cut back tail lx lx') (last : Option TokenKind) :
    Cut back tail { lx with last } { lx' with last } := ⟨h.stops, h.rest, h.entered, rfl⟩

theorem enter (h : Cut back tail lx lx') (mode : Mode) :
    Cut back tail (lx.enter mode) (lx'.enter mode) where
  stops := h.stops
  rest := h.rest
  entered := congrArg (mode :: ·) h.entered
  signAllowed := h.signAllowed

theorem leave (h : Cut back tail lx lx') : Cut back tail lx.leave lx'.leave where
  stops := h.stops
  rest := h.rest
  entered := congrArg List.tail h.entered
  signAllowed := h.signAllowed

theorem templatesLeft (h : Cut back tail lx lx') : lx'.templatesLeft = lx.templatesLeft := by
  rw [Lexer.templatesLeft, h.entered, Lexer.templatesLeft]

theorem rest_eq (h : Cut back tail lx lx') (hkept : lx.rest = kept ++ back) :
    lx'.rest = kept ++ tail := by
  obtain ⟨kept', hrest, hrest'⟩ := h.rest
  rwa [List.append_cancel_right (hrest.symm.trans hkept)] at hrest'

/-- Two lexers that stand behind `n` characters of what is kept. -/
theorem consume (h : Cut back tail lx lx') (hkept : lx.rest = kept ++ back) (hn : n ≤ kept.length) :
    Cut back tail (lx.consume n) (lx'.consume n) := by
  refine ⟨h.stops, ⟨kept.drop n, ?_, ?_⟩, h.entered, h.signAllowed⟩
  · rw [consume_rest, hkept, List.drop_append_of_le_length hn]
  · rw [consume_rest, h.rest_eq hkept, List.drop_append_of_le_length hn]

/-- What is read in front of `back` is read of the shorter text. -/
theorem reads_eq (h : Cut back tail lx lx') (hnext : Cut back tail next next') (hr : lx.Reads text next)
    (hr' : lx'.Reads text' next') : text' = text := by
  obtain ⟨kept, hkept, hkept'⟩ := h.rest
  obtain ⟨more, hmore, hmore'⟩ := hnext.rest
  have htext : kept = text ++ more := by
    refine (List.append_left_inj back).mp ?_
    rw [← hkept, hr.rest, hmore, List.append_assoc]
  have htext' : kept = text' ++ more := by
    refine (List.append_left_inj tail).mp ?_
    rw [← hkept', hr'.rest, hmore', List.append_assoc]
  exact List.append_cancel_right (htext'.symm.trans htext)

end Cut

/-- What is read in front of `back` is kept. -/
theorem exists_kept (hn : n ≤ lx.rest.length) (h : (lx.consume n).Reads text next)
    (hb : back <:+ next.rest) : ∃ kept, lx.rest = kept ++ back ∧ n + text.length ≤ kept.length := by
  obtain ⟨kept, hkept⟩ := hb
  refine ⟨lx.rest.take n ++ (text ++ kept), ?_, ?_⟩
  · have hrest := ((reads_consume lx n).trans h).rest
    rw [← hkept] at hrest
    simpa using hrest
  · simp only [List.length_append, List.length_take]
    omega

theorem skipTrivia_cut (h : Cut back tail lx lx') {u : Unit} (hs : lx.skipTrivia = .ok u mid)
    (hkept : mid.rest = kept ++ back)
    (hne : kept ≠ [] ∨ back = [] ∧ ∀ c ∈ tail.head?, c = '\n') :
    ∃ mid', lx'.skipTrivia = .ok () mid' ∧ Cut back tail mid mid' := by
  simp only [skipTrivia] at hs
  split at hs
  · rename_i hu
    simp only [Scan.ok.injEq, true_and] at hs
    subst hs
    obtain ⟨text, hrest, hrest'⟩ := h.rest
    rw [hrest] at hu hkept
    obtain ⟨stop, hstop⟩ :=
      Trivia.skip_cut .nothing lx.position lx'.position lx'.position h.stops hne hu hkept
    have hskip : Trivia.skip .nothing lx'.position lx'.rest = ⟨stop, kept ++ tail, none⟩ := by
      rw [hrest']
      exact hstop
    refine ⟨{ lx' with rest := kept ++ tail, position := stop }, ?_, h.stops, ⟨kept, ?_, rfl⟩,
      h.entered, h.signAllowed⟩
    · simp only [skipTrivia, hskip]
    · rw [hrest]
      exact hkept
  · cases hs

/-! ## Literals -/

/-- A template sequence in front of `back` is read of the shorter text. -/
def TemplateReader.Cuts (template : TemplateReader) : Prop :=
  ∀ {back tail lx lx' text next}, Cut back tail lx lx' → template.read lx = .ok text next →
    back <:+ next.rest → ∃ next', template.read lx' = .ok text next' ∧ Cut back tail next next'

variable {template : TemplateReader} {start start' : Position} {content : List Char}

/-- A template sequence is longer than its marker. -/
def TemplateReader.Marked (template : TemplateReader) : Prop :=
  ∀ {lx text next}, template.read lx = .ok text next → 2 ≤ text.length

theorem quotedPieces_cut (hx : template.Exact) (hm : template.Marked) (ht : template.Cuts)
    {decoded : List Char} (h : Cut back tail lx lx')
    (hq : quotedPieces template start decoded lx = .ok content next) (hb : back <:+ next.rest)
    (start' : Position) :
    ∃ next', quotedPieces template start' decoded lx' = .ok content next' ∧ Cut back tail next next' := by
  fun_induction quotedPieces template start decoded lx generalizing lx' with
  | case1 decoded lx piece n hp ih =>
    obtain ⟨text, htext⟩ := exists_reads_of_quotedPieces hx hq
    obtain ⟨kept, hkept, hn⟩ := exists_kept (Piece.length_le_of_ofQuoted hp) htext hb
    rw [hkept] at hp
    have hp' := Piece.ofQuoted_cut h.stops hp trivial (Nat.le_of_add_right_le hn)
    rw [quotedPieces_text ((congrArg _ (h.rest_eq hkept)).trans hp')]
    exact ih (h.consume hkept (Nat.le_of_add_right_le hn)) hq
  | case2 decoded lx hp piece after hr ih =>
    obtain ⟨text, htext⟩ := exists_reads_of_quotedPieces hx hq
    have hafter : back <:+ after.rest := hb.trans htext.suffix
    obtain ⟨after', hr', hcut⟩ := ht h hr hafter
    obtain ⟨kept, hkept, hkept'⟩ := h.rest
    obtain ⟨more, hmore⟩ := hafter
    have hlength : 2 ≤ kept.length := by
      have hall := congrArg List.length ((hx hr).rest.symm.trans hkept)
      have := hm hr
      simp only [← hmore, List.length_append] at hall
      omega
    rw [hkept] at hp
    have hp' := Piece.ofQuoted_cut h.stops hp trivial hlength
    rw [quotedPieces_template ((congrArg _ hkept').trans hp') hr']
    exact ih hcut hq
  | case4 decoded lx hp =>
    simp only [Scan.ok.injEq] at hq
    obtain ⟨rfl, rfl⟩ := hq
    have hone : 1 ≤ lx.rest.length := List.length_pos_iff.mpr (Piece.ne_nil_of_ofQuoted_eq_quote hp)
    obtain ⟨kept, hkept, hn⟩ := exists_kept hone (.refl _) hb
    rw [hkept] at hp
    have hp' := Piece.ofQuoted_cut h.stops hp trivial hn
    refine ⟨lx'.consume 1, ?_, h.consume hkept hn⟩
    rw [quotedPieces_quote ((congrArg _ (h.rest_eq hkept)).trans hp')]
  | _ => cases hq

/-- The line where `next` stands has its end in front of `back`, or one is put there. -/
def LineKept (back tail : List Char) (next : Lexer) : Prop :=
  ∃ kept, next.rest = kept ++ back ∧ Heredoc.LineKept kept tail

/-- If `r` is a token that stands in front of `back`, then `r'` is the same token. Behind a heredoc
its line must end. -/
def SameToken (back tail : List Char) (r r' : Scan Token) : Prop :=
  ∀ {t next}, r = .ok t next → t.kind ≠ .eof → back <:+ next.rest →
    (t.kind = .heredoc → LineKept back tail next) →
    ∃ t' next', r' = .ok t' next' ∧ t'.view = t.view ∧ Cut back tail next next'

theorem finish_cut (h : Cut back tail lx lx') (kind : TokenKind) (written : String) :
    SameToken back tail (lx.finish kind written start) (lx'.finish kind written start') := by
  intro t next hf _ _ _
  simp only [finish, Scan.ok.injEq] at hf
  obtain ⟨rfl, rfl⟩ := hf
  exact ⟨_, _, rfl, rfl, h.withLast _⟩

theorem quotedToken_cut (hx : template.Exact) (hm : template.Marked) (ht : template.Cuts)
    (h : Cut back tail lx lx') {cs : List Char} (hrest : lx.rest = '"' :: cs) :
    SameToken back tail (lx.quotedToken template) (lx'.quotedToken template) := by
  intro t next hq hk hb hl
  simp only [quotedToken] at hq ⊢
  split at hq
  · rename_i content after hpieces
    obtain ⟨text, htext⟩ := exists_reads_of_quotedPieces hx hpieces
    have hafter : back <:+ after.rest := by rwa [(rest_of_finish hq).1] at hb
    have hone : 1 ≤ (lx.enter .string).rest.length := by simp [hrest]
    obtain ⟨kept, hkept, hn⟩ := exists_kept hone htext hafter
    have hopen := (h.enter .string).consume hkept (Nat.le_of_add_right_le hn)
    obtain ⟨after', hpieces', hcut⟩ :=
      quotedPieces_cut hx hm ht hopen hpieces hafter lx'.position
    rw [hpieces']
    exact finish_cut hcut.leave _ _ hq hk hb hl
  · cases hq

/-! ## Heredocs -/

variable {opening : Heredoc.Opening} {lineStart : Bool} {read : List Char}

theorem length_heredocLines_lt (hm : opening.marker ≠ [])
    (h : heredocLines template opening start lineStart read lx = .ok content next) :
    next.rest.length < lx.rest.length := by
  fun_induction heredocLines template opening start lineStart read lx with
  | case1 lineStart read lx hc =>
    simp only [Scan.ok.injEq, Bool.and_eq_true] at h hc
    have hne := Heredoc.ne_nil_of_closes hm hc.2
    exact h.2 ▸ length_consume_lt (Heredoc.length_line_pos hm hc.2) hne
  | case2 lineStart read lx hc piece n hp ih =>
    exact Nat.lt_of_lt_of_le (ih h) (length_consume_le lx n)
  | case3 lineStart read lx hc hp piece after hr ih => exact Nat.lt_trans (ih h) (template.shorter hr)
  | _ => cases h

/-- A line that does not close the heredoc has an end. -/
theorem newline_mem_of_heredocLines (hx : template.Exact)
    (h : heredocLines template opening start lineStart read lx = .ok content next)
    (hc : ¬(lineStart && opening.closes lx.rest) = true) :
    ∃ text, lx.Reads text next ∧ '\n' ∈ text := by
  fun_induction heredocLines template opening start lineStart read lx with
  | case1 lineStart read lx hc' => exact absurd hc' hc
  | case2 lineStart read lx _ piece n hp ih =>
    by_cases hpiece : piece = ['\n']
    · subst hpiece
      obtain ⟨text, htext⟩ := exists_reads_of_heredocLines hx h
      exact ⟨_, (reads_consume lx n).trans htext,
        List.mem_append_left _ (Piece.newline_mem_of_ofHeredoc hp)⟩
    · obtain ⟨text, htext, hmem⟩ := ih h (by simp [hpiece])
      exact ⟨_, (reads_consume lx n).trans htext, List.mem_append_right _ hmem⟩
  | case3 lineStart read lx _ hp piece after hr ih =>
    obtain ⟨text, htext, hmem⟩ := ih h (by simp)
    exact ⟨_, (hx hr).trans htext, List.mem_append_right _ hmem⟩
  | _ => cases h

/-- Where the marker does not close the heredoc, its line is in what is kept, so a cut does not
close it either. -/
theorem not_closes_of_heredocLines (hx : template.Exact) (hb : back <:+ next.rest)
    (hc : ¬(lineStart && opening.closes lx.rest) = true) (hkept : lx.rest = kept ++ back)
    (hq : heredocLines template opening start lineStart read lx = .ok content next) :
    ¬(lineStart && opening.closes (kept ++ tail)) = true := by
  obtain ⟨text, htext, hmem⟩ := newline_mem_of_heredocLines hx hq hc
  obtain ⟨more, hmore⟩ := hb
  have hkept' : kept = text ++ more := List.append_cancel_right (hkept.symm.trans (by
    rw [htext.rest, ← hmore, List.append_assoc]))
  have hmem' : '\n' ∈ text ++ more := List.mem_append_left _ hmem
  rw [hkept, hkept', Heredoc.closes_append_of_mem hmem'] at hc
  rwa [hkept', Heredoc.closes_append_of_mem hmem']

theorem heredocLines_cut (hx : template.Exact) (hm : template.Marked) (ht : template.Cuts)
    (hmarker : opening.marker ≠ []) (hreturn : '\r' ∉ opening.marker) (h : Cut back tail lx lx')
    (hq : heredocLines template opening start lineStart read lx = .ok content next)
    (hl : LineKept back tail next) (start' : Position) :
    ∃ next', heredocLines template opening start' lineStart read lx' = .ok content next' ∧
      Cut back tail next next' := by
  obtain ⟨more, hmore, hl⟩ := hl
  have hb : back <:+ next.rest := ⟨more, hmore.symm⟩
  fun_induction heredocLines template opening start lineStart read lx generalizing lx' with
  | case1 lineStart read lx hc =>
    simp only [Scan.ok.injEq] at hq
    obtain ⟨rfl, rfl⟩ := hq
    obtain ⟨kept, hkept, hn⟩ :=
      exists_kept (Heredoc.inline_line.length_le lx.rest) (.refl _) hb
    simp only [Bool.and_eq_true, hkept] at hc
    have hle : (Heredoc.line (kept ++ back)).length ≤ kept.length := hkept ▸ hn
    have hl : Heredoc.LineKept kept tail := by
      refine hl.imp_left fun hmem => ?_
      rw [consume_rest, hkept, List.drop_append_of_le_length hle] at hmore
      rw [← List.append_cancel_right hmore] at hmem
      exact List.mem_of_mem_drop hmem
    have hline := Heredoc.line_cut hmarker hreturn hl hc.2 hle
    have hcloses := Heredoc.closes_cut hmarker hreturn hl hc.2 hle
    refine ⟨_, ?_, h.consume hkept hn⟩
    rw [heredocLines_eq, h.rest_eq hkept, hline, hkept, if_pos (by simp [hc.1, hcloses])]
  | case2 lineStart read lx hc piece n hp ih =>
    obtain ⟨text, htext⟩ := exists_reads_of_heredocLines hx hq
    obtain ⟨kept, hkept, hn⟩ := exists_kept (Piece.length_le_of_ofHeredoc hp) htext hb
    have hall : heredocLines template opening start lineStart read lx = .ok content next := by
      rw [heredocLines_eq, if_neg hc, hp]
      exact hq
    have hpos := (Piece.length_pos_of_ofHeredoc hp).1
    have hlt : n < kept.length := by
      have := length_heredocLines_lt hmarker hq
      rw [htext.rest, List.length_append] at this
      omega
    rw [hkept] at hp
    have hp' := Piece.ofHeredoc_cut h.stops hp hpos hlt
    rw [heredocLines_eq, h.rest_eq hkept,
      if_neg (not_closes_of_heredocLines hx hb hc hkept hall), hp']
    exact ih (h.consume hkept (Nat.le_of_lt hlt)) hq
  | case3 lineStart read lx hc hp piece after hr ih =>
    obtain ⟨text, htext⟩ := exists_reads_of_heredocLines hx hq
    have hafter : back <:+ after.rest := hb.trans htext.suffix
    obtain ⟨after', hr', hcut⟩ := ht h hr hafter
    obtain ⟨kept, hkept, hkept'⟩ := h.rest
    have hall : heredocLines template opening start lineStart read lx = .ok content next := by
      rw [heredocLines_eq, if_neg hc, hp]
      simp only [hr]
      exact hq
    have hlt : 2 < kept.length := by
      have hlonger := length_heredocLines_lt hmarker hq
      have hlength := congrArg List.length ((hx hr).rest.symm.trans hkept)
      have := hb.length_le
      have := hm hr
      simp only [List.length_append] at hlength
      omega
    rw [hkept] at hp
    have hp' := Piece.ofHeredoc_cut h.stops hp (Nat.succ_pos 1) hlt
    rw [heredocLines_eq, hkept', if_neg (not_closes_of_heredocLines hx hb hc hkept hall), hp']
    simp only [hr']
    exact ih hcut hq
  | _ => cases hq

/-- The first line of a heredoc in front of `back` is kept with its end. -/
theorem exists_kept_of_heredocToken (hx : template.Exact)
    (ho : Heredoc.opening? lx.rest = some opening) (h : lx.heredocToken template opening = .ok t next)
    (hb : back <:+ next.rest) :
    ∃ front kept, lx.rest = front ++ '\n' :: kept ++ back ∧ front.length = opening.length := by
  simp only [heredocToken] at h
  split at h
  · rename_i hn
    split at h
    · rename_i content after hl
      obtain ⟨text, htext⟩ := exists_reads_of_heredocLines hx hl
      obtain ⟨kept, hkept⟩ : back <:+ after.rest := by rwa [(rest_of_finish h).1] at hb
      obtain ⟨cs, hcs⟩ : ∃ cs, (lx.consume opening.length).rest = '\n' :: cs :=
        List.head?_eq_some_iff.mp hn
      have hbody : (((lx.consume opening.length).consume 1).enter .heredoc).rest = cs := by
        simp only [enter_rest, consume_rest] at hcs ⊢
        rw [hcs]
        rfl
      refine ⟨lx.rest.take opening.length, text ++ kept, ?_, ?_⟩
      · have hrest := (reads_consume lx opening.length).rest
        rw [hcs, ← hbody, htext.rest, ← hkept] at hrest
        simpa using hrest
      · exact List.length_take_of_le (Heredoc.length_le_of_opening? ho)
    · cases h
  · cases h

theorem heredocToken_cut (hx : template.Exact) (hm : template.Marked) (ht : template.Cuts)
    (h : Cut back tail lx lx') (ho : Heredoc.opening? lx.rest = some opening) :
    SameToken back tail (lx.heredocToken template opening) (lx'.heredocToken template opening) := by
  intro t next hq hk hb hl
  obtain ⟨front, kept, hkept, hlength⟩ := exists_kept_of_heredocToken hx ho hq hb
  have hbody : Cut back tail (lx.consume opening.length) (lx'.consume opening.length) :=
    h.consume hkept (by simp [← hlength])
  have hrest : (lx.consume opening.length).rest = '\n' :: kept ++ back := by
    rw [consume_rest, hkept, ← hlength]
    simp
  have hrest' := hbody.rest_eq hrest
  have hopen : Cut back tail (((lx.consume opening.length).consume 1).enter .heredoc)
      (((lx'.consume opening.length).consume 1).enter .heredoc) :=
    (hbody.consume hrest (by simp)).enter .heredoc
  simp only [heredocToken] at hq ⊢
  rw [if_pos (by rw [hrest]; rfl)] at hq
  rw [if_pos (by rw [hrest']; rfl)]
  split at hq
  · rename_i content after hlines
    have hafter : LineKept back tail after := by
      obtain ⟨more, hmore, hkept⟩ := hl (rest_of_finish hq).2
      rw [(rest_of_finish hq).1] at hmore
      exact ⟨more, hmore, hkept⟩
    obtain ⟨after', hlines', hcut⟩ := heredocLines_cut hx hm ht (Heredoc.marker_ne_nil ho)
      (Heredoc.return_notMem_marker ho) hopen hlines hafter lx'.position
    rw [hlines']
    exact finish_cut hcut.leave _ _ hq hk hb hl
  · cases hq

/-! ## Tokens -/

theorem plainToken_cut (h : Cut back tail lx lx') (kind : TokenKind) (hn : n ≤ lx.rest.length) :
    SameToken back tail (lx.plainToken kind n) (lx'.plainToken kind n) := by
  intro t next hq hk hb hl
  have hback : back <:+ (lx.consume n).rest := (rest_of_finish hq).1 ▸ hb
  obtain ⟨kept, hkept, hle⟩ := exists_kept hn (.refl _) hback
  have hcut := h.consume hkept (Nat.le_of_add_right_le hle)
  have htake : lx'.rest.take n = lx.rest.take n := by
    have hle : n ≤ kept.length := Nat.le_of_add_right_le hle
    rw [hkept, h.rest_eq hkept, List.take_append_of_le_length hle,
      List.take_append_of_le_length hle]
  simp only [plainToken, htake] at hq ⊢
  exact finish_cut hcut _ _ hq hk hb hl

theorem tokenAt_cut (hx : template.Exact) (hm : template.Marked) (ht : template.Cuts)
    (h : Cut back tail lx lx') {c : Char} {cs : List Char} (hrest : lx.rest = c :: cs) :
    SameToken back tail (lx.tokenAt template c) (lx'.tokenAt template c) := by
  intro t next hq hk hb hl
  obtain ⟨kept, hkept, hkept'⟩ := h.rest
  have hne : kept ≠ [] := by
    rintro rfl
    have hlt := length_tokenAt_lt hrest hq
    have := hb.length_le
    rw [hkept] at hlt
    simp only [List.nil_append] at hlt
    omega
  -- what is read is kept
  have hfits : ∀ {kind : TokenKind} {n : Nat}, n ≤ lx.rest.length →
      lx.plainToken kind n = .ok t next → n ≤ kept.length := fun hn hq => by
    have hback : back <:+ (lx.consume _).rest := (rest_of_finish hq).1 ▸ hb
    obtain ⟨kept', hkept', hle⟩ := exists_kept hn (.refl _) hback
    obtain rfl := List.append_cancel_right (hkept'.symm.trans hkept)
    exact Nat.le_of_add_right_le hle
  simp only [tokenAt] at hq ⊢
  split at hq
  · rename_i hc
    rw [if_pos hc]
    exact quotedToken_cut hx hm ht h (hc ▸ hrest) hq hk hb hl
  rename_i hc
  rw [if_neg hc]
  split at hq
  · rename_i opening ho
    obtain ⟨front, more, hfront, -⟩ := exists_kept_of_heredocToken hx ho hq hb
    obtain rfl := List.append_cancel_right (hfront.symm.trans hkept)
    rw [hkept', ← Heredoc.opening?_append_of_mem (by simp) back tail, ← hkept, ho]
    exact heredocToken_cut hx hm ht h ho hq hk hb hl
  rename_i ho
  rw [hkept] at ho
  rw [hkept', Heredoc.opening?_cut_eq_none h.stops ho, h.signAllowed]
  dsimp only
  split at hq
  · rename_i hn
    have hle := hfits (Lexeme.inline_numeral.length_le _) hq
    rw [hkept] at hn hle
    rw [Lexeme.numeralAhead_cut h.stops hne fun _ => hle, if_pos hn,
      Lexeme.local_numeral.cut _ _ h.stops hle, ← hkept]
    exact plainToken_cut h .number (Lexeme.inline_numeral.length_le _) hq hk hb hl
  rename_i hn
  rw [hkept] at hn
  rw [Lexeme.numeralAhead_cut h.stops hne fun hn' => absurd hn' hn, if_neg hn]
  split at hq
  · rename_i hi
    have hle := hfits (Lexeme.inline_word.length_le _) hq
    rw [hkept] at hle
    rw [if_pos hi, Lexeme.local_word.cut _ _ h.stops hle, ← hkept]
    exact plainToken_cut h _ (Lexeme.inline_word.length_le _) hq hk hb hl
  rename_i hi
  rw [if_neg hi]
  split at hq
  · rename_i kind n hf
    have hn := Lexeme.length_le_of_fixed? hf
    rw [hkept] at hf
    rw [Lexeme.fixed?_cut h.stops hf (hfits hn hq)]
    exact plainToken_cut h kind hn hq hk hb hl
  · cases hq

theorem token_cut (hx : template.Exact) (hm : template.Marked) (ht : template.Cuts)
    (h : Cut back tail lx lx') : SameToken back tail (lx.token template) (lx'.token template) := by
  intro t next hq hk hb hl
  simp only [token] at hq ⊢
  split at hq
  · cases hq
  rename_i mid hs
  split at hq
  · exact absurd (rest_of_finish hq).2 hk
  rename_i c cs hrest
  obtain ⟨text, hscans⟩ := exists_scans_of_tokenAt hx hrest hq
  obtain ⟨kept, hkept⟩ := hb.trans hscans.reads.suffix
  have hne : kept ≠ [] := by
    rintro rfl
    have hlt := length_tokenAt_lt hrest hq
    have := hb.length_le
    rw [← hkept, List.nil_append] at hlt
    omega
  obtain ⟨mid', hs', hcut⟩ := skipTrivia_cut h hs hkept.symm (.inl hne)
  obtain ⟨d, kept, rfl⟩ := List.exists_cons_of_ne_nil hne
  have hrest' := hcut.rest_eq hkept.symm
  obtain rfl : d = c := (List.cons.inj (hkept.trans hrest)).1
  rw [hs']
  simp only [hrest', List.cons_append]
  exact tokenAt_cut hx hm ht hcut hrest hq hk hb hl

/-! ## Template sequences -/

/-- A token in front of `back` is read of the shorter text. -/
def TokenReader.Cuts (reader : TokenReader) : Prop :=
  ∀ {back tail lx lx'}, Cut back tail lx lx' → SameToken back tail (reader.read lx) (reader.read lx')

/-- Behind a heredoc the next token is read up to the end of the line. -/
def TokenReader.EndsLines (reader : TokenReader) : Prop :=
  ∀ {lx mid next t u}, reader.read lx = .ok t mid → t.kind = .heredoc →
    reader.read mid = .ok u next → u.kind ≠ .eof → ∃ text, mid.Reads text next ∧ '\n' ∈ text

variable {reader : TokenReader}

theorem exists_of_templateTokens {depth : Nat} {u : Unit}
    (h : templateTokens reader start depth lx = .ok u next) :
    ∃ t mid, reader.read lx = .ok t mid ∧ t.kind ≠ .eof ∧
      (mid = next ∨ ∃ depth', templateTokens reader start depth' mid = .ok u next) := by
  rw [templateTokens_eq] at h
  split at h
  · cases h
  rename_i t mid ht
  split at h
  · cases h
  rename_i hk
  split at h
  · simp only [Scan.ok.injEq, true_and] at h
    exact ⟨t, mid, ht, hk, .inl h⟩
  · exact ⟨t, mid, ht, hk, .inr ⟨_, h⟩⟩

/-- A template sequence goes on behind the line on which a heredoc ends. -/
theorem newline_mem_of_templateTokens
    (hr : ∀ {lx t next}, reader.read lx = .ok t next → lx.Steps t next) (hl : reader.EndsLines)
    (ht : reader.read lx = .ok t mid) (hk : t.kind = .heredoc) {depth : Nat} {u : Unit}
    (h : templateTokens reader start depth mid = .ok u next) :
    ∃ text, mid.Reads text next ∧ '\n' ∈ text := by
  obtain ⟨v, after, hv, hkv, rfl | ⟨depth', hmore⟩⟩ := exists_of_templateTokens h
  · exact hl ht hk hv hkv
  · obtain ⟨text, htext, hmem⟩ := hl ht hk hv hkv
    obtain ⟨more, hmore⟩ := exists_reads_of_templateTokens hr hmore
    exact ⟨_, htext.trans hmore, List.mem_append_left _ hmem⟩

theorem templateTokens_cut (hr : ∀ {lx t next}, reader.read lx = .ok t next → lx.Steps t next)
    (hl : reader.EndsLines) (hc : reader.Cuts) {depth : Nat} {u : Unit} (h : Cut back tail lx lx')
    (hq : templateTokens reader start depth lx = .ok u next) (hb : back <:+ next.rest)
    (start' : Position) :
    ∃ next', templateTokens reader start' depth lx' = .ok u next' ∧ Cut back tail next next' := by
  fun_induction templateTokens reader start depth lx generalizing lx' with
  | case3 depth lx t after ht hk hd =>
    simp only [Scan.ok.injEq, true_and] at hq
    subst hq
    have hheredoc : t.kind ≠ .heredoc := fun hheredoc => by
      rw [hheredoc] at hd
      cases hd
    obtain ⟨t', after', ht', hview, hcut⟩ := hc h ht hk hb fun hk => absurd hk hheredoc
    obtain ⟨hkind, -⟩ := Prod.mk.inj hview
    refine ⟨after', ?_, hcut⟩
    rw [templateTokens_eq, ht']
    simp only [hkind, hk, if_false, hd]
  | case4 depth lx t after ht hk depth' hd ih =>
    obtain ⟨text, htext⟩ := exists_reads_of_templateTokens hr hq
    have hline : t.kind = .heredoc → LineKept back tail after := fun hheredoc => by
      obtain ⟨text, htext, hmem⟩ := newline_mem_of_templateTokens hr hl ht hheredoc hq
      obtain ⟨more, hmore⟩ := hb
      refine ⟨text ++ more, ?_, .inl (List.mem_append_left _ hmem)⟩
      rw [htext.rest, ← hmore, List.append_assoc]
    obtain ⟨t', after', ht', hview, hcut⟩ := hc h ht hk (hb.trans htext.suffix) hline
    obtain ⟨hkind, -⟩ := Prod.mk.inj hview
    rw [templateTokens_eq, ht']
    simp only [hkind, hk, if_false, hd]
    exact ih hcut hq
  | _ => cases hq

theorem exists_templateTokens_of_template {u : List Char} (h : lx.template reader = .ok u next) :
    ∃ after, templateTokens reader lx.position 0 ((lx.enter .interpolation).consume 2) =
      .ok () after ∧ u = lx.textUntil after ∧ next = after.leave := by
  simp only [template] at h
  split at h
  · cases h
  · rename_i after ht
    simp only [Scan.ok.injEq] at h
    exact ⟨after, ht, h.1.symm, h.2.symm⟩

theorem marked_ofTokenReader (hr : ∀ {lx t next}, reader.read lx = .ok t next → lx.Steps t next) :
    (TemplateReader.ofTokenReader reader).Marked := by
  intro lx text next h
  have hreads := exact_ofTokenReader hr h
  obtain ⟨after, ht, -, rfl⟩ := exists_templateTokens_of_template h
  obtain ⟨more, hmore⟩ := exists_reads_of_templateTokens hr ht
  have hall := ((reads_consume (lx.enter .interpolation) 2).trans hmore).leave
  have hlt := length_templateTokens_lt ht
  rw [← hreads.textUntil, hall.textUntil, List.length_append, List.length_take]
  simp only [consume_rest, enter_rest, List.length_drop] at hlt ⊢
  omega

theorem cuts_ofTokenReader (hr : ∀ {lx t next}, reader.read lx = .ok t next → lx.Steps t next)
    (hl : reader.EndsLines) (hc : reader.Cuts) : (TemplateReader.ofTokenReader reader).Cuts := by
  intro back tail lx lx' text next h hq hb
  have hreads := exact_ofTokenReader hr hq
  have hmarked := marked_ofTokenReader hr hq
  obtain ⟨after, ht, -, rfl⟩ := exists_templateTokens_of_template hq
  obtain ⟨more, hmore⟩ := hb
  have hkept : (lx.enter .interpolation).rest = text ++ more ++ back := by
    rw [enter_rest, hreads.rest, ← hmore, List.append_assoc]
  have hopen := (h.enter .interpolation).consume hkept (n := 2) (by
    rw [List.length_append]
    exact Nat.le_add_right_of_le hmarked)
  obtain ⟨after', ht', hcut⟩ :=
    templateTokens_cut hr hl hc hopen ht ⟨more, hmore⟩ lx'.position
  have hq' : (TemplateReader.ofTokenReader reader).read lx' =
      .ok (lx'.textUntil after') after'.leave := by
    simp only [TemplateReader.ofTokenReader, template, ht']
  have htext := h.reads_eq hcut.leave hreads (exact_ofTokenReader hr hq')
  exact ⟨after'.leave, htext ▸ hq', hcut.leave⟩

theorem cuts_templateReader (n : Nat) :
    (templateReader n).Marked ∧ (templateReader n).Cuts := by
  induction n with
  | zero =>
    refine ⟨?_, ?_⟩
    · intro lx text next h
      cases h
    · intro back tail lx lx' text next _ h
      cases h
  | succ n ih =>
    have hr : ∀ {lx t next}, (TokenReader.ofTemplateReader (templateReader n)).read lx = .ok t next →
        lx.Steps t next := fun h => steps_of_token (exact_templateReader n) h
    have hl : (TokenReader.ofTemplateReader (templateReader n)).EndsLines :=
      fun ht hk hu hku => (newline_of_token (line_eq_nil_of_token ht hk) hu hku).2
    exact ⟨marked_ofTokenReader hr,
      cuts_ofTokenReader hr hl fun h => token_cut (exact_templateReader n) ih.1 ih.2 h⟩

/-! ## Streams -/

theorem next_cut (h : Cut back tail lx lx') : SameToken back tail lx.next lx'.next := by
  obtain ⟨hm, ht⟩ := cuts_templateReader lx.templatesLeft
  rw [next, next, h.templatesLeft]
  exact token_cut (exact_templateReader _) hm ht h

theorem Emits.cut {ts : List Token} (h : Emits lx ts next) (hcut : Cut back tail lx lx')
    (hb : back <:+ next.rest) (hl : ∀ c ∈ tail.head?, c = '\n') :
    ∃ ts' next', Emits lx' ts' next' ∧ ts'.map Token.view = ts.map Token.view ∧
      Cut back tail next next' := by
  induction h generalizing lx' with
  | nil => exact ⟨[], lx', .nil, rfl, hcut⟩
  | @cons lx mid next t ts hn hk hmore ih =>
    obtain ⟨text, htext⟩ := hmore.exists_reads
    have hmidrest := hb.trans htext.suffix
    obtain ⟨more, hmore⟩ := id hmidrest
    obtain ⟨t', mid', hn', hview, hmid⟩ :=
      next_cut hcut hn hk hmidrest fun _ => ⟨more, hmore.symm, .inr hl⟩
    obtain ⟨ts', next', hts', hviews, hnext⟩ := ih hmid hb
    have hk' : t'.kind ≠ .eof := by rwa [show t'.kind = t.kind from congrArg Prod.fst hview]
    exact ⟨t' :: ts', next', .cons hn' hk' hts', by rw [List.map_cons, List.map_cons, hview, hviews],
      hnext⟩

end Lexer

end Hcl
