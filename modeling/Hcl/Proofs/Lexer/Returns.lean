import Hcl.Proofs.Lexer.ReturnLexemes
import Hcl.Proofs.Text.Shift

/-!
# Line ends do not matter

A text without carriage returns is read as the same tokens, on the same lines, when every line break
gets a carriage return in front of it. The texts of the tokens differ in carriage returns only, which
come from template sequences that are kept as written.
-/

namespace Hcl

open Text

/-- The text of a token without its carriage returns, with the kind and the line of the token. -/
def Token.lineView (t : Token) : TokenKind × Nat × List Char :=
  (t.kind, t.span.start.line, t.text.toList.filter (· != '\r'))

namespace Lexer

/-- The text of `lx'` is that of `lx` with other line ends, given by `form`. -/
structure Returned (form : List Char → List Char) (lx lx' : Lexer) : Prop where
  rest : lx'.rest = form lx.rest
  clean : '\r' ∉ lx.rest
  line : lx'.position.line = lx.position.line
  entered : lx'.entered = lx.entered
  last : lx'.last = lx.last

variable {form : List Char → List Char} {lx lx' mid next next' : Lexer} {n : Nat}
  {kept back text : List Char}

namespace Returned

theorem enter (h : Returned form lx lx') (mode : Mode) :
    Returned form (lx.enter mode) (lx'.enter mode) where
  rest := h.rest
  clean := h.clean
  line := h.line
  entered := congrArg (mode :: ·) h.entered
  last := h.last

theorem leave (h : Returned form lx lx') : Returned form lx.leave lx'.leave where
  rest := h.rest
  clean := h.clean
  line := h.line
  entered := congrArg List.tail h.entered
  last := h.last

theorem withLast (h : Returned form lx lx') (last : Option TokenKind) :
    Returned form { lx with last } { lx' with last } where
  rest := h.rest
  clean := h.clean
  line := h.line
  entered := h.entered
  last := rfl

theorem templatesLeft (h : Returned form lx lx') : lx'.templatesLeft = lx.templatesLeft := by
  rw [Lexer.templatesLeft, h.entered, Lexer.templatesLeft]

theorem consume (h : Returned withReturns lx lx') (hn : '\n' ∉ lx.rest.take n) :
    Returned withReturns (lx.consume n) (lx'.consume n) where
  rest := by rw [consume_rest, h.rest, drop_withReturns hn, consume_rest]
  clean hmem := h.clean (List.mem_of_mem_drop hmem)
  line := by
    simp only [Lexer.consume, Position.line_after]
    rw [h.rest, take_withReturns hn, h.line]
  entered := h.entered
  last := h.last

/-- A line break is two characters in the other form. -/
theorem consume_newline (h : Returned withReturns lx lx') {cs : List Char}
    (hrest : lx.rest = '\n' :: cs) :
    Returned withReturns (lx.consume 1) ((lx'.consume 1).consume 1) where
  rest := by simp [h.rest, hrest]
  clean hmem := h.clean (List.mem_of_mem_drop hmem)
  line := by
    have hrest' : lx'.rest = '\r' :: '\n' :: withReturns cs := by rw [h.rest, hrest, withReturns_newline]
    simp [Lexer.consume, hrest, hrest', Position.next, h.line]
  entered := h.entered
  last := h.last

/-- Up to the end of a line the texts are the same. -/
theorem cut (h : Returned withReturns lx lx') (hrest : lx.rest = kept ++ back) (hkept : '\n' ∉ kept)
    (hback : ∀ c ∈ back.head?, c = '\n') : Cut back (withReturns back) lx lx' where
  stops := by
    cases back with
    | nil => exact stops_nil
    | cons c cs =>
      obtain rfl := hback c rfl
      exact stops_return _
  rest := ⟨kept, hrest, by rw [h.rest, hrest, withReturns_append, withReturns_of_notMem hkept]⟩
  entered := h.entered
  signAllowed := by rw [signAllowed, h.last, signAllowed]

end Returned

/-! ## Skipped text -/

theorem skipTrivia_returns (h : Returned withReturns lx lx') {u : Unit}
    (hs : lx.skipTrivia = .ok u mid) :
    ∃ mid', lx'.skipTrivia = .ok () mid' ∧ Returned afterReturn mid mid' := by
  obtain ⟨gap, hreads, -, hlast⟩ := reads_of_skipTrivia hs
  have hskip : ∃ mid', lx'.skipTrivia = .ok () mid' ∧ mid'.rest = afterReturn mid.rest := by
    simp only [skipTrivia] at hs
    split at hs
    · rename_i hu
      simp only [Scan.ok.injEq, true_and] at hs
      subst hs
      generalize hrest : (Trivia.skip .nothing lx.position lx.rest).rest = rest
      obtain ⟨stop, hstop⟩ := Trivia.skip_withReturns .nothing lx.position lx'.position lx'.position
        lx.rest hu
      rw [hrest, ← h.rest, Trivia.Inside.from] at hstop
      exact ⟨{ lx' with rest := afterReturn rest, position := stop }, by simp only [skipTrivia, hstop],
        rfl⟩
    · cases hs
  obtain ⟨mid', hs', hrest'⟩ := hskip
  obtain ⟨gap', hreads', -, hlast'⟩ := reads_of_skipTrivia hs'
  refine ⟨mid', hs', hrest', ?_, ?_, ?_, ?_⟩
  · intro hmem
    exact h.clean (by rw [hreads.rest]; exact List.mem_append_right _ hmem)
  · -- as many line breaks are left, so as many were skipped
    have hcount := congrArg (List.count '\n') hreads.rest
    have hcount' := congrArg (List.count '\n') hreads'.rest
    rw [h.rest, hrest', count_withReturns, List.count_append, count_afterReturn] at hcount'
    rw [List.count_append] at hcount
    rw [hreads.position, hreads'.position, Position.line_after, Position.line_after, h.line]
    omega
  · rw [hreads'.entered, hreads.entered, h.entered]
  · rw [hlast', hlast, h.last]

/-! ## Literals -/

/-- Behind its marker a template sequence is read with the line ends it has. -/
def TemplateReader.Returns (template : TemplateReader) : Prop :=
  ∀ {lx lx' text next}, Returned withReturns lx lx' → '\n' ∉ lx.rest.take 2 →
    template.read lx = .ok text next →
    ∃ next', template.read lx' = .ok (withReturns text) next' ∧ Returned withReturns next next'

/-- The same token, but for line ends, if there is one. -/
def SameLine (r r' : Scan Token) : Prop :=
  ∀ {t next}, r = .ok t next →
    ∃ t' next', r' = .ok t' next' ∧ t'.lineView = t.lineView ∧ Returned withReturns next next'

variable {template : TemplateReader} {start start' : Position} {content content' : List Char}

theorem finish_returns (h : Returned withReturns lx lx') (hstart : start'.line = start.line)
    (hc : AddsReturns content content') (kind : TokenKind) :
    SameLine (lx.finish kind (String.ofList content) start)
      (lx'.finish kind (String.ofList content') start') := by
  intro t next hf
  simp only [finish, Scan.ok.injEq] at hf
  obtain ⟨rfl, rfl⟩ := hf
  refine ⟨_, _, rfl, ?_, h.withLast _⟩
  simp only [Token.lineView, spanFrom, hstart, String.toList_ofList, hc.filter_eq]

theorem addsReturns_reverseAux {read read' piece piece' : List Char}
    (h : AddsReturns read.reverse read'.reverse) (hp : AddsReturns piece piece') :
    AddsReturns (piece.reverseAux read).reverse (piece'.reverseAux read').reverse := by
  simpa [List.reverseAux_eq] using h.append hp

theorem quotedPieces_returns (ht : template.Returns) {decoded decoded' : List Char}
    (h : Returned withReturns lx lx') (hd : AddsReturns decoded.reverse decoded'.reverse)
    (hq : quotedPieces template start decoded lx = .ok content next) (start' : Position) :
    ∃ content' next', quotedPieces template start' decoded' lx' = .ok content' next' ∧
      AddsReturns content content' ∧ Returned withReturns next next' := by
  fun_induction quotedPieces template start decoded lx generalizing lx' decoded' with
  | case1 decoded lx piece n hp ih =>
    obtain ⟨hp', hn⟩ := @Piece.ofQuoted_withReturns lx.rest (hp ▸ trivial)
    rw [hp] at hp' hn
    rw [quotedPieces_text (h.rest ▸ hp')]
    exact ih (h.consume hn) (addsReturns_reverseAux hd (.refl piece)) hq
  | case2 decoded lx hp piece after hr ih =>
    obtain ⟨hp', hn⟩ := @Piece.ofQuoted_withReturns lx.rest (hp ▸ trivial)
    rw [hp] at hp' hn
    obtain ⟨after', hr', hafter⟩ := ht h hn hr
    rw [quotedPieces_template (h.rest ▸ hp') hr']
    exact ih hafter (addsReturns_reverseAux hd (.withReturns piece)) hq
  | case4 decoded lx hp =>
    simp only [Scan.ok.injEq] at hq
    obtain ⟨rfl, rfl⟩ := hq
    obtain ⟨hp', hn⟩ := @Piece.ofQuoted_withReturns lx.rest (hp ▸ trivial)
    rw [hp] at hp' hn
    exact ⟨_, _, quotedPieces_quote (h.rest ▸ hp'), hd, h.consume hn⟩
  | _ => cases hq

theorem quotedToken_returns (ht : template.Returns) (h : Returned withReturns lx lx')
    {cs : List Char} (hrest : lx.rest = '"' :: cs) :
    SameLine (lx.quotedToken template) (lx'.quotedToken template) := by
  intro t next hq
  simp only [quotedToken] at hq ⊢
  split at hq
  · rename_i content after hpieces
    have hopen : Returned withReturns ((lx.enter .string).consume 1) ((lx'.enter .string).consume 1) :=
      (h.enter .string).consume (by simp [hrest])
    have hnil : AddsReturns ([] : List Char).reverse ([] : List Char).reverse := .nil
    obtain ⟨content', after', hpieces', hc, hafter⟩ :=
      quotedPieces_returns ht hopen hnil hpieces lx'.position
    rw [hpieces']
    exact finish_returns hafter.leave h.line hc _ hq
  · cases hq

/-! ## Heredocs -/

variable {opening : Heredoc.Opening} {lineStart : Bool} {read read' : List Char}

/-- The carriage return in front of a line break stands for nothing. -/
theorem heredocLines_return {cs : List Char} (hrest : lx.rest = '\r' :: '\n' :: cs)
    (hc : ¬(lineStart && opening.closes lx.rest) = true) :
    heredocLines template opening start lineStart read lx =
      heredocLines template opening start true ('\n' :: read) ((lx.consume 1).consume 1) := by
  have hreturn : Piece.ofHeredoc lx.rest = .text [] 1 := by simp [hrest, Piece.ofHeredoc]
  have hnewline : Piece.ofHeredoc (lx.consume 1).rest = .text ['\n'] 1 := by
    simp [hrest, Piece.ofHeredoc]
  rw [heredocLines_eq, if_neg hc, hreturn]
  dsimp only
  rw [heredocLines_eq, if_neg (by simp), hnewline]
  rfl

theorem heredocLines_returns (ht : template.Returns) (h : Returned withReturns lx lx')
    (hread : AddsReturns read.reverse read'.reverse) (length : Nat)
    (hq : heredocLines template opening start lineStart read lx = .ok content next)
    (start' : Position) :
    ∃ content' next',
      heredocLines template { opening with length } start' lineStart read' lx' = .ok content' next' ∧
        AddsReturns content content' ∧ Returned withReturns next next' := by
  have hcloses : ∀ {lx lx' : Lexer}, Returned withReturns lx lx' →
      Heredoc.Opening.closes { opening with length } lx'.rest = opening.closes lx.rest :=
    fun h => h.rest ▸ Heredoc.closes_withReturns h.clean
  fun_induction heredocLines template opening start lineStart read lx generalizing lx' read' with
  | case1 lineStart read lx hc =>
    simp only [Scan.ok.injEq] at hq
    obtain ⟨rfl, rfl⟩ := hq
    have hline : Heredoc.line lx'.rest = Heredoc.line lx.rest :=
      h.rest ▸ Heredoc.line_withReturns h.clean
    refine ⟨_, _, ?_, hread, h.consume (n := (Heredoc.line lx.rest).length) ?_⟩
    · rw [heredocLines_eq, hcloses h, if_pos hc, hline]
    · rw [Heredoc.inline_line.take]
      exact Heredoc.inline_line.newline _
  | case2 lineStart read lx hc piece n hp ih =>
    rw [← hcloses h] at hc
    by_cases hnewline : lx.rest.head? = some '\n'
    · obtain ⟨cs, hrest⟩ := List.head?_eq_some_iff.mp hnewline
      rw [hrest] at hp
      obtain ⟨rfl, rfl⟩ := Piece.text.inj hp
      have hrest' : lx'.rest = '\r' :: '\n' :: withReturns cs := by
        rw [h.rest, hrest, withReturns_newline]
      rw [heredocLines_return hrest' hc]
      exact ih (h.consume_newline hrest) (addsReturns_reverseAux hread (.refl ['\n'])) hq
    · obtain ⟨hp', hn⟩ := Piece.ofHeredoc_withReturns hnewline h.clean
      rw [hp] at hp' hn
      rw [heredocLines_eq, if_neg hc, h.rest, hp']
      exact ih (h.consume hn) (addsReturns_reverseAux hread (.refl piece)) hq
  | case3 lineStart read lx hc hp piece after hr ih =>
    rw [← hcloses h] at hc
    have hnewline : lx.rest.head? ≠ some '\n' := fun hnewline => by
      obtain ⟨cs, hrest⟩ := List.head?_eq_some_iff.mp hnewline
      rw [hrest] at hp
      cases hp
    obtain ⟨hp', hn⟩ := Piece.ofHeredoc_withReturns hnewline h.clean
    rw [hp] at hp' hn
    rw [← h.rest] at hp'
    obtain ⟨after', hr', hafter⟩ := ht h hn hr
    rw [heredocLines_eq, if_neg hc, hp']
    simp only [hr']
    exact ih hafter (addsReturns_reverseAux hread (.withReturns piece)) hq
  | _ => cases hq

theorem consume_add (lx : Lexer) (m n : Nat) : lx.consume (m + n) = (lx.consume m).consume n := by
  simp only [consume, List.drop_drop, List.take_add, Position.after_append]

theorem heredocToken_returns (ht : template.Returns) (h : Returned withReturns lx lx')
    (ho : Heredoc.opening? lx.rest = some opening) {t : Token}
    (hq : lx.heredocToken template opening = .ok t next) :
    ∃ t' next', Heredoc.opening? lx'.rest = some { opening with length := opening.length + 1 } ∧
      lx'.heredocToken template { opening with length := opening.length + 1 } = .ok t' next' ∧
      t'.lineView = t.lineView ∧ Returned withReturns next next' := by
  simp only [heredocToken] at hq
  split at hq
  · rename_i hhead
    obtain ⟨cs, hbody⟩ := List.head?_eq_some_iff.mp hhead
    have hlength : (lx.rest.take opening.length).length = opening.length :=
      List.length_take_of_le (Heredoc.length_le_of_opening? ho)
    have hrest : lx.rest = lx.rest.take opening.length ++ '\n' :: cs :=
      hbody ▸ (reads_consume lx opening.length).rest
    rw [hrest] at ho
    obtain ⟨hfront, ho'⟩ := Heredoc.opening?_withReturns ho hlength
    have hopen : Returned withReturns ((lx.consume opening.length).consume 1)
        ((lx'.consume (opening.length + 1)).consume 1) := by
      rw [consume_add lx']
      exact (h.consume hfront).consume_newline hbody
    have hbody' : (lx'.consume opening.length).rest = '\r' :: '\n' :: withReturns cs := by
      rw [(h.consume hfront).rest, hbody, withReturns_newline]
    have hhead' : (lx'.consume (opening.length + 1)).rest.head? = some '\n' := by
      rw [consume_add, consume_rest, hbody']
      rfl
    have hrest' : lx'.rest = lx.rest.take opening.length ++ '\r' :: '\n' :: withReturns cs := by
      rw [(reads_consume lx' opening.length).rest, hbody', h.rest, take_withReturns hfront]
    split at hq
    · rename_i content after hlines
      have hnil : AddsReturns ([] : List Char).reverse ([] : List Char).reverse := .nil
      obtain ⟨content', after', hlines', hc, hafter⟩ := heredocLines_returns ht
        (hopen.enter .heredoc) hnil (opening.length + 1) hlines lx'.position
      have htext : AddsReturns (if opening.flush then Heredoc.dedent content else content)
          (if opening.flush then Heredoc.dedent content' else content') := by
        split
        · exact Heredoc.addsReturns_dedent hc
        · exact hc
      obtain ⟨t', next', hf, hview⟩ := finish_returns hafter.leave h.line htext .heredoc hq
      refine ⟨t', next', hrest' ▸ ho' _, ?_, hview⟩
      simp only [heredocToken, hhead', if_true, hlines', hf]
    · cases hq
  · cases hq

/-! ## Tokens -/

/-- A token that is neither a literal nor a line break is within its line. -/
theorem exists_scans_within_line (hx : template.Exact) {c : Char} {cs : List Char}
    (hrest : lx.rest = c :: cs) (hquote : c ≠ '"') (hnewline : c ≠ '\n')
    (ho : Heredoc.opening? lx.rest = none) {t : Token} (h : lx.tokenAt template c = .ok t next) :
    ∃ text, lx.Scans t text next ∧ '\n' ∉ text ∧ t.kind ≠ .heredoc := by
  obtain ⟨text, hscans⟩ := exists_scans_of_tokenAt hx hrest h
  have hplain : ∀ {kind : TokenKind} {n : Nat}, '\n' ∉ lx.rest.take n → kind ≠ .heredoc →
      lx.plainToken kind n = .ok t next → '\n' ∉ text ∧ t.kind ≠ .heredoc := by
    intro kind n hn hk hq
    simp only [plainToken, finish, Scan.ok.injEq] at hq
    obtain ⟨rfl, rfl⟩ := hq
    have htext : text = lx.rest.take n :=
      List.append_cancel_right (hscans.reads.rest.symm.trans (reads_consume lx n).rest)
    exact ⟨htext ▸ hn, hk⟩
  refine ⟨text, hscans, ?_⟩
  simp only [tokenAt, if_neg hquote, ho] at h
  split at h
  · refine hplain ?_ (by simp) h
    rw [Lexeme.inline_numeral.take]
    exact Lexeme.inline_numeral.newline _
  split at h
  · refine hplain ?_ (fun hk => ?_) h
    · rw [Lexeme.inline_word.take]
      exact Lexeme.inline_word.newline _
    · have hword := kind_of_wordKind (Lexeme.word lx.rest)
      simp [hk] at hword
  split at h
  · rename_i kind n hf
    refine hplain (Lexeme.newline_of_fixed? hf fun hk => ?_) (not_literal_of_fixed? hf).2.1 h
    have htake := (kind_of_fixed? hf).2.1 hk
    rw [hrest] at htake
    cases n with
    | zero => cases htake
    | succ n => exact hnewline (List.cons.inj htake).1
  · cases h

theorem tokenAt_returns (n : Nat) (ht : (templateReader n).Returns) (h : Returned withReturns lx lx')
    {c : Char} {cs : List Char} (hrest : lx.rest = c :: cs) (hc : c ≠ '\n') :
    SameLine (lx.tokenAt (templateReader n) c) (lx'.tokenAt (templateReader n) c) := by
  intro t next hq
  have hx : (templateReader n).Exact := exact_templateReader n
  by_cases hquote : c = '"'
  · subst hquote
    simp only [tokenAt, if_true] at hq ⊢
    exact quotedToken_returns ht h hrest hq
  cases ho : Heredoc.opening? lx.rest with
  | some opening =>
    simp only [tokenAt, if_neg hquote, ho] at hq
    obtain ⟨t', next', ho', hq', hview, hnext⟩ := heredocToken_returns ht h ho hq
    refine ⟨t', next', ?_, hview, hnext⟩
    simp only [tokenAt, if_neg hquote, ho', hq']
  | none =>
    obtain ⟨text, hscans, htext, hk⟩ := exists_scans_within_line hx hrest hquote hc ho hq
    -- the token is read in front of the end of its line
    obtain ⟨kept, back, hnext, hkept, hback⟩ := Heredoc.exists_line_end next.rest
    have hline : '\n' ∉ text ++ kept := by simp [htext, hkept]
    have hcut := h.cut (by rw [hscans.reads.rest, hnext, List.append_assoc]) hline hback
    obtain ⟨hm, hcuts⟩ := cuts_templateReader n
    obtain ⟨t', next', hq', hview, hcut'⟩ := tokenAt_cut hx hm hcuts hcut hrest hq hscans.ne_eof
      ⟨kept, hnext.symm⟩ fun hk' => absurd hk' hk
    have hrest' : lx'.rest = c :: withReturns cs := by rw [h.rest, hrest, withReturns_cons hc]
    obtain ⟨text', hscans'⟩ := exists_scans_of_tokenAt hx hrest' hq'
    obtain rfl := hcut.reads_eq hcut' hscans.reads hscans'.reads
    have hkind : t'.kind = t.kind := congrArg Prod.fst hview
    refine ⟨t', next', hq', ?_, ?_⟩
    · simp only [Token.lineView, hkind, hscans.span, hscans'.span, h.line,
        show t'.text = t.text from congrArg Prod.snd hview]
    · exact {
        rest := by
          rw [hcut'.rest_eq hnext, hnext, withReturns_append, withReturns_of_notMem hkept]
        clean := fun hmem => h.clean (by rw [hscans.reads.rest]; exact List.mem_append_right _ hmem)
        line := by
          rw [hscans.reads.position, hscans'.reads.position, Position.line_after,
            Position.line_after, h.line]
        entered := hcut'.entered
        last := by rw [hscans.last, hscans'.last, hkind] }

/-- A line break is one token in both forms. -/
theorem newlineToken_returns (h : Returned afterReturn lx lx') {cs : List Char}
    (hrest : lx.rest = '\n' :: cs) :
    SameLine (lx.tokenAt template '\n') (lx'.tokenAt template '\n') := by
  have hrest' : lx'.rest = '\n' :: withReturns cs := by rw [h.rest, hrest, afterReturn]
  rw [tokenAt_newline template hrest, tokenAt_newline template hrest']
  have hnext : Returned withReturns (lx.consume 1) (lx'.consume 1) := {
    rest := by simp [hrest, hrest']
    clean := fun hmem => h.clean (List.mem_of_mem_drop hmem)
    line := by simp [consume, hrest, hrest', Position.next, h.line]
    entered := h.entered
    last := h.last }
  simp only [plainToken, hrest, hrest', List.take_succ_cons, List.take_zero]
  intro t next hq
  exact finish_returns hnext h.line (.refl _) .newline hq

theorem token_returns (n : Nat) (ht : (templateReader n).Returns) (h : Returned withReturns lx lx') :
    SameLine (lx.token (templateReader n)) (lx'.token (templateReader n)) := by
  intro t next hq
  simp only [token] at hq ⊢
  split at hq
  · cases hq
  rename_i mid hs
  obtain ⟨mid', hs', hmid⟩ := skipTrivia_returns h hs
  rw [hs']
  split at hq
  · rename_i hrest
    have hrest' : mid'.rest = [] := by rw [hmid.rest, hrest, afterReturn]
    have hend : Returned withReturns mid mid' := { hmid with rest := by rw [hrest, hrest']; rfl }
    simp only [hrest']
    exact finish_returns hend hmid.line .nil .eof hq
  · rename_i c cs hrest
    have hrest' : mid'.rest = c :: withReturns cs := by rw [hmid.rest, hrest, afterReturn]
    simp only [hrest']
    by_cases hc : c = '\n'
    · subst hc
      exact newlineToken_returns hmid hrest hq
    · have hmid' : Returned withReturns mid mid' :=
        { hmid with rest := by rw [hrest', hrest, withReturns_cons hc] }
      exact tokenAt_returns n ht hmid' hrest hc hq

/-! ## Template sequences -/

/-- A token is read with the line ends it has. -/
def TokenReader.Returns (reader : TokenReader) : Prop :=
  ∀ {lx lx'}, Returned withReturns lx lx' → SameLine (reader.read lx) (reader.read lx')

variable {reader : TokenReader}

theorem templateTokens_returns (hr : reader.Returns) {depth : Nat} {u : Unit}
    (h : Returned withReturns lx lx') (hq : templateTokens reader start depth lx = .ok u next)
    (start' : Position) :
    ∃ next', templateTokens reader start' depth lx' = .ok u next' ∧ Returned withReturns next next' := by
  fun_induction templateTokens reader start depth lx generalizing lx' with
  | case3 depth lx t after ht hk hd =>
    simp only [Scan.ok.injEq, true_and] at hq
    subst hq
    obtain ⟨t', after', ht', hview, hafter⟩ := hr h ht
    have hkind : t'.kind = t.kind := congrArg Prod.fst hview
    refine ⟨after', ?_, hafter⟩
    rw [templateTokens_eq, ht']
    simp only [hkind, hk, if_false, hd]
  | case4 depth lx t after ht hk depth' hd ih =>
    obtain ⟨t', after', ht', hview, hafter⟩ := hr h ht
    have hkind : t'.kind = t.kind := congrArg Prod.fst hview
    rw [templateTokens_eq, ht']
    simp only [hkind, hk, if_false, hd]
    exact ih hafter hq
  | _ => cases hq

theorem returns_ofTokenReader (hs : ∀ {lx t next}, reader.read lx = .ok t next → lx.Steps t next)
    (hr : reader.Returns) : (TemplateReader.ofTokenReader reader).Returns := by
  intro lx lx' text next h hopen hq
  have hreads := exact_ofTokenReader hs hq
  obtain ⟨after, htokens, -, rfl⟩ := exists_templateTokens_of_template hq
  obtain ⟨after', htokens', hafter⟩ :=
    templateTokens_returns hr ((h.enter .interpolation).consume hopen) htokens lx'.position
  have hq' : (TemplateReader.ofTokenReader reader).read lx' =
      .ok (lx'.textUntil after') after'.leave := by
    simp only [TemplateReader.ofTokenReader, template, htokens']
  have hreads' := exact_ofTokenReader hs hq'
  have htext : lx'.textUntil after' = withReturns text := by
    refine @List.append_cancel_right _ _ after'.leave.rest _ ?_
    rw [← hreads'.rest, h.rest, hreads.rest, withReturns_append, hafter.leave.rest]
  exact ⟨after'.leave, htext ▸ hq', hafter.leave⟩

theorem returns_templateReader (n : Nat) : (templateReader n).Returns := by
  induction n with
  | zero =>
    intro lx lx' text next _ _ h
    cases h
  | succ n ih =>
    exact returns_ofTokenReader (fun h => steps_of_token (exact_templateReader n) h) fun h =>
      token_returns n ih h

/-! ## Streams -/

theorem next_returns (h : Returned withReturns lx lx') : SameLine lx.next lx'.next := by
  rw [next, next, h.templatesLeft]
  exact token_returns _ (returns_templateReader _) h

theorem stream_returns (h : Returned withReturns lx lx') {p : Position}
    (hend : lx.stream.ending = .ok p) :
    ∃ q, lx'.stream.ending = .ok q ∧ q.line = p.line ∧
      lx'.stream.tokens.map Token.lineView = lx.stream.tokens.map Token.lineView := by
  fun_induction Lexer.stream lx generalizing lx' with
  | case1 lx cause after hn => cases hend
  | case2 lx t next hn hk =>
    simp only [Except.ok.injEq] at hend
    subst hend
    obtain ⟨t', next', hn', hview, -⟩ := next_returns h hn
    have hk' : t'.kind = .eof := (congrArg Prod.fst hview).trans hk
    rw [stream_of_eof hn' hk']
    exact ⟨_, rfl, congrArg (·.2.1) hview, rfl⟩
  | case3 lx t next hn hk more =>
    rename_i ih
    obtain ⟨t', next', hn', hview, hnext⟩ := next_returns h hn
    have hk' : t'.kind ≠ .eof := by rwa [show t'.kind = t.kind from congrArg Prod.fst hview]
    obtain ⟨q, hq, hline, hviews⟩ := ih hnext hend
    rw [stream_of_next hn' hk']
    exact ⟨q, hq, hline, by rw [List.map_cons, List.map_cons, hview, hviews]⟩

end Lexer

/-- The tokens of a source with a carriage return in front of every line break. -/
theorem lineViews_withReturns (source : String) (hclean : '\r' ∉ source.toList) {p : Position}
    (h : (TokenStream.ofString source).ending = .ok p) :
    ∃ q, (TokenStream.ofString (String.ofList (withReturns source.toList))).ending = .ok q ∧
      q.line = p.line ∧
      (TokenStream.ofString (String.ofList (withReturns source.toList))).tokens.map Token.lineView =
        (TokenStream.ofString source).tokens.map Token.lineView := by
  have hreturned : Lexer.Returned withReturns (Lexer.ofString source)
      (Lexer.ofString (String.ofList (withReturns source.toList))) := {
    rest := String.toList_ofList
    clean := hclean
    line := rfl
    entered := rfl
    last := rfl }
  exact Lexer.stream_returns hreturned h

/-- Comments, a template sequence over two lines, and a heredoc with another one and indentation. -/
theorem lineViews_withReturns_heredoc :
    let source := "a = \"$\x7bb # c\n\x7d\" // d\ne = <<-F\n  $\x7b[\n  ]\x7d\n\n    g\n  F\n/*\n*/"
    '\r' ∉ source.toList ∧ (TokenStream.ofString source).ending = .ok ⟨10, 3, 57⟩ ∧
      ∃ q, (TokenStream.ofString (String.ofList (withReturns source.toList))).ending = .ok q ∧
        q.line = 10 ∧
        (TokenStream.ofString (String.ofList (withReturns source.toList))).tokens.map Token.lineView =
          (TokenStream.ofString source).tokens.map Token.lineView := by
  intro source
  have hclean : '\r' ∉ source.toList := by decide +kernel
  have hend : (TokenStream.ofString source).ending = .ok ⟨10, 3, 57⟩ := by decide +kernel
  exact ⟨hclean, hend, lineViews_withReturns source hclean hend⟩

end Hcl
