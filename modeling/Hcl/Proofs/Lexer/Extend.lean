import Hcl.Proofs.Lexer.Emits
import Hcl.Proofs.Lexer.Lines
import Hcl.Proofs.Lexer.Reads
import Hcl.Proofs.Lexer.Unfold

/-!
# More text behind the last line

A scan of a text that ends with a line break comes to the same result when more text follows, as
long as it succeeds: comments and literals that go beyond a line must be closed before the end. So
the tokens of such a text are the first tokens of every longer one.
-/

namespace Hcl

variable {more : List Char}

/-! ## Skipped text -/

theorem Trivia.skip_append (i : Inside) (p : Position) {cs : List Char} (hl : LineEnded cs)
    (hne : cs ≠ []) (h : (skip i p cs).unclosed = none) (more : List Char) :
    (skip i p cs).rest ≠ [] ∧
      skip i p (cs ++ more) =
        ⟨(skip i p cs).position, (skip i p cs).rest ++ more, none⟩ := by
  fun_induction skip i p cs with
  | case1 p cs ih =>
    rw [List.cons_append, List.cons_append, skip]
    exact ih hl.tail.tail (hl.tail.ne_nil (by decide)) h
  | case2 p cs ih =>
    rw [List.cons_append, List.cons_append, skip]
    exact ih hl.tail.tail (hl.tail.ne_nil (by decide)) h
  | case3 p c cs hline hblock hg ih =>
    have hc : c ≠ '\n' := by
      rintro rfl
      exact absurd hg (by decide)
    have hskip : skip .nothing p (c :: cs ++ more) = skip .nothing (p.next c) (cs ++ more) := by
      rw [List.cons_append, skip, if_pos hg]
      · exact hl.not_cons (by decide) hline more
      · exact hl.not_cons (by decide) hblock more
    rw [hskip]
    exact ih hl.tail (hl.ne_nil hc) h
  | case4 p c cs hline hblock hg hc ih =>
    have hne : c ≠ '\n' := by
      rintro rfl
      exact absurd hc (by decide)
    have hskip : skip .nothing p (c :: cs ++ more) = skip .lineComment (p.next c) (cs ++ more) := by
      rw [List.cons_append, skip, if_neg hg, if_pos hc]
      · exact hl.not_cons (by decide) hline more
      · exact hl.not_cons (by decide) hblock more
    rw [hskip]
    exact ih hl.tail (hl.ne_nil hne) h
  | case5 p c cs hline hblock hg hc =>
    refine ⟨List.cons_ne_nil c cs, ?_⟩
    rw [List.cons_append, skip, if_neg hg, if_neg hc]
    · exact hl.not_cons (by decide) hline more
    · exact hl.not_cons (by decide) hblock more
  | case6 p c cs hc =>
    refine ⟨List.cons_ne_nil c cs, ?_⟩
    rw [List.cons_append, skip, if_pos hc]
  | case7 p c cs hc ih =>
    have hne : c ≠ '\n' := by simpa using hc
    rw [List.cons_append, skip, if_neg hc]
    exact ih hl.tail (hl.ne_nil hne) h
  | case8 start p cs ih =>
    rw [List.cons_append, List.cons_append, skip]
    exact ih hl.tail.tail (hl.tail.ne_nil (by decide)) h
  | case9 start p c cs hend ih =>
    have hcs : cs ≠ [] := by
      rintro rfl
      rw [skip] at h
      cases h
    have hskip : skip (.blockComment start) p (c :: cs ++ more) =
        skip (.blockComment start) (p.next c) (cs ++ more) := by
      rw [List.cons_append, skip]
      exact hl.not_cons (by decide) hend more
    rw [hskip]
    exact ih hl.tail hcs h
  | case10 start p => cases h
  | case11 p => exact absurd rfl hne
  | case12 p => exact absurd rfl hne

namespace Lexer

/-- The lexer when `more` follows what it has left. -/
def extend (more : List Char) (lx : Lexer) : Lexer := { lx with rest := lx.rest ++ more }

variable {lx mid next : Lexer} {text content : List Char} {t : Token} {n : Nat}

@[simp] theorem extend_rest (more : List Char) (lx : Lexer) :
    (lx.extend more).rest = lx.rest ++ more := rfl
@[simp] theorem extend_nil (lx : Lexer) : lx.extend [] = lx := by
  simp [extend]

theorem extend_consume (h : n ≤ lx.rest.length) (more : List Char) :
    (lx.extend more).consume n = (lx.consume n).extend more := by
  simp only [consume, extend, List.take_append_of_le_length h, List.drop_append_of_le_length h]

theorem Reads.extend (h : lx.Reads text next) (more : List Char) :
    (lx.extend more).Reads text (next.extend more) where
  rest := by simp [h.rest]
  position := h.position
  entered := h.entered

theorem Reads.lineEnded (h : lx.Reads text next) (hl : LineEnded lx.rest) : LineEnded next.rest := by
  rw [h.rest] at hl
  exact hl.of_append

theorem finish_extend {kind : TokenKind} {written : String} {start : Position}
    (h : lx.finish kind written start = .ok t next) (more : List Char) :
    (lx.extend more).finish kind written start = .ok t (next.extend more) := by
  simp only [finish, Scan.ok.injEq] at h
  obtain ⟨rfl, rfl⟩ := h
  rfl

theorem skipTrivia_extend (hl : LineEnded lx.rest) (hne : lx.rest ≠ []) {u : Unit}
    (h : lx.skipTrivia = .ok u next) (more : List Char) :
    next.rest ≠ [] ∧ (lx.extend more).skipTrivia = .ok u (next.extend more) := by
  simp only [skipTrivia] at h
  split at h
  · rename_i hu
    simp only [Scan.ok.injEq, true_and] at h
    obtain ⟨hrest, hskip⟩ := Trivia.skip_append .nothing lx.position hl hne hu more
    refine ⟨h ▸ hrest, ?_⟩
    simp only [skipTrivia, extend_rest]
    have hposition : (lx.extend more).position = lx.position := rfl
    rw [hposition, hskip, ← h]
    rfl
  · cases h

/-! ## Literals -/

/-- A template sequence that is read to its end is the same when more text follows. -/
def TemplateReader.Extends (template : TemplateReader) : Prop :=
  ∀ {lx text next}, LineEnded lx.rest → template.read lx = .ok text next →
    ∀ more, template.read (lx.extend more) = .ok text (next.extend more)

variable {template : TemplateReader} {start : Position}

theorem quotedPieces_extend (hx : template.Exact) (ht : template.Extends) {decoded : List Char}
    (hl : LineEnded lx.rest) (h : quotedPieces template start decoded lx = .ok content next)
    (more : List Char) :
    next.rest ≠ [] ∧
      quotedPieces template start decoded (lx.extend more) = .ok content (next.extend more) := by
  fun_induction quotedPieces template start decoded lx with
  | case1 decoded lx piece n hp ih =>
    have hp' := Piece.ofQuoted_append hl (hp ▸ trivial) more
    obtain ⟨hrest, hih⟩ := ih (hl.drop n) h
    rw [quotedPieces_text (hp'.trans hp), extend_consume (Piece.length_le_of_ofQuoted hp)]
    exact ⟨hrest, hih⟩
  | case2 decoded lx hp piece after hr ih =>
    have hp' := Piece.ofQuoted_append hl (hp ▸ trivial) more
    obtain ⟨hrest, hih⟩ := ih ((hx hr).lineEnded hl) h
    rw [quotedPieces_template (hp'.trans hp) (ht hl hr more)]
    exact ⟨hrest, hih⟩
  | case4 decoded lx hp =>
    have hp' := Piece.ofQuoted_append hl (hp ▸ trivial) more
    obtain ⟨c, cs, hrest⟩ := List.exists_cons_of_ne_nil (Piece.ne_nil_of_ofQuoted_eq_quote hp)
    have hc : c ≠ '\n' := by
      rintro rfl
      simp [Piece.ofQuoted, hrest] at hp
    simp only [Scan.ok.injEq] at h
    obtain ⟨rfl, rfl⟩ := h
    rw [quotedPieces_quote (hp'.trans hp), extend_consume (by simp [hrest])]
    refine ⟨?_, rfl⟩
    simpa [hrest] using (hrest ▸ hl).ne_nil hc
  | _ => cases h

theorem quotedToken_extend (hx : template.Exact) (ht : template.Extends) {cs : List Char}
    (hrest : lx.rest = '"' :: cs) (hl : LineEnded lx.rest)
    (h : lx.quotedToken template = .ok t next) (more : List Char) :
    next.rest ≠ [] ∧ (lx.extend more).quotedToken template = .ok t (next.extend more) := by
  simp only [quotedToken] at h ⊢
  split at h
  · rename_i content after hq
    obtain ⟨hne, hq'⟩ := quotedPieces_extend hx ht (hl.drop 1) hq more
    have hlength : 1 ≤ (lx.enter .string).rest.length := by simp [hrest]
    have hopen : ((lx.extend more).enter .string).consume 1 =
        ((lx.enter .string).consume 1).extend more := extend_consume hlength more
    have hposition : (lx.extend more).position = lx.position := rfl
    rw [hopen, hposition, hq', (rest_of_finish h).1]
    exact ⟨hne, finish_extend h more⟩
  · cases h

theorem heredocLines_extend (hx : template.Exact) (ht : template.Extends)
    {opening : Heredoc.Opening} (hm : opening.marker ≠ []) {lineStart : Bool} {read : List Char}
    (hl : LineEnded lx.rest)
    (h : heredocLines template opening start lineStart read lx = .ok content next)
    (more : List Char) :
    next.rest ≠ [] ∧
      heredocLines template opening start lineStart read (lx.extend more) =
        .ok content (next.extend more) := by
  fun_induction heredocLines template opening start lineStart read lx with
  | case1 lineStart read lx hc =>
    simp only [Bool.and_eq_true] at hc
    have hne := Heredoc.ne_nil_of_closes hm hc.2
    have hline := Heredoc.inline_line.append hl hne more
    simp only [Scan.ok.injEq] at h
    obtain ⟨rfl, rfl⟩ := h
    refine ⟨Heredoc.inline_line.drop_ne_nil hl hne, ?_⟩
    rw [heredocLines_eq, extend_rest, Heredoc.closes_append hl hne, hline,
      extend_consume (Heredoc.inline_line.length_le _), if_pos (by simp [hc])]
  | case2 lineStart read lx hc piece n hp ih =>
    have hne := (Piece.length_pos_of_ofHeredoc hp).2
    have hp' := (Piece.ofHeredoc_append hl hne more).trans hp
    obtain ⟨hrest, hih⟩ := ih (hl.drop n) h
    rw [heredocLines_eq, extend_rest, Heredoc.closes_append hl hne, hp', if_neg hc]
    refine ⟨hrest, ?_⟩
    simp only [extend_consume (Piece.length_le_of_ofHeredoc hp)]
    exact hih
  | case3 lineStart read lx hc hp piece after hr ih =>
    have hne : lx.rest ≠ [] := fun hnil => by simp [hnil, Piece.ofHeredoc] at hp
    have hp' := (Piece.ofHeredoc_append hl hne more).trans hp
    obtain ⟨hrest, hih⟩ := ih ((hx hr).lineEnded hl) h
    rw [heredocLines_eq, extend_rest, Heredoc.closes_append hl hne, hp', if_neg hc]
    refine ⟨hrest, ?_⟩
    simp only [ht hl hr more]
    exact hih
  | _ => cases h

theorem heredocToken_extend (hx : template.Exact) (ht : template.Extends)
    {opening : Heredoc.Opening} (ho : Heredoc.opening? lx.rest = some opening)
    (hl : LineEnded lx.rest) (h : lx.heredocToken template opening = .ok t next)
    (more : List Char) :
    next.rest ≠ [] ∧ (lx.extend more).heredocToken template opening = .ok t (next.extend more) := by
  have hbody := extend_consume (Heredoc.length_le_of_opening? ho) more
  have hlbody : LineEnded (lx.consume opening.length).rest := hl.drop _
  have hposition : (lx.extend more).position = lx.position := rfl
  simp only [heredocToken] at h ⊢
  rw [hbody, hposition]
  generalize lx.consume opening.length = body at *
  split at h
  · rename_i hn
    obtain ⟨cs, hcs⟩ : ∃ cs, body.rest = '\n' :: cs := by
      cases hrest : body.rest with
      | nil => simp [hrest] at hn
      | cons c cs => exact ⟨cs, by simpa [hrest] using hn⟩
    have hhead : (body.extend more).rest.head? = some '\n' := by
      rw [extend_rest, hcs]
      rfl
    split at h
    · rename_i content after hq
      obtain ⟨hne, hq'⟩ :=
        heredocLines_extend hx ht (Heredoc.marker_ne_nil ho) (hlbody.drop 1) hq more
      have hlength : 1 ≤ (body.enter .heredoc).rest.length := by simp [hcs]
      have hopen : ((body.extend more).consume 1).enter .heredoc =
          ((body.consume 1).enter .heredoc).extend more := extend_consume hlength more
      rw [if_pos hhead, hopen, hq', (rest_of_finish h).1]
      exact ⟨hne, finish_extend h more⟩
    · cases h
  · cases h

/-! ## Tokens -/

/-- A token that is not a line break is not the last thing on its line. -/
theorem plainToken_extend (kind : TokenKind) (hn : n ≤ lx.rest.length) (hne : lx.rest ≠ [])
    (hnewline : kind ≠ .newline → '\n' ∉ lx.rest.take n) (hl : LineEnded lx.rest)
    (h : lx.plainToken kind n = .ok t next) (more : List Char) :
    (t.kind ≠ .newline → next.rest ≠ []) ∧
      (lx.extend more).plainToken kind n = .ok t (next.extend more) := by
  have htake : (lx.rest ++ more).take n = lx.rest.take n := List.take_append_of_le_length hn
  have hposition : (lx.extend more).position = lx.position := rfl
  obtain ⟨hrest, hkind⟩ := rest_of_finish h
  refine ⟨fun hk => ?_, ?_⟩
  · rw [hrest]
    exact hl.drop_ne_nil hne (hnewline (hkind ▸ hk))
  · rw [plainToken, extend_consume hn, extend_rest, htake, hposition]
    exact finish_extend h more

theorem tokenAt_extend (hx : template.Exact) (ht : template.Extends) {c : Char} {cs : List Char}
    (hrest : lx.rest = c :: cs) (hl : LineEnded lx.rest)
    (h : lx.tokenAt template c = .ok t next) (more : List Char) :
    (t.kind ≠ .newline → next.rest ≠ []) ∧
      (lx.extend more).tokenAt template c = .ok t (next.extend more) := by
  have hne : lx.rest ≠ [] := by simp [hrest]
  have hopening := Heredoc.opening?_append hl hne more
  have hahead := Lexeme.numeralAhead_append lx.signAllowed hl hne more
  have hsign : (lx.extend more).signAllowed = lx.signAllowed := rfl
  simp only [tokenAt] at h ⊢
  split at h
  · rename_i hc
    obtain ⟨hnext, h'⟩ := quotedToken_extend hx ht (hc ▸ hrest) hl h more
    rw [if_pos hc]
    exact ⟨fun _ => hnext, h'⟩
  rename_i hc
  rw [if_neg hc, extend_rest, hopening, hsign, hahead]
  split at h
  · rename_i opening ho
    obtain ⟨hnext, h'⟩ := heredocToken_extend hx ht ho hl h more
    exact ⟨fun _ => hnext, h'⟩
  split at h
  · rename_i hn
    have hin := Lexeme.inline_numeral
    rw [if_pos hn, hin.append hl hne]
    exact plainToken_extend .number (hin.length_le _) hne
      (fun _ => by rw [hin.take]; exact hin.newline _) hl h more
  rename_i hn
  rw [if_neg hn]
  split at h
  · rename_i hi
    have hin := Lexeme.inline_word
    rw [if_pos hi, hin.append hl hne]
    exact plainToken_extend _ (hin.length_le _) hne
      (fun _ => by rw [hin.take]; exact hin.newline _) hl h more
  rename_i hi
  rw [if_neg hi]
  split at h
  · rename_i kind n hf
    rw [Lexeme.fixed?_append hl hf more]
    exact plainToken_extend kind (Lexeme.length_le_of_fixed? hf) hne
      (Lexeme.newline_of_fixed? hf) hl h more
  · cases h

theorem token_extend (hx : template.Exact) (ht : template.Extends) (hl : LineEnded lx.rest)
    (hne : lx.rest ≠ []) (h : lx.token template = .ok t next) (more : List Char) :
    (t.kind ≠ .newline → next.rest ≠ []) ∧
      (lx.extend more).token template = .ok t (next.extend more) := by
  simp only [token] at h ⊢
  split at h
  · cases h
  rename_i mid hs
  obtain ⟨gap, hreads, -⟩ := reads_of_skipTrivia hs
  obtain ⟨hmid, hs'⟩ := skipTrivia_extend hl hne hs more
  obtain ⟨c, cs, hrest⟩ := List.exists_cons_of_ne_nil hmid
  rw [hs']
  simp only [hrest] at h
  obtain ⟨hnext, h'⟩ := tokenAt_extend hx ht hrest (hreads.lineEnded hl) h more
  refine ⟨hnext, ?_⟩
  simpa only [extend_rest, hrest, List.cons_append] using h'

/-! ## Template sequences -/

/-- A token that is there is the same when more text follows. -/
def TokenReader.Extends (reader : TokenReader) : Prop :=
  ∀ {lx t next}, LineEnded lx.rest → reader.read lx = .ok t next → t.kind ≠ .eof →
    ∀ more, reader.read (lx.extend more) = .ok t (next.extend more)

theorem templateTokens_extend {reader : TokenReader}
    (hr : ∀ {lx t next}, reader.read lx = .ok t next → lx.Steps t next) (he : reader.Extends)
    {depth : Nat} {u : Unit} (hl : LineEnded lx.rest)
    (h : templateTokens reader start depth lx = .ok u next) (more : List Char) :
    templateTokens reader start depth (lx.extend more) = .ok u (next.extend more) := by
  fun_induction templateTokens reader start depth lx with
  | case3 depth lx t after ht hk hd =>
    simp only [Scan.ok.injEq, true_and] at h
    subst h
    rw [templateTokens_eq, he hl ht hk more]
    simp only [hk, if_false, hd]
  | case4 depth lx t after ht hk depth' hd ih =>
    obtain ⟨text, hreads⟩ := (hr ht).exists_reads
    rw [templateTokens_eq, he hl ht hk more]
    simp only [hk, if_false, hd]
    exact ih (hreads.lineEnded hl) h
  | _ => cases h

theorem extends_ofTokenReader {reader : TokenReader}
    (hr : ∀ {lx t next}, reader.read lx = .ok t next → lx.Steps t next) (he : reader.Extends) :
    (TemplateReader.ofTokenReader reader).Extends := by
  intro lx text next hl h more
  have hexact := exact_ofTokenReader hr h
  simp only [TemplateReader.ofTokenReader, template] at h ⊢
  split at h
  · cases h
  · rename_i after ht
    have hlt := length_templateTokens_lt ht
    have hlength : 2 ≤ (lx.enter .interpolation).rest.length := by
      simp only [consume_rest, enter_rest, List.length_drop] at *
      omega
    have hopen : ((lx.extend more).enter .interpolation).consume 2 =
        ((lx.enter .interpolation).consume 2).extend more := extend_consume hlength more
    have hposition : (lx.extend more).position = lx.position := rfl
    rw [hopen, hposition, templateTokens_extend hr he (hl.drop 2) ht more]
    simp only [Scan.ok.injEq] at h ⊢
    obtain ⟨rfl, rfl⟩ := h
    have htext : (lx.extend more).textUntil (after.extend more) = lx.textUntil after :=
      (hexact.extend more).textUntil
    exact ⟨htext, rfl⟩

theorem extends_ofTemplateReader (hx : template.Exact) (ht : template.Extends) :
    (TokenReader.ofTemplateReader template).Extends := by
  intro lx t next hl h hk more
  have hne : lx.rest ≠ [] := fun hnil => by
    have heof := (token_of_rest_nil template hnil).symm.trans h
    simp only [Scan.ok.injEq] at heof
    exact hk (heof.1 ▸ rfl)
  exact (token_extend hx ht hl hne h more).2

theorem extends_templateReader (n : Nat) : (templateReader n).Extends := by
  induction n with
  | zero => exact fun _ h => by cases h
  | succ n ih =>
    exact extends_ofTokenReader (fun h => steps_of_token (exact_templateReader n) h)
      (extends_ofTemplateReader (exact_templateReader n) ih)

/-! ## Streams -/

theorem next_extend (hl : LineEnded lx.rest) (hne : lx.rest ≠ []) (h : lx.next = .ok t next)
    (more : List Char) :
    (t.kind ≠ .newline → next.rest ≠ []) ∧ (lx.extend more).next = .ok t (next.extend more) :=
  token_extend (exact_templateReader _) (extends_templateReader _) hl hne h more

/-- There is a token in front of the last line break. -/
theorem ne_eof_of_next (hl : LineEnded lx.rest) (hne : lx.rest ≠ []) (h : lx.next = .ok t next) :
    t.kind ≠ .eof := by
  intro hk
  have hnext : next.rest ≠ [] := (next_extend hl hne h []).1 (by simp [hk])
  cases steps_of_next h with
  | token _ _ _ hscans => exact hscans.ne_eof hk
  | eof _ _ hnil _ => exact hnext hnil

theorem Emits.exists_reads {ts : List Token} (h : Emits lx ts next) :
    ∃ text, lx.Reads text next := by
  induction h with
  | nil => exact ⟨[], .refl _⟩
  | cons hn _ _ ih =>
    obtain ⟨as, has⟩ := (steps_of_next hn).exists_reads
    obtain ⟨bs, hbs⟩ := ih
    exact ⟨as ++ bs, has.trans hbs⟩

/-- A lexer knows the kind of the last token it scanned. -/
theorem Emits.last_eq {ts : List Token} (h : Emits lx ts next) :
    next.last = (ts.getLast?.map Token.kind).or lx.last := by
  induction h with
  | nil => rfl
  | @cons lx mid next t ts hn hk _ ih =>
    have hmid : mid.last = some t.kind := by
      cases steps_of_next hn with
      | token _ _ _ hscans => exact hscans.last
      | eof _ _ _ ht => exact absurd (ht ▸ rfl) hk
    rw [ih, hmid]
    cases ts with
    | nil => rfl
    | cons u us =>
      rw [List.getLast?_cons_cons, List.getLast?_eq_some_getLast (List.cons_ne_nil u us)]
      rfl

/-- The tokens of a text that ends with a line break end with one, and the lexer comes to the end of
the text behind them, whatever follows it. -/
theorem exists_emits (lx : Lexer) (hl : LineEnded lx.rest) {p : Position}
    (h : lx.stream.ending = .ok p) :
    ∃ last : Lexer, last.rest = [] ∧
      (∀ more, Emits (lx.extend more) lx.stream.tokens (last.extend more)) ∧
      ∀ t ∈ lx.stream.tokens.getLast?, t.kind = .newline := by
  fun_induction Lexer.stream lx with
  | case1 lx cause after hn => cases h
  | case2 lx t next hn hk =>
    have hnil : lx.rest = [] := by
      by_cases hne : lx.rest = []
      · exact hne
      · exact absurd hk (ne_eof_of_next hl hne hn)
    exact ⟨lx, hnil, fun more => .nil, nofun⟩
  | case3 lx t next hn hk more =>
    rename_i ih
    have hne : lx.rest ≠ [] := fun hnil => by
      have heof := (token_of_rest_nil _ hnil).symm.trans hn
      simp only [Scan.ok.injEq] at heof
      exact hk (heof.1 ▸ rfl)
    obtain ⟨text, hreads⟩ := (steps_of_next hn).exists_reads
    obtain ⟨last, hrest, hemits, hlast⟩ := ih (hreads.lineEnded hl) h
    refine ⟨last, hrest, fun more => .cons (next_extend hl hne hn more).2 hk (hemits more), ?_⟩
    cases htokens : next.stream.tokens with
    | cons u us =>
      rw [htokens] at hlast
      simpa [more, htokens] using hlast
    | nil =>
      have hend : next = last := by
        have h := hemits []
        rw [htokens, extend_nil, extend_nil] at h
        cases h
        rfl
      have hnewline : t.kind = .newline := by
        by_cases hnewline : t.kind = .newline
        · exact hnewline
        · exact absurd (hend ▸ hrest) ((next_extend hl hne hn []).1 hnewline)
      simpa [more, htokens] using hnewline

end Lexer

end Hcl
