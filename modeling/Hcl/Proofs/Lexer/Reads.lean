import Hcl.TokenStream
import Hcl.Proofs.Lexer.Filler

/-!
# What a scan reads

A scan that succeeds leaves the modes as they were and reads the text between the two lexers: none
is lost and none is made up. A token covers its text exactly, and the text of a token that is not a
literal is what it covers.
-/

namespace Hcl.Lexer

/-- `next` stands behind `text`, which `lx` stands in front of. -/
structure Reads (lx : Lexer) (text : List Char) (next : Lexer) : Prop where
  rest : lx.rest = text ++ next.rest
  position : next.position = lx.position.after text
  entered : next.entered = lx.entered

variable {lx mid next : Lexer} {as bs text : List Char}

theorem Reads.refl (lx : Lexer) : lx.Reads [] lx := ⟨rfl, rfl, rfl⟩

theorem Reads.trans (h : lx.Reads as mid) (h' : mid.Reads bs next) : lx.Reads (as ++ bs) next where
  rest := by rw [h.rest, h'.rest, List.append_assoc]
  position := by rw [h'.position, h.position, Position.after_append]
  entered := h'.entered.trans h.entered

theorem reads_consume (lx : Lexer) (n : Nat) : lx.Reads (lx.rest.take n) (lx.consume n) :=
  ⟨(List.take_append_drop n lx.rest).symm, rfl, rfl⟩

/-- A mode is left behind the text that was read in it. -/
theorem Reads.leave {mode : Mode} (h : (lx.enter mode).Reads text next) :
    lx.Reads text next.leave where
  rest := h.rest
  position := h.position
  entered := by
    have he : next.entered = mode :: lx.entered := h.entered
    simp only [Lexer.leave, he, List.tail_cons]

/-- Only the kind of the last token changes behind a token. -/
theorem Reads.withLast (h : lx.Reads text next) (last : Option TokenKind) :
    lx.Reads text { next with last } := ⟨h.rest, h.position, h.entered⟩

theorem Reads.templatesLeft_eq (h : lx.Reads text next) : next.templatesLeft = lx.templatesLeft := by
  rw [templatesLeft, h.entered, templatesLeft]

theorem Reads.offset_eq (h : lx.Reads text next) :
    next.position.offset = lx.position.offset + byteCount text := by
  rw [h.position, Position.offset_after]

theorem Reads.offset_le (h : lx.Reads text next) : lx.position.offset ≤ next.position.offset :=
  h.offset_eq ▸ Nat.le_add_right _ _

theorem Reads.spanFrom (h : lx.Reads text next) :
    next.spanFrom lx.position = ⟨lx.position, byteCount text⟩ := by
  simp only [Lexer.spanFrom, h.offset_eq, Nat.add_sub_cancel_left]

theorem Reads.textUntil (h : lx.Reads text next) : lx.textUntil next = text := by
  have hoffset : next.position.offset - lx.position.offset = byteCount text := by
    rw [h.offset_eq, Nat.add_sub_cancel_left]
  rw [Lexer.textUntil, hoffset, h.rest, takeBytes?_byteCount]
  rfl

/-! ## Literals -/

/-- The text of a template sequence is what was read of it. -/
def TemplateReader.Exact (template : TemplateReader) : Prop :=
  ∀ {lx text next}, template.read lx = .ok text next → lx.Reads text next

variable {template : TemplateReader}

theorem exists_reads_of_quotedPieces (ht : template.Exact) {start : Position}
    {decoded content : List Char}
    (h : quotedPieces template start decoded lx = .ok content next) :
    ∃ text, lx.Reads text next := by
  fun_induction quotedPieces template start decoded lx with
  | case1 decoded lx piece n hp ih =>
    obtain ⟨text, htext⟩ := ih h
    exact ⟨_, (reads_consume lx n).trans htext⟩
  | case2 decoded lx hp piece after hr ih =>
    obtain ⟨text, htext⟩ := ih h
    exact ⟨_, (ht hr).trans htext⟩
  | case4 decoded lx hp =>
    simp only [Scan.ok.injEq] at h
    exact ⟨_, h.2 ▸ reads_consume lx 1⟩
  | _ => simp at h

theorem exists_reads_of_heredocLines (ht : template.Exact) {opening : Heredoc.Opening}
    {start : Position} {lineStart : Bool} {read content : List Char}
    (h : heredocLines template opening start lineStart read lx = .ok content next) :
    ∃ text, lx.Reads text next := by
  fun_induction heredocLines template opening start lineStart read lx with
  | case1 lineStart read lx hc =>
    simp only [Scan.ok.injEq] at h
    exact ⟨_, h.2 ▸ reads_consume lx _⟩
  | case2 lineStart read lx hc piece n hp ih =>
    obtain ⟨text, htext⟩ := ih h
    exact ⟨_, (reads_consume lx n).trans htext⟩
  | case3 lineStart read lx hc hp piece after hr ih =>
    obtain ⟨text, htext⟩ := ih h
    exact ⟨_, (ht hr).trans htext⟩
  | _ => simp at h

/-! ## Tokens -/

/-- The token `t` stands where `lx` does, is written `text` and followed by what `next` has left. -/
structure Scans (lx : Lexer) (t : Token) (text : List Char) (next : Lexer) : Prop where
  reads : lx.Reads text next
  span : t.span = ⟨lx.position, byteCount text⟩
  ne_nil : text ≠ []
  ne_eof : t.kind ≠ .eof
  newline : t.kind = .newline → text = ['\n']
  comma : t.kind = .comma → text = [',']
  text : t.kind ≠ .string → t.kind ≠ .heredoc → t.text = String.ofList text
  last : next.last = some t.kind

theorem Scans.of_literal {kind : TokenKind} {content : String} {t : Token} (h : lx.Reads text mid)
    (hne : text ≠ []) (hk : kind = .string ∨ kind = .heredoc)
    (hf : mid.finish kind content lx.position = .ok t next) : lx.Scans t text next := by
  simp only [finish, Scan.ok.injEq] at hf
  obtain ⟨rfl, rfl⟩ := hf
  have hspan := h.spanFrom
  rcases hk with rfl | rfl
  · exact ⟨h.withLast _, hspan, hne, by simp, by simp, by simp, fun h => absurd rfl h, rfl⟩
  · exact ⟨h.withLast _, hspan, hne, by simp, by simp, by simp, fun _ h => absurd rfl h, rfl⟩

theorem exists_scans_of_quotedToken (ht : template.Exact) {t : Token} {cs : List Char}
    (hrest : lx.rest = '"' :: cs) (h : lx.quotedToken template = .ok t next) :
    ∃ text, lx.Scans t text next := by
  simp only [quotedToken] at h
  split at h
  · rename_i content after hq
    obtain ⟨text, htext⟩ := exists_reads_of_quotedPieces ht hq
    have hreads := ((reads_consume (lx.enter .string) 1).trans htext).leave
    exact ⟨_, .of_literal hreads (by simp [hrest]) (.inl rfl) h⟩
  · simp at h

theorem exists_scans_of_heredocToken (ht : template.Exact) {t : Token} {opening : Heredoc.Opening}
    (h : lx.heredocToken template opening = .ok t next) : ∃ text, lx.Scans t text next := by
  simp only [heredocToken] at h
  split at h
  · rename_i hn
    split at h
    · rename_i content after hl
      obtain ⟨text, htext⟩ := exists_reads_of_heredocLines ht hl
      have hbody : (lx.consume opening.length).Reads _ after.leave :=
        ((reads_consume ((lx.consume opening.length).enter .heredoc) 1).trans htext).leave
      have hne : (lx.consume opening.length).rest ≠ [] := fun hnil => by
        rw [hnil] at hn
        simp at hn
      refine ⟨_, .of_literal ((reads_consume lx opening.length).trans hbody) ?_ (.inr rfl) h⟩
      simp only [enter_rest, ne_eq, List.append_eq_nil_iff, List.take_eq_nil_iff, hne, or_false,
        Nat.succ_ne_zero, false_and, and_false, not_false_eq_true]
    · simp at h
  · simp at h

theorem kind_of_fixed? {cs : List Char} {kind : TokenKind} {n : Nat}
    (h : Lexeme.fixed? cs = some (kind, n)) :
    kind ≠ .eof ∧ (kind = .newline → cs.take n = ['\n']) ∧ (kind = .comma → cs.take n = [',']) := by
  unfold Lexeme.fixed? at h
  split at h <;> simp only [Option.some.injEq, Prod.mk.injEq, reduceCtorEq] at h <;>
    obtain ⟨rfl, rfl⟩ := h <;> simp

theorem not_literal_of_fixed? {cs : List Char} {kind : TokenKind} {n : Nat}
    (h : Lexeme.fixed? cs = some (kind, n)) :
    kind ≠ .string ∧ kind ≠ .heredoc ∧ kind ≠ .number := by
  unfold Lexeme.fixed? at h
  split at h <;> simp only [Option.some.injEq, Prod.mk.injEq, reduceCtorEq] at h <;>
    obtain ⟨rfl, -⟩ := h <;> simp

theorem kind_of_quotedToken {t : Token} (h : lx.quotedToken template = .ok t next) :
    t.kind = .string := by
  rw [quotedToken] at h
  split at h
  · exact (rest_of_finish h).2
  · cases h

theorem kind_of_heredocToken {t : Token} {opening : Heredoc.Opening}
    (h : lx.heredocToken template opening = .ok t next) : t.kind = .heredoc := by
  simp only [heredocToken] at h
  split at h
  · split at h
    · exact (rest_of_finish h).2
    · cases h
  · cases h

theorem scans_of_plainToken (kind : TokenKind) {n : Nat} {t : Token} (hn : 0 < n)
    (hne : lx.rest ≠ []) (he : kind ≠ .eof) (hnewline : kind = .newline → lx.rest.take n = ['\n'])
    (hcomma : kind = .comma → lx.rest.take n = [',']) (h : lx.plainToken kind n = .ok t next) :
    lx.Scans t (lx.rest.take n) next := by
  have hspan := (reads_consume lx n).spanFrom
  simp only [plainToken, finish, Scan.ok.injEq] at h
  obtain ⟨rfl, rfl⟩ := h
  refine ⟨(reads_consume lx n).withLast _, hspan, ?_, he, hnewline, hcomma, fun _ _ => rfl, rfl⟩
  simp only [ne_eq, List.take_eq_nil_iff, hne, or_false]
  omega

theorem kind_of_wordKind (word : List Char) :
    Lexeme.wordKind word = .bool ∨ Lexeme.wordKind word = .null ∨ Lexeme.wordKind word = .ident := by
  simp only [Lexeme.wordKind]
  split
  · exact .inl rfl
  split
  · exact .inr (.inl rfl)
  · exact .inr (.inr rfl)

/-- A token is a literal, or it is of another kind and neither a quote nor a heredoc begins here. -/
theorem tokenAt_cases {t : Token} {c : Char} (h : lx.tokenAt template c = .ok t next) :
    (c = '"' ∧ lx.quotedToken template = .ok t next) ∨
      (c ≠ '"' ∧ ∃ opening, Heredoc.opening? lx.rest = some opening ∧
        lx.heredocToken template opening = .ok t next) ∨
      (c ≠ '"' ∧ Heredoc.opening? lx.rest = none ∧ t.kind ≠ .string ∧ t.kind ≠ .heredoc) := by
  simp only [tokenAt] at h
  split at h
  · rename_i hc
    exact .inl ⟨hc, h⟩
  rename_i hc
  split at h
  · rename_i opening ho
    exact .inr (.inl ⟨hc, opening, ho, h⟩)
  rename_i ho
  refine .inr (.inr ⟨hc, ho, ?_⟩)
  split at h
  · rw [(rest_of_finish h).2]
    simp
  split at h
  · have hword := kind_of_wordKind (Lexeme.word lx.rest)
    rw [(rest_of_finish h).2]
    rcases hword with hk | hk | hk <;> simp [hk]
  split at h
  · rename_i hf
    rw [(rest_of_finish h).2]
    exact ⟨(not_literal_of_fixed? hf).1, (not_literal_of_fixed? hf).2.1⟩
  · cases h

theorem exists_scans_of_tokenAt (ht : template.Exact) {t : Token} {c : Char} {cs : List Char}
    (hrest : lx.rest = c :: cs) (h : lx.tokenAt template c = .ok t next) :
    ∃ text, lx.Scans t text next := by
  have hne : lx.rest ≠ [] := by simp [hrest]
  simp only [tokenAt] at h
  split at h
  · rename_i hc
    exact exists_scans_of_quotedToken ht (hc ▸ hrest) h
  split at h
  · exact exists_scans_of_heredocToken ht h
  split at h
  · rename_i hn
    exact ⟨_, scans_of_plainToken .number (Lexeme.length_numeral_pos hn) hne (by simp) (by simp)
      (by simp) h⟩
  split at h
  · rename_i hi
    have hpos : 0 < (Lexeme.word lx.rest).length := hrest ▸ Lexeme.length_word_pos hi
    have hk := kind_of_wordKind (Lexeme.word lx.rest)
    refine ⟨_, scans_of_plainToken _ hpos hne ?_ ?_ ?_ h⟩
    · intro he
      simp [he] at hk
    · intro he
      simp [he] at hk
    · intro he
      simp [he] at hk
  split at h
  · rename_i kind n hf
    obtain ⟨he, hnewline, hcomma⟩ := kind_of_fixed? hf
    exact ⟨_, scans_of_plainToken kind (Lexeme.length_pos_of_fixed? hf) hne he hnewline hcomma h⟩
  · simp at h

/-- Behind skipped text. -/
theorem reads_of_skipTrivia {u : Unit} (h : lx.skipTrivia = .ok u next) :
    ∃ gap, lx.Reads gap next ∧ Filler [] gap next.rest ∧ next.last = lx.last := by
  simp only [skipTrivia] at h
  split at h
  · rename_i hu
    simp only [Scan.ok.injEq, true_and] at h
    obtain ⟨gap, hrest, hp, hf⟩ := Trivia.exists_skips .nothing lx.position lx.rest hu
    rw [← h]
    exact ⟨gap, ⟨hrest, hp, rfl⟩, hf, rfl⟩
  · simp at h

/-- A token stands behind skipped text; at the end of the text there is only skipped text. -/
inductive Steps (lx : Lexer) (t : Token) (next : Lexer) : Prop where
  | token {gap text : List Char} {mid : Lexer} : lx.Reads gap mid → Filler [] gap mid.rest →
      mid.last = lx.last → mid.Scans t text next → Steps lx t next
  | eof {gap : List Char} : lx.Reads gap next → Filler [] gap [] → next.rest = [] →
      t = .atEnd next.position → Steps lx t next

theorem steps_of_token (ht : template.Exact) {t : Token} (h : lx.token template = .ok t next) :
    lx.Steps t next := by
  simp only [token] at h
  split at h
  · simp at h
  · rename_i hs
    obtain ⟨gap, hreads, hf, hlast⟩ := reads_of_skipTrivia hs
    split at h
    · rename_i mid hnil
      simp only [finish, Scan.ok.injEq] at h
      obtain ⟨rfl, rfl⟩ := h
      refine .eof (hreads.withLast _) (hnil ▸ hf) hnil ?_
      simp [Token.atEnd, spanFrom]
    · rename_i hc
      obtain ⟨text, hscans⟩ := exists_scans_of_tokenAt ht hc h
      exact .token hreads hf hlast hscans

theorem Steps.exists_reads {t : Token} (h : lx.Steps t next) : ∃ text, lx.Reads text next := by
  cases h with
  | token hgap _ _ hscans => exact ⟨_, hgap.trans hscans.reads⟩
  | eof hgap _ _ _ => exact ⟨_, hgap⟩

/-! ## Template sequences -/

theorem exists_reads_of_templateTokens {reader : TokenReader}
    (hr : ∀ {lx t next}, reader.read lx = .ok t next → lx.Steps t next) {start : Position}
    {depth : Nat} {u : Unit} (h : templateTokens reader start depth lx = .ok u next) :
    ∃ text, lx.Reads text next := by
  fun_induction templateTokens reader start depth lx with
  | case3 depth lx t after ht hk hd =>
    simp only [Scan.ok.injEq, true_and] at h
    exact h ▸ (hr ht).exists_reads
  | case4 depth lx t after ht hk depth' hd ih =>
    obtain ⟨as, has⟩ := (hr ht).exists_reads
    obtain ⟨bs, hbs⟩ := ih h
    exact ⟨_, has.trans hbs⟩
  | _ => simp at h

theorem exact_ofTokenReader {reader : TokenReader}
    (hr : ∀ {lx t next}, reader.read lx = .ok t next → lx.Steps t next) :
    (TemplateReader.ofTokenReader reader).Exact := by
  intro lx text next h
  simp only [TemplateReader.ofTokenReader, template] at h
  split at h
  · simp at h
  · rename_i after ht
    obtain ⟨more, hmore⟩ := exists_reads_of_templateTokens hr ht
    have hreads := ((reads_consume (lx.enter .interpolation) 2).trans hmore).leave
    simp only [Scan.ok.injEq] at h
    obtain ⟨rfl, rfl⟩ := h
    have htext : lx.textUntil after = _ := hreads.textUntil
    exact htext ▸ hreads

theorem exact_templateReader (n : Nat) : (templateReader n).Exact := by
  induction n with
  | zero => exact nofun
  | succ n ih => exact exact_ofTokenReader fun h => steps_of_token ih h

theorem steps_of_next {t : Token} (h : lx.next = .ok t next) : lx.Steps t next :=
  steps_of_token (exact_templateReader lx.templatesLeft) h

/-- The lexer stands where the token ends. -/
theorem stop_of_next {t : Token} (h : lx.next = .ok t next) : t.span.stop = next.position.offset := by
  cases steps_of_next h with
  | token hgap _ _ hscans =>
    rw [hscans.span, Span.stop, hscans.reads.offset_eq]
  | eof _ _ _ ht =>
    rw [ht]
    rfl

end Hcl.Lexer
