import Hcl.TokenStream

/-!
# Tokens one by one

A lexer that stands behind some tokens of another one has the rest of its stream.
-/

namespace Hcl

namespace Lexer

/-- `lx` scans the tokens `ts` and stands where `next` does then. -/
inductive Emits : Lexer → List Token → Lexer → Prop where
  | nil {lx : Lexer} : Emits lx [] lx
  | cons {lx mid next : Lexer} {t : Token} {ts : List Token} : lx.next = .ok t mid →
      t.kind ≠ .eof → Emits mid ts next → Emits lx (t :: ts) next

variable {lx mid next : Lexer} {as bs ts : List Token}

theorem Emits.append (h : Emits lx as mid) (h' : Emits mid bs next) : Emits lx (as ++ bs) next := by
  induction h with
  | nil => exact h'
  | cons hn hk _ ih => exact .cons hn hk (ih h')

theorem stream_of_next {t : Token} (h : lx.next = .ok t next) (hk : t.kind ≠ .eof) :
    lx.stream = ⟨t :: next.stream.tokens, next.stream.ending⟩ := by
  rw [stream]
  split
  · rename_i hn
    rw [h] at hn
    cases hn
  · rename_i hn
    rw [h] at hn
    cases hn
    rw [dif_neg hk]

theorem stream_of_eof {t : Token} (h : lx.next = .ok t next) (hk : t.kind = .eof) :
    lx.stream = ⟨[], .ok t.span.start⟩ := by
  rw [stream]
  split
  · rename_i hn
    rw [h] at hn
    cases hn
  · rename_i hn
    rw [h] at hn
    cases hn
    rw [dif_pos hk]

theorem stream_of_error {cause : LexicalError} (h : lx.next = .error cause next) :
    lx.stream = ⟨[], .error cause⟩ := by
  rw [stream]
  split
  · rename_i hn
    rw [h] at hn
    cases hn
    rfl
  · rename_i hn
    rw [h] at hn
    cases hn

theorem stream_eq_of_next {lx' : Lexer} (h : lx.next = lx'.next) : lx.stream = lx'.stream := by
  cases hn : lx'.next with
  | error cause after => rw [stream_of_error hn, stream_of_error (h.trans hn)]
  | ok t next =>
    by_cases hk : t.kind = .eof
    · rw [stream_of_eof hn hk, stream_of_eof (h.trans hn) hk]
    · rw [stream_of_next hn hk, stream_of_next (h.trans hn) hk]

theorem Emits.stream_eq (h : Emits lx ts next) :
    lx.stream = ⟨ts ++ next.stream.tokens, next.stream.ending⟩ := by
  induction h with
  | nil => rfl
  | cons hn hk _ ih => rw [stream_of_next hn hk, ih, List.cons_append]

/-- The tokens of a stream are scanned one after another. -/
theorem exists_emits_of_stream (h : lx.stream.tokens = as ++ bs) :
    ∃ mid, Emits lx as mid ∧ mid.stream.tokens = bs := by
  induction as generalizing lx with
  | nil => exact ⟨lx, .nil, h⟩
  | cons t as ih =>
    cases hn : lx.next with
    | error cause after =>
      rw [stream_of_error hn] at h
      cases h
    | ok u next =>
      by_cases hk : u.kind = .eof
      · rw [stream_of_eof hn hk] at h
        cases h
      · rw [stream_of_next hn hk] at h
        obtain ⟨rfl, hrest⟩ := List.cons.inj h
        obtain ⟨mid, hmid, hbs⟩ := ih hrest
        exact ⟨mid, .cons hn hk hmid, hbs⟩

theorem exists_next_of_stream {t : Token} (h : lx.stream.tokens.head? = some t) :
    ∃ next, lx.next = .ok t next := by
  obtain ⟨ts, hts⟩ := List.head?_eq_some_iff.mp h
  obtain ⟨mid, hemits, -⟩ := exists_emits_of_stream (show lx.stream.tokens = [t] ++ ts from hts)
  cases hemits with
  | cons hn _ _ => exact ⟨_, hn⟩

theorem token_of_rest_nil (template : TemplateReader) (h : lx.rest = []) :
    lx.token template = .ok (.atEnd lx.position) { lx with last := some .eof } := by
  obtain ⟨rest, position, entered, last⟩ := lx
  subst h
  simp [token, skipTrivia, Trivia.skip, finish, Token.atEnd, spanFrom]

theorem stream_of_rest_nil (h : lx.rest = []) : lx.stream = ⟨[], .ok lx.position⟩ :=
  stream_of_eof (token_of_rest_nil _ h) rfl

end Lexer

/-- What a token says, wherever it stands. -/
def Token.view (t : Token) : TokenKind × String := (t.kind, t.text)

namespace Lexer

/-- In front of `rest` the text is read as the tokens `views` by every lexer whose last token had
the kind `last`. -/
def Lexes (text rest : List Char) (last : Option TokenKind) (views : List (TokenKind × String))
    (last' : Option TokenKind) : Prop :=
  ∀ lx : Lexer, lx.rest = text ++ rest → lx.last = last →
    ∃ ts next, Emits lx ts next ∧ ts.map Token.view = views ∧ next.rest = rest ∧ next.last = last'

variable {text more rest : List Char} {last last' last'' : Option TokenKind}
  {views views' : List (TokenKind × String)}

theorem Lexes.nil : Lexes [] rest last [] last := fun lx hrest hlast =>
  ⟨[], lx, .nil, rfl, hrest, hlast⟩

theorem Lexes.append (h : Lexes text (more ++ rest) last views last')
    (h' : Lexes more rest last' views' last'') :
    Lexes (text ++ more) rest last (views ++ views') last'' := by
  intro lx hrest hlast
  rw [List.append_assoc] at hrest
  obtain ⟨as, mid, has, rfl, hmid, hmidlast⟩ := h lx hrest hlast
  obtain ⟨bs, next, hbs, rfl, hnext⟩ := h' mid hmid hmidlast
  exact ⟨as ++ bs, next, has.append hbs, List.map_append, hnext⟩

end Lexer

end Hcl
