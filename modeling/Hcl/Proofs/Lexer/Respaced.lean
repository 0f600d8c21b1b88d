import Hcl.Proofs.Lexer.Excerpt

/-!
# Tokens with one blank between them

What stands between the tokens of a source does not matter: the tokens as they are written, with one
blank between neighbours, are read as the same tokens. Behind a heredoc there is no blank, for the
line of its marker must end there.
-/

namespace Hcl

/-- What is put behind a token of the kind `kind` that is not the last one. -/
def separator (kind : TokenKind) : String := if kind = .heredoc then "" else " "

/-- The texts of the tokens in the source, with one blank between neighbours. -/
def respaced? (source : List Char) : List Token → Option String
  | [] => some ""
  | [t] => t.span.slice? source
  | t :: u :: ts => do
    let text ← t.span.slice? source
    let more ← respaced? source (u :: ts)
    return text ++ separator t.kind ++ more

namespace Lexer

variable {lx lx' mid next last : Lexer} {t : Token} {ts : List Token} {text tail : List Char}

/-- A lexer in the state of `lx` reads `text` as the tokens `ts`. -/
def Rereads (lx : Lexer) (text : List Char) (ts : List Token) : Prop :=
  ∀ lx' : Lexer, lx'.rest = text → lx'.entered = lx.entered → lx'.signAllowed = lx.signAllowed →
    ∃ p, lx'.stream.ending = .ok p ∧ lx'.stream.tokens.map Token.view = ts.map Token.view

namespace Rereads

theorem nil : lx.Rereads [] [] := by
  intro lx' hrest _ _
  rw [stream_of_rest_nil hrest]
  exact ⟨_, rfl, rfl⟩

/-- A blank in front of the tokens is skipped. -/
theorem blank (h : lx.Rereads text ts) : lx.Rereads (' ' :: text) ts := by
  intro lx' hrest hentered hsign
  rw [stream_eq_of_next (next_of_blank hrest)]
  exact h _ rfl hentered hsign

/-- One token in front of the others. -/
theorem cons (h : next.Rereads tail ts) (hn : lx.next = .ok t next) (hscans : lx.Scans t text next)
    (ht : Stops tail) (hl : t.kind = .heredoc → ∀ c ∈ tail.head?, c = '\n') :
    lx.Rereads (text ++ tail) (t :: ts) := by
  intro lx' hrest hentered hsign
  have hcut : Cut next.rest tail lx lx' := ⟨ht, ⟨text, hscans.reads.rest, hrest⟩, hentered, hsign⟩
  obtain ⟨t', next', hn', hview, hnext⟩ := next_cut hcut hn hscans.ne_eof (List.suffix_refl _)
    fun hk => ⟨[], rfl, .inr (hl hk)⟩
  have hrest' : next'.rest = tail := hnext.rest_eq (List.nil_append _).symm
  obtain ⟨p, hp, hviews⟩ := h next' hrest' hnext.entered hnext.signAllowed
  have hk' : t'.kind ≠ .eof := by
    rw [show t'.kind = t.kind from congrArg Prod.fst hview]
    exact hscans.ne_eof
  rw [stream_of_next hn' hk']
  exact ⟨p, hp, by rw [List.map_cons, List.map_cons, hview, hviews]⟩

/-- What is put in front of the tokens that follow one of the kind `kind`. -/
theorem separated (h : lx.Rereads text ts) {kind : TokenKind}
    (hline : kind = .heredoc → ∀ c ∈ text.head?, c = '\n') :
    lx.Rereads ((separator kind).toList ++ text) ts ∧ Stops ((separator kind).toList ++ text) ∧
      (kind = .heredoc → ∀ c ∈ ((separator kind).toList ++ text).head?, c = '\n') := by
  by_cases hk : kind = .heredoc
  · have hnone : (separator kind).toList = [] := by rw [separator, if_pos hk, String.toList_empty]
    rw [hnone]
    exact ⟨h, fun c hc => .inr (.inl (hline hk c hc)), hline⟩
  · have hblank : (separator kind).toList = [' '] := by
      rw [separator, if_neg hk]
      rfl
    rw [hblank]
    exact ⟨h.blank, stops_blank text, fun hk' => absurd hk' hk⟩

end Rereads

/-- A token stands behind skipped text. -/
theorem exists_scans_of_next (h : lx.next = .ok t next) (hk : t.kind ≠ .eof) :
    ∃ gap mid text, lx.Reads gap mid ∧ mid.last = lx.last ∧ mid.next = .ok t next ∧
      mid.Scans t text next := by
  obtain ⟨mid, hs⟩ := exists_skipTrivia_of_next h
  obtain ⟨gap, hreads, -, hlast⟩ := reads_of_skipTrivia hs
  have hn : mid.next = .ok t next := next_of_skipTrivia hs ▸ h
  simp only [Lexer.next, token, hs] at h
  split at h
  · exact absurd (rest_of_finish h).2 hk
  · rename_i hrest
    obtain ⟨text, hscans⟩ := exists_scans_of_tokenAt (exact_templateReader _) hrest h
    exact ⟨gap, mid, text, hreads, hlast, hn, hscans⟩

/-- Behind a heredoc comes a line break. -/
theorem Emits.newline_of_heredoc (h : Emits next ts last) (hn : lx.next = .ok t next)
    (hk : t.kind = .heredoc) : ∀ u ∈ ts.head?, u.kind = .newline := by
  cases h with
  | nil => nofun
  | cons hu hku _ =>
    rintro _ ⟨⟩
    exact (newline_of_token (line_eq_nil_of_token hn hk) hu hku).1

/-- The tokens of a text, as they are written, are read again. -/
theorem Emits.exists_respaced (h : Emits lx ts last) (pre : List Char)
    (hpre : byteCount pre = lx.position.offset) :
    ∃ text : String, respaced? (pre ++ lx.rest) ts = some text ∧ lx.Rereads text.toList ts ∧
      ((∀ t ∈ ts.head?, t.kind = .newline) → ∀ c ∈ text.toList.head?, c = '\n') := by
  induction h generalizing pre with
  | nil => exact ⟨"", rfl, .nil, by simp⟩
  | @cons lx next last t ts hn hk hmore ih =>
    obtain ⟨gap, mid, text, hgap, hlast, hmid, hscans⟩ := exists_scans_of_next hn hk
    have hpos : byteCount (pre ++ gap) = mid.position.offset := by
      rw [byteCount_append, hpre, hgap.position, Position.offset_after]
    have hsource : pre ++ lx.rest = pre ++ gap ++ (text ++ next.rest) := by
      rw [hgap.rest, hscans.reads.rest, List.append_assoc]
    have hslice : t.span.slice? (pre ++ lx.rest) = some (String.ofList text) := by
      rw [hsource]
      exact Span.slice?_append (by rw [hscans.span, hpos]) (by rw [hscans.span])
    have hnext : byteCount (pre ++ gap ++ text) = next.position.offset := by
      rw [byteCount_append, hpos, hscans.reads.position, Position.offset_after]
    have hnewline : ∀ tail : List Char, t.kind = .newline → ∀ c ∈ (text ++ tail).head?, c = '\n' := by
      intro tail hk c hc
      rw [hscans.newline hk] at hc
      exact (Option.some.inj hc).symm
    -- the state of the lexer in front of the token is that in front of what is skipped
    have hstate : ∀ {all : List Char}, mid.Rereads all (t :: ts) → lx.Rereads all (t :: ts) := by
      intro all h lx' hrest hentered hsign
      refine h lx' hrest (hentered.trans hgap.entered.symm) ?_
      rw [hsign, signAllowed, signAllowed, hlast]
    obtain ⟨rest, hrest, hreads, hhead⟩ := ih _ hnext
    rw [List.append_assoc, ← hsource] at hrest
    cases ts with
    | nil =>
      have hall := Rereads.nil.cons hmid hscans stops_nil (by simp)
      rw [List.append_nil] at hall
      refine ⟨String.ofList text, hslice, ?_, fun hk => ?_⟩
      · rw [String.toList_ofList]
        exact hstate hall
      · simpa using hnewline [] (hk t rfl)
    | cons u us =>
      obtain ⟨hmore, hstops, hline⟩ :=
        hreads.separated fun hk => hhead (hmore.newline_of_heredoc hn hk)
      have hall := hmore.cons hmid hscans hstops hline
      have hlist : (String.ofList text ++ separator t.kind ++ rest).toList =
          text ++ ((separator t.kind).toList ++ rest.toList) := by simp
      refine ⟨String.ofList text ++ separator t.kind ++ rest, ?_, ?_, fun hk => ?_⟩
      · simp only [respaced?, hslice, hrest]
        rfl
      · rw [hlist]
        exact hstate hall
      · rw [hlist]
        exact hnewline _ (hk t rfl)

end Lexer

/-- The tokens of a source with one blank between neighbours are read as the same tokens up to the
end, also where the source has a lexical error behind them. -/
theorem views_respaced (source : String) :
    ∃ text q, respaced? source.toList (TokenStream.ofString source).tokens = some text ∧
      (TokenStream.ofString text).ending = .ok q ∧
      (TokenStream.ofString text).tokens.map Token.view =
        (TokenStream.ofString source).tokens.map Token.view := by
  have htokens : (Lexer.ofString source).stream.tokens = (TokenStream.ofString source).tokens ++ [] :=
    (List.append_nil _).symm
  obtain ⟨last, hemits, -⟩ := Lexer.exists_emits_of_stream htokens
  obtain ⟨text, htext, hreads, -⟩ := hemits.exists_respaced [] rfl
  obtain ⟨q, hq, hviews⟩ := hreads (Lexer.ofString text) rfl rfl rfl
  exact ⟨text, q, htext, hq, hviews⟩

/-- Signs and numerals stay apart or together as they were. -/
example : respaced? "x=[-1 -2,3/**/.4]".toList (TokenStream.ofString "x=[-1 -2,3/**/.4]").tokens =
    some "x = [ -1 - 2 , 3 . 4 ]" := by decide +kernel

end Hcl
