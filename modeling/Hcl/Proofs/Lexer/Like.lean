import Hcl.Proofs.Lexer.Excerpt
import Hcl.Proofs.Lexer.Sequences

/-!
# Lexers that read alike

Modes decide only how many template sequences may be opened, and the last token only whether a sign
belongs to a number. So two lexers in front of the same text read the same tokens, except that one
of them may take a sign and the number behind it for one token. Behind the number they are alike
again.
-/

namespace Hcl

namespace Lexer

/-- `lx'` stands where `lx` does, and may take a sign for the beginning of a number if `lx` may. -/
structure Like (lx lx' : Lexer) : Prop where
  rest : lx'.rest = lx.rest
  position : lx'.position = lx.position
  signAllowed : lx.signAllowed = true → lx'.signAllowed = true

variable {lx lx' mid next next' : Lexer} {t : Token} {n : Nat} {text content : List Char}

namespace Like

theorem withLast (h : Like lx lx') (last : Option TokenKind) :
    Like { lx with last } { lx' with last } := ⟨h.rest, h.position, id⟩

theorem enter (h : Like lx lx') (mode mode' : Mode) : Like (lx.enter mode) (lx'.enter mode') :=
  ⟨h.rest, h.position, h.signAllowed⟩

theorem leave (h : Like lx lx') : Like lx.leave lx'.leave := ⟨h.rest, h.position, h.signAllowed⟩

theorem consume (h : Like lx lx') (n : Nat) : Like (lx.consume n) (lx'.consume n) where
  rest := by rw [consume_rest, consume_rest, h.rest]
  position := by simp only [Lexer.consume, h.rest, h.position]
  signAllowed := h.signAllowed

theorem textUntil (h : Like lx lx') (hn : Like next next') :
    lx'.textUntil next' = lx.textUntil next := by
  rw [Lexer.textUntil, h.rest, h.position, hn.position, Lexer.textUntil]

theorem finish (h : Like lx lx') {kind : TokenKind} {written : String} {start : Position}
    (hf : lx.finish kind written start = .ok t next) :
    ∃ next', lx'.finish kind written start = .ok t next' ∧ Like next next' := by
  simp only [Lexer.finish, Scan.ok.injEq] at hf
  obtain ⟨rfl, rfl⟩ := hf
  exact ⟨{ lx' with last := some kind }, by rw [Lexer.finish, Lexer.spanFrom, h.position]; rfl,
    h.withLast _⟩

theorem plainToken (h : Like lx lx') {kind : TokenKind} (hp : lx.plainToken kind n = .ok t next) :
    ∃ next', lx'.plainToken kind n = .ok t next' ∧ Like next next' := by
  rw [Lexer.plainToken, h.rest, h.position]
  exact (h.consume n).finish hp

theorem skipTrivia (h : Like lx lx') {u : Unit} (hs : lx.skipTrivia = .ok u mid) :
    ∃ mid', lx'.skipTrivia = .ok u mid' ∧ Like mid mid' := by
  simp only [Lexer.skipTrivia] at hs ⊢
  rw [h.rest, h.position]
  split at hs
  · simp only [Scan.ok.injEq, true_and] at hs
    subst hs
    exact ⟨_, rfl, rfl, rfl, h.signAllowed⟩
  · cases hs

end Like

end Lexer

open Lexer

/-- With `template` the sequence is read by every lexer that reads like the one in front of it. -/
def Sequence.RereadBy (template : TemplateReader) (s : Sequence) : Prop :=
  ∀ {front'}, Like s.front front' →
    ∃ back', template.read front' = .ok s.text back' ∧ Like s.back back'

namespace Lexer

/-! ## Literals -/

section Literals

variable {template template' : TemplateReader} {lx lx' next : Lexer} {t : Token}
  {content : List Char} {start : Position}

theorem quotedPieces_like (hx : template.Exact) {decoded : List Char} (h : Like lx lx')
    (hs : ∀ s ∈ quotedSequences template lx, s.RereadBy template')
    (hq : quotedPieces template start decoded lx = .ok content next) :
    ∃ next', quotedPieces template' start decoded lx' = .ok content next' ∧ Like next next' := by
  fun_induction quotedPieces template start decoded lx generalizing lx' with
  | case1 decoded lx piece n hp ih =>
    rw [quotedSequences_text hp] at hs
    rw [quotedPieces_text ((congrArg _ h.rest).trans hp)]
    exact ih (h.consume n) hs hq
  | case2 decoded lx hp piece after hr ih =>
    rw [quotedSequences_template hp hr] at hs
    obtain ⟨back', hr', hback⟩ := hs _ List.mem_cons_self h
    rw [Sequence.text, (hx hr).textUntil] at hr'
    rw [quotedPieces_template ((congrArg _ h.rest).trans hp) hr']
    exact ih hback (fun s hmem => hs s (List.mem_cons_of_mem _ hmem)) hq
  | case4 decoded lx hp =>
    simp only [Scan.ok.injEq] at hq
    obtain ⟨rfl, rfl⟩ := hq
    rw [quotedPieces_quote ((congrArg _ h.rest).trans hp)]
    exact ⟨_, rfl, h.consume 1⟩
  | _ => cases hq

theorem quotedToken_like (hx : template.Exact) (h : Like lx lx')
    (hs : ∀ s ∈ quotedSequences template ((lx.enter .string).consume 1), s.RereadBy template')
    (hq : lx.quotedToken template = .ok t next) :
    ∃ next', lx'.quotedToken template' = .ok t next' ∧ Like next next' := by
  simp only [quotedToken] at hq ⊢
  split at hq
  · rename_i content after hpieces
    obtain ⟨after', hpieces', hafter⟩ :=
      quotedPieces_like hx ((h.enter .string .string).consume 1) hs hpieces
    rw [h.position, hpieces']
    exact hafter.leave.finish hq
  · cases hq

theorem heredocLines_like (hx : template.Exact) {opening : Heredoc.Opening} {lineStart : Bool}
    {read : List Char} (h : Like lx lx')
    (hs : ∀ s ∈ heredocSequences template opening lineStart lx, s.RereadBy template')
    (hq : heredocLines template opening start lineStart read lx = .ok content next) :
    ∃ next', heredocLines template' opening start lineStart read lx' = .ok content next' ∧
      Like next next' := by
  fun_induction heredocLines template opening start lineStart read lx generalizing lx' with
  | case1 lineStart read lx hc =>
    simp only [Scan.ok.injEq] at hq
    obtain ⟨rfl, rfl⟩ := hq
    rw [heredocLines_eq, h.rest, if_pos hc]
    exact ⟨_, rfl, h.consume _⟩
  | case2 lineStart read lx hc piece n hp ih =>
    rw [heredocSequences_eq, if_neg hc, hp] at hs
    rw [heredocLines_eq, h.rest, if_neg hc, hp]
    exact ih (h.consume n) hs hq
  | case3 lineStart read lx hc hp piece after hr ih =>
    rw [heredocSequences_eq, if_neg hc, hp] at hs
    simp only [hr] at hs
    obtain ⟨back', hr', hback⟩ := hs _ List.mem_cons_self h
    rw [Sequence.text, (hx hr).textUntil] at hr'
    rw [heredocLines_eq, h.rest, if_neg hc, hp]
    simp only [hr']
    exact ih hback (fun s hmem => hs s (List.mem_cons_of_mem _ hmem)) hq
  | _ => cases hq

theorem heredocToken_like (hx : template.Exact) {opening : Heredoc.Opening} (h : Like lx lx')
    (hs : (lx.consume opening.length).rest.head? = some '\n' → ∀ s ∈ heredocSequences template
      opening true (((lx.consume opening.length).consume 1).enter .heredoc), s.RereadBy template')
    (hq : lx.heredocToken template opening = .ok t next) :
    ∃ next', lx'.heredocToken template' opening = .ok t next' ∧ Like next next' := by
  have hbody := h.consume opening.length
  simp only [heredocToken] at hq ⊢
  rw [hbody.rest]
  split at hq
  · rename_i hn
    rw [if_pos hn]
    split at hq
    · rename_i content after hlines
      obtain ⟨after', hlines', hafter⟩ :=
        heredocLines_like hx ((hbody.consume 1).enter .heredoc .heredoc) (hs hn) hlines
      rw [h.position, hlines']
      exact hafter.leave.finish hq
    · cases hq
  · cases hq

end Literals

/-! ## Tokens -/

/-- A sign in front of a digit belongs to the numeral. -/
theorem numeral_of_sign {c : Char} {cs : List Char} (hc : c = '-' ∨ c = '+')
    (hcs : cs.head?.any Char.isDigit = true) :
    Lexeme.numeral (c :: cs) = c :: Lexeme.numeral cs := by
  have hsign : Lexeme.sign (c :: cs) = [c] := by rcases hc with rfl | rfl <;> rfl
  have hnosign : Lexeme.sign cs = [] := by
    unfold Lexeme.sign
    split
    · cases hcs
    · cases hcs
    · rfl
  simp only [Lexeme.numeral, hsign, hnosign, List.length_singleton, List.length_nil, Nat.add_comm 1,
    Nat.zero_add, Nat.add_right_comm _ 1, List.drop_succ_cons, List.drop_zero, List.nil_append,
    List.cons_append]

/-- With `template`, `lx'` reads the token `t` and then stands as a lexer like `next`; or `t` is a
sign, and `lx'` reads it together with the number behind it. -/
def Follows (template : TemplateReader) (lx' : Lexer) (t : Token) (next : Lexer) : Prop :=
  ∃ next', Like next next' ∧
    (lx'.token template = .ok t next' ∨
      t.kind = .operator ∧ next'.entered = lx'.entered ∧
        ∃ number signed after, number.kind = .number ∧ signed.kind = .number ∧
          next'.token template = .ok number after ∧ lx'.token template = .ok signed after)

section Tokens

variable {template template' : TemplateReader} {lx lx' mid next : Lexer} {t : Token} {c : Char}
  {cs : List Char}

theorem token_of_numeralAhead (template : TemplateReader) (hrest : lx.rest = c :: cs)
    (hc : IsSolid c ∧ c ≠ '"' ∧ c ≠ '<')
    (hn : Lexeme.numeralAhead lx.signAllowed (c :: cs) = true) :
    lx.token template = lx.plainToken .number (Lexeme.numeral (c :: cs)).length := by
  obtain ⟨hsolid, hquote, hless⟩ := hc
  rw [token_of_isSolid _ hrest hsolid, tokenAt, if_neg hquote, hrest, opening?_of_ne hless]
  dsimp only
  rw [if_pos hn]

theorem exists_plainToken (kind : TokenKind) (n : Nat) (lx : Lexer) :
    ∃ t, t.kind = kind ∧ lx.plainToken kind n = .ok t { lx.consume n with last := some kind } :=
  ⟨_, rfl, rfl⟩

/-- A sign that only `lx'` may take for the beginning of a number. -/
theorem follows_of_sign (template : TemplateReader) (h : Like lx lx') (hrest : lx.rest = c :: cs)
    (hc : c = '-' ∨ c = '+') (hcs : cs.head?.any Char.isDigit = true)
    (hsign : lx'.signAllowed = true) (ht : lx.plainToken .operator 1 = .ok t next) :
    Follows template lx' t next := by
  have hrest' : lx'.rest = c :: cs := h.rest.trans hrest
  obtain ⟨d, ds, rfl⟩ : ∃ d ds, cs = d :: ds := by
    cases cs with
    | nil => cases hcs
    | cons d ds => exact ⟨d, ds, rfl⟩
  have hd : d.isDigit = true := hcs
  have hne : ∀ e : Char, e.isDigit = false → d ≠ e := by
    rintro e he rfl
    cases hd.symm.trans he
  have hsolid : IsSolid d := Plain.isSolid_of_class hd (by decide)
  -- the lexer that reads the sign on its own, and then the number
  obtain ⟨next', hnext', hlike⟩ := h.plainToken ht
  have hbehind : next' = ⟨d :: ds, lx'.position.after [c], lx'.entered, some .operator⟩ := by
    simp only [plainToken, finish, Scan.ok.injEq] at hnext'
    rw [← hnext'.2, consume, hrest']
    rfl
  have hnumber := token_of_numeralAhead template (show next'.rest = d :: ds by rw [hbehind])
    ⟨hsolid, hne '"' rfl, hne '<' rfl⟩ (by simp [Lexeme.numeralAhead, hd])
  have hsigned := token_of_numeralAhead template hrest'
    (by rcases hc with rfl | rfl <;> decide) (by simp [Lexeme.numeralAhead, hsign, hc, hd])
  rw [numeral_of_sign hc hcs, List.length_cons] at hsigned
  have hafter : { lx'.consume ((Lexeme.numeral (d :: ds)).length + 1) with last := some .number } =
      { next'.consume (Lexeme.numeral (d :: ds)).length with last := some .number } := by
    rw [hbehind]
    simp [consume, hrest']
  obtain ⟨number, hkind, hnumber'⟩ := exists_plainToken .number (Lexeme.numeral (d :: ds)).length next'
  obtain ⟨signed, hkind', hsigned'⟩ :=
    exists_plainToken .number ((Lexeme.numeral (d :: ds)).length + 1) lx'
  exact ⟨next', hlike, .inr ⟨(rest_of_finish ht).2, by rw [hbehind], number, signed, _, hkind, hkind',
    hnumber.trans hnumber', hsigned.trans (hafter ▸ hsigned')⟩⟩

theorem follows_tokenAt (hx : template.Exact) (h : Like lx lx') (hrest : lx.rest = c :: cs)
    (hs : ∀ s ∈ lx.sequencesAt template, s.RereadBy template')
    (hat : lx'.token template' = lx'.tokenAt template' c)
    (ht : lx.tokenAt template c = .ok t next) : Follows template' lx' t next := by
  have hsame : ∀ {kind : TokenKind} {n : Nat}, lx.plainToken kind n = .ok t next →
      lx'.tokenAt template' c = lx'.plainToken kind n → Follows template' lx' t next :=
    fun ht hat' => by
      obtain ⟨next', hnext', hlike⟩ := h.plainToken ht
      exact ⟨next', hlike, .inl ((hat.trans hat').trans hnext')⟩
  simp only [tokenAt] at ht
  simp only [sequencesAt, hrest, List.head?_cons, Option.some.injEq] at hs
  simp only [tokenAt, h.rest, hrest] at hat hsame ht ⊢
  split at ht
  · rename_i hc
    rw [if_pos hc] at hs
    obtain ⟨next', hnext', hlike⟩ := quotedToken_like hx h hs ht
    exact ⟨next', hlike, .inl (hat.trans ((if_pos hc).trans hnext'))⟩
  rename_i hc
  rw [if_neg hc] at hs
  simp only [if_neg hc] at hat hsame
  split at ht
  · rename_i opening ho
    simp only [ho] at hat hs
    have hs' : (lx.consume opening.length).rest.head? = some '\n' → ∀ s ∈ heredocSequences template
        opening true (((lx.consume opening.length).consume 1).enter .heredoc),
        s.RereadBy template' := fun hn => by rwa [if_pos hn] at hs
    obtain ⟨next', hnext', hlike⟩ := heredocToken_like hx h hs' ht
    exact ⟨next', hlike, .inl (hat.trans hnext')⟩
  rename_i ho
  simp only [ho] at hsame
  split at ht
  · rename_i hn
    have hn' : Lexeme.numeralAhead lx'.signAllowed (c :: cs) = true := by
      simp only [Lexeme.numeralAhead, Bool.or_eq_true, Bool.and_eq_true] at hn ⊢
      exact hn.imp_right fun hn => ⟨⟨h.signAllowed hn.1.1, hn.1.2⟩, hn.2⟩
    exact hsame ht (if_pos hn')
  rename_i hn
  by_cases hn' : Lexeme.numeralAhead lx'.signAllowed (c :: cs) = true
  · simp only [Lexeme.numeralAhead, Bool.or_eq_true, Bool.and_eq_true, beq_iff_eq] at hn hn'
    obtain ⟨⟨hsign, hc⟩, hcs⟩ := hn'.resolve_left fun hd => hn (.inl hd)
    refine follows_of_sign template' h hrest hc hcs hsign ?_
    rcases hc with rfl | rfl <;> exact ht
  simp only [if_neg hn'] at hsame
  split at ht
  · rename_i hi
    exact hsame ht (if_pos hi)
  rename_i hi
  simp only [if_neg hi] at hsame
  split at ht
  · rename_i hf
    simp only [hf] at hsame
    exact hsame ht rfl
  · cases ht

theorem token_of_skipTrivia {u : Unit} (template : TemplateReader) (h : lx.skipTrivia = .ok u mid) :
    lx.token template = mid.token template := by
  have hat : mid.skipTrivia = .ok () mid := atToken_of_skipTrivia h
  simp only [token, h, hat]

theorem Follows.of_skipTrivia {u : Unit} {mid' : Lexer} (hs : lx'.skipTrivia = .ok u mid')
    (h : Follows template mid' t next) : Follows template lx' t next := by
  obtain ⟨gap, hgap, -⟩ := reads_of_skipTrivia hs
  obtain ⟨next', hlike, hsame | ⟨hk, hentered, number, signed, after, hn, hs', hnumber, hsigned⟩⟩ := h
  · exact ⟨next', hlike, .inl ((token_of_skipTrivia _ hs).trans hsame)⟩
  · exact ⟨next', hlike, .inr ⟨hk, hentered.trans hgap.entered, number, signed, after, hn, hs',
      hnumber, (token_of_skipTrivia _ hs).trans hsigned⟩⟩

theorem follows_token (hx : template.Exact) (h : Like lx lx')
    (hs : ∀ s ∈ lx.tokenSequences template, s.RereadBy template')
    (ht : lx.token template = .ok t next) : Follows template' lx' t next := by
  simp only [token] at ht
  split at ht
  · cases ht
  rename_i mid hmid
  obtain ⟨mid', hmid', hlike⟩ := h.skipTrivia hmid
  have hat : mid'.skipTrivia = .ok () mid' := atToken_of_skipTrivia hmid'
  simp only [tokenSequences, hmid] at hs
  refine Follows.of_skipTrivia hmid' ?_
  split at ht
  · rename_i hrest
    obtain ⟨next', hnext', hnext⟩ := hlike.finish ht
    refine ⟨next', hnext, .inl ?_⟩
    simp only [token, hat, hlike.rest, hrest]
    rw [hlike.position]
    exact hnext'
  · rename_i hrest
    refine follows_tokenAt hx hlike hrest hs ?_ ht
    simp only [token, hat, hlike.rest, hrest]

end Tokens

/-! ## Template sequences -/

/-- With `template` every lexer like `lx` reads the next token of `lx`. -/
def Followed (template : TemplateReader) (lx : Lexer) : Prop :=
  ∀ {lx' t next}, Like lx lx' → lx.next = .ok t next → Follows template lx' t next

section Sequences

variable {template : TemplateReader} {lx lx' mid next : Lexer} {depth n : Nat} {brace : Token}
  {ts : List Token}

theorem templateTokens_like (h : lx.Closes depth ts mid brace next) (hlike : Like lx lx')
    (hf : ∀ {as inner t us}, Emits lx as inner → Emits inner (t :: us) next →
      inner.Followed template) (start : Position) :
    ∃ next', templateTokens (.ofTemplateReader template) start depth lx' = .ok () next' ∧
      Like next next' := by
  obtain ⟨hemits, hnext, hkind, hbraces⟩ := h
  have hlast : Emits mid [brace] next := .cons hnext (by simp [hkind]) .nil
  induction hemits generalizing depth lx' with
  | nil =>
    rw [List.map_nil, bracesBehind_nil, Option.some.injEq] at hbraces
    subst hbraces
    obtain ⟨next', hlike', hsame | ⟨hk, -⟩⟩ := hf .nil hlast hlike hnext
    · refine ⟨next', ?_, hlike'⟩
      rw [templateTokens_eq, show (TokenReader.ofTemplateReader template).read lx' = _ from hsame]
      simp [hkind, bracesAfter]
    · cases hkind.symm.trans hk
  | @cons lx after mid t ts ht hk hmore ih =>
    rw [List.map_cons, bracesBehind_cons] at hbraces
    obtain ⟨depth', hd, hbraces⟩ := Option.bind_eq_some_iff.mp hbraces
    obtain ⟨after', hafter, hread⟩ := hf .nil ((Emits.cons ht hk hmore).append hlast) hlike ht
    obtain ⟨next', htokens, hlike'⟩ :=
      ih hafter (fun has hts => hf (.cons ht hk has) hts) hnext hbraces hlast
    refine ⟨next', ?_, hlike'⟩
    rcases hread with hsame | ⟨hk', -, number, signed, behind, hn, hs, hnumber, hsigned⟩
    · rw [templateTokens_eq, show (TokenReader.ofTemplateReader template).read lx' = _ from hsame]
      simp only [hk, if_false, hd]
      exact htokens
    · -- the number is read behind the sign or with it
      rw [hk', bracesAfter] at hd
      · cases hd
        rw [templateTokens_eq,
          show (TokenReader.ofTemplateReader template).read after' = _ from hnumber] at htokens
        rw [templateTokens_eq,
          show (TokenReader.ofTemplateReader template).read lx' = _ from hsigned]
        simp only [hn, hs, bracesAfter, reduceCtorEq, if_false] at htokens ⊢
        exact htokens
      all_goals simp

/-- A lexer may open as many template sequences inside each other as are open at once in the text
when another one reads it. -/
theorem followed_of_opens (n : Nat) (h : ∀ depth s, lx.Opens depth s → depth ≤ n) :
    lx.Followed (templateReader n) := by
  induction n generalizing lx with
  | zero =>
    intro lx' t next hlike hn
    refine follows_token (exact_templateReader _) hlike (fun s hs => ?_) hn
    exact absurd (h 1 s (.direct hs)) (by decide)
  | succ n ih =>
    intro lx' t next hlike hn
    refine follows_token (exact_templateReader _) hlike (fun s hs => ?_) hn
    intro front' hfront
    obtain ⟨-, ts, mid, brace, hclose⟩ := exists_closes_of_sequences hs
    have hinside : Like s.inside ((front'.enter .interpolation).consume 2) :=
      (hfront.enter _ _).consume 2
    have hf : ∀ {as inner t us}, Emits s.inside as inner →
        Emits inner (t :: us) (s.back.enter .interpolation) → inner.Followed (templateReader n) :=
      fun has hts => ih fun depth s' ho =>
        Nat.le_of_succ_le_succ (h (depth + 1) s' (.nested hs has hts ho))
    obtain ⟨after', htokens, hafter⟩ := templateTokens_like hclose hinside hf front'.position
    have hback : Like s.back after'.leave := hafter.leave
    have htext : front'.textUntil after'.leave = s.text := hfront.textUntil hback
    refine ⟨after'.leave, ?_, hback⟩
    simp only [templateReader, TemplateReader.ofTokenReader, template, htokens]
    rw [← htext]
    rfl

/-! ## Streams -/

theorem stream_like {p : Position} (h : Like lx lx')
    (hf : ∀ {ts inner}, Emits lx ts inner → inner.Followed (templateReader lx'.templatesLeft))
    (hend : lx.stream.ending = .ok p) :
    (∃ q, lx'.stream.ending = .ok q) ∧
      ∀ depth, bracesBehind depth (lx'.stream.tokens.map Token.kind) =
        bracesBehind depth (lx.stream.tokens.map Token.kind) := by
  fun_induction Lexer.stream lx generalizing lx' p with
  | case1 => cases hend
  | case2 lx t next hn hk =>
    obtain ⟨next', -, hsame | ⟨hk', -⟩⟩ := hf .nil h hn
    · rw [stream_of_eof hsame hk]
      exact ⟨⟨_, rfl⟩, fun _ => rfl⟩
    · cases hk.symm.trans hk'
  | case3 lx t next hn hk more =>
    rename_i ih
    obtain ⟨next', hlike, hread⟩ := hf .nil h hn
    have hentered : next'.entered = lx'.entered := by
      rcases hread with hsame | ⟨-, hentered, -⟩
      · obtain ⟨text, htext⟩ := (steps_of_token (exact_templateReader _) hsame).exists_reads
        exact htext.entered
      · exact hentered
    have hleft : next'.templatesLeft = lx'.templatesLeft := by
      rw [templatesLeft, hentered, templatesLeft]
    have hmore : ∀ {ts inner}, Emits next ts inner →
        inner.Followed (templateReader next'.templatesLeft) :=
      fun hts => hleft ▸ hf (.cons hn hk hts)
    obtain ⟨hending, hbraces⟩ := ih hlike hmore hend
    rcases hread with hsame | ⟨hk', -, number, signed, behind, hkn, hks, hnumber, hsigned⟩
    · rw [stream_of_next hsame hk]
      refine ⟨hending, fun depth => ?_⟩
      simp only [List.map_cons, bracesBehind_cons, hbraces]
      rfl
    · -- the number is read behind the sign or with it
      have hnext' : next'.stream = ⟨number :: behind.stream.tokens, behind.stream.ending⟩ :=
        stream_of_next (by rw [Lexer.next, hleft, hnumber]) (by simp [hkn])
      rw [stream_of_next hsigned (by simp [hks])]
      rw [hnext'] at hending hbraces
      refine ⟨hending, fun depth => ?_⟩
      have hbehind := hbraces depth
      simp only [List.map_cons, bracesBehind_cons, hkn, hks, hk', bracesAfter, Option.bind_some]
        at hbehind ⊢
      exact hbehind

end Sequences

end Lexer

end Hcl
