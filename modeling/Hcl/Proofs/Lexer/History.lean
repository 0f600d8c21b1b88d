import Hcl.Proofs.Lexer.Excerpt
import Hcl.Proofs.Lexer.Greedy
import Hcl.Proofs.Lexer.Sequences

/-!
# The history of a lexer

While a literal is scanned the tokens of its template sequences are delivered, each with a call as
every other token, and they remain delivered if the scan of the literal fails. Here all tokens are
noted down in the order in which they are delivered. Whether a sign belongs to a number depends on
this order alone.
-/

namespace Hcl

/-- The token that the lexer `front` delivers, and the lexer behind it. -/
structure Delivery where
  front : Lexer
  token : Token
  back : Lexer

namespace Lexer

/-! ## Deliveries of a scan -/

section Deliveries

/-! `inside` lists what is delivered while a template sequence is read, as far as that goes. -/

variable (template : TemplateReader) (inside : Lexer → List Delivery)

/-- What is delivered while the pieces of a quoted literal are read. -/
def quotedDeliveries (lx : Lexer) : List Delivery :=
  match _ : Piece.ofQuoted lx.rest with
  | .text _ n => quotedDeliveries (lx.consume n)
  | .template =>
    match _ : template.read lx with
    | .ok _ next => inside lx ++ quotedDeliveries next
    | .error _ _ => inside lx
  | _ => []
termination_by lx.rest.length
decreasing_by
  · rename_i h
    exact length_consume_lt (Piece.length_pos_of_ofQuoted h).1 (Piece.length_pos_of_ofQuoted h).2
  · rename_i h
    exact template.shorter h

/-- What is delivered while the lines of a heredoc are read. -/
def heredocDeliveries (opening : Heredoc.Opening) (lineStart : Bool) (lx : Lexer) :
    List Delivery :=
  if lineStart && opening.closes lx.rest then []
  else
    match _ : Piece.ofHeredoc lx.rest with
    | .text text n => heredocDeliveries opening (text == ['\n']) (lx.consume n)
    | .template =>
      match _ : template.read lx with
      | .ok _ next => inside lx ++ heredocDeliveries opening false next
      | .error _ _ => inside lx
    | _ => []
termination_by lx.rest.length
decreasing_by
  · rename_i h
    exact length_consume_lt (Piece.length_pos_of_ofHeredoc h).1 (Piece.length_pos_of_ofHeredoc h).2
  · rename_i h
    exact template.shorter h

/-- What is delivered inside of the token that begins where `lx` stands. -/
def deliveriesAt (lx : Lexer) : List Delivery :=
  if lx.rest.head? = some '"' then
    quotedDeliveries template inside ((lx.enter .string).consume 1)
  else
    match Heredoc.opening? lx.rest with
    | none => []
    | some opening =>
      let body := lx.consume opening.length
      if body.rest.head? = some '\n' then
        heredocDeliveries template inside opening true ((body.consume 1).enter .heredoc)
      else []

/-- What is delivered while the next token is read, this token last. -/
def tokenDeliveries (lx : Lexer) : List Delivery :=
  (match lx.skipTrivia with
    | .error _ _ => []
    | .ok _ mid => mid.deliveriesAt template inside) ++
  match lx.token template with
  | .ok t next => [⟨lx, t, next⟩]
  | .error _ _ => []

end Deliveries

/-- What is delivered while tokens are read up to the brace that closes a template sequence.
`inside` lists what is delivered while the next token is read. -/
def templateDeliveries (token : TokenReader) (inside : Lexer → List Delivery) (depth : Nat)
    (lx : Lexer) : List Delivery :=
  match _ : token.read lx with
  | .error _ _ => inside lx
  | .ok t next =>
    if _ : t.kind = .eof then inside lx
    else
      match bracesAfter t.kind depth with
      | none => inside lx
      | some depth => inside lx ++ templateDeliveries token inside depth next
termination_by lx.rest.length
decreasing_by
  rename_i h hk
  exact token.shorter h hk

/-- What is delivered while a template sequence is read, when `n` more may be opened. -/
def sequenceDeliveries : Nat → Lexer → List Delivery
  | 0, _ => []
  | n + 1, lx =>
    templateDeliveries (.ofTemplateReader (templateReader n))
      (tokenDeliveries (templateReader n) (sequenceDeliveries n)) 0
      ((lx.enter .interpolation).consume 2)

/-- What is delivered during the next call. -/
def delivered (lx : Lexer) : List Delivery :=
  lx.tokenDeliveries (templateReader lx.templatesLeft) (sequenceDeliveries lx.templatesLeft)

/-- What is delivered during `n` calls. -/
def history (lx : Lexer) : Nat → List Delivery
  | 0 => []
  | n + 1 => lx.history n ++ (lx.calls n).delivered

/-- What a call returns is delivered last. -/
theorem exists_history_of_next {lx next : Lexer} {t : Token} {n : Nat}
    (h : (lx.calls n).next = .ok t next) :
    ∃ before, lx.history (n + 1) = before ++ [⟨lx.calls n, t, next⟩] := by
  rw [history, delivered, tokenDeliveries, show (lx.calls n).token _ = .ok t next from h,
    ← List.append_assoc]
  exact ⟨_, rfl⟩

/-! ## The order of delivery -/

theorem StandsIn.enter {source : List Char} {lx : Lexer} (h : lx.StandsIn source) (mode : Mode) :
    (lx.enter mode).StandsIn source := h

theorem last_skipTrivia (lx : Lexer) : lx.skipTrivia.after.last = lx.last := by
  simp only [skipTrivia]
  split <;> rfl

/-- Behind a token of the kind `last` the tokens of the list are delivered in a row, and the last of
them has the kind `last'`. Only a literal may have others between it and the lexer it is read by. -/
inductive InOrder (source : List Char) :
    (last : Option TokenKind) → List Delivery → (last' : Option TokenKind) → Prop where
  | nil {last : Option TokenKind} : InOrder source last [] last
  | cons {last last' : Option TokenKind} {d : Delivery} {more : List Delivery} :
      d.front.StandsIn source → d.front.next = .ok d.token d.back →
      (d.token.kind ≠ .string → d.token.kind ≠ .heredoc → d.front.last = last) →
      InOrder source (some d.token.kind) more last' → InOrder source last (d :: more) last'

variable {source : List Char} {last last' last'' : Option TokenKind} {as bs : List Delivery}

theorem InOrder.append (h : InOrder source last as last') (h' : InOrder source last' bs last'') :
    InOrder source last (as ++ bs) last'' := by
  induction h with
  | nil => exact h'
  | cons hplace hnext hlast _ ih => exact .cons hplace hnext hlast (ih h')

theorem InOrder.exists_of_append (h : InOrder source last (as ++ bs) last'') :
    ∃ last', InOrder source last as last' ∧ InOrder source last' bs last'' := by
  induction as generalizing last with
  | nil => exact ⟨last, .nil, h⟩
  | cons d as ih =>
    cases h with
    | cons hplace hnext hlast hmore =>
      obtain ⟨last', has, hbs⟩ := ih hmore
      exact ⟨last', .cons hplace hnext hlast has, hbs⟩

theorem InOrder.last_eq (h : InOrder source last as last') :
    last' = (as.getLast?.map (·.token.kind)).or last := by
  induction h with
  | nil => rfl
  | @cons _ _ _ more _ _ _ _ ih =>
    rw [ih]
    cases more <;> simp [List.getLast?_cons]

/-- While `template` reads a sequence, and `n` more may be opened, `inside` lists in order what is
delivered. -/
def Recounts (source : List Char) (n : Nat) (template : TemplateReader)
    (inside : Lexer → List Delivery) : Prop :=
  ∀ {lx : Lexer}, lx.StandsIn source → lx.templatesLeft = n →
    InOrder source lx.last (inside lx) (template.read lx).after.last

section Scans

variable {template : TemplateReader} {inside : Lexer → List Delivery} {lx next : Lexer} {n : Nat}

theorem inOrder_quotedDeliveries (hx : template.Exact) (hr : Recounts source n template inside)
    (hlx : lx.StandsIn source) (hn : lx.templatesLeft = n) (start : Position)
    (decoded : List Char) :
    InOrder source lx.last (quotedDeliveries template inside lx)
      (quotedPieces template start decoded lx).after.last := by
  fun_induction quotedDeliveries template inside lx generalizing decoded with
  | case1 lx text m hp ih =>
    rw [quotedPieces_text hp]
    exact ih (hlx.reads (reads_consume lx m)) hn _
  | case2 lx hp text next hread ih =>
    rw [quotedPieces_template hp hread]
    have hreads := hx hread
    have hinside := hr hlx hn
    rw [hread] at hinside
    exact hinside.append (ih (hlx.reads hreads) (hreads.templatesLeft_eq.trans hn) _)
  | case3 lx hp cause after hread =>
    rw [quotedPieces_template_error hp hread]
    have hinside := hr hlx hn
    rwa [hread] at hinside
  | case4 lx htext htemplate =>
    rw [quotedPieces]
    split
    · exact absurd ‹_› (htext _ _)
    · exact absurd ‹_› htemplate
    all_goals exact .nil

theorem inOrder_heredocDeliveries (hx : template.Exact) (hr : Recounts source n template inside)
    (hlx : lx.StandsIn source) (hn : lx.templatesLeft = n) (opening : Heredoc.Opening)
    (start : Position) (lineStart : Bool) (content : List Char) :
    InOrder source lx.last (heredocDeliveries template inside opening lineStart lx)
      (heredocLines template opening start lineStart content lx).after.last := by
  fun_induction heredocDeliveries template inside opening lineStart lx generalizing content with
  | case1 lineStart lx hc =>
    rw [heredocLines_eq, if_pos hc]
    exact .nil
  | case2 lineStart lx hc text m hp ih =>
    rw [heredocLines_eq, if_neg hc, hp]
    exact ih (hlx.reads (reads_consume lx m)) hn _
  | case3 lineStart lx hc hp text next hread ih =>
    simp only [heredocLines_eq _ _ _ _ _ lx, if_neg hc, hp, hread]
    have hreads := hx hread
    have hinside := hr hlx hn
    rw [hread] at hinside
    exact hinside.append (ih (hlx.reads hreads) (hreads.templatesLeft_eq.trans hn) _)
  | case4 lineStart lx hc hp cause after hread =>
    simp only [heredocLines_eq _ _ _ _ _ lx, if_neg hc, hp, hread]
    have hinside := hr hlx hn
    rwa [hread] at hinside
  | case5 lineStart lx hc htext htemplate =>
    rw [heredocLines_eq, if_neg hc]
    split
    · exact absurd ‹_› (htext _ _)
    · exact absurd ‹_› htemplate
    · exact .nil

end Scans

end Lexer

/-- Behind a token of the kind `last`, the tokens `ds` are delivered inside of the token that is
scanned. A token that is no literal has none inside. -/
def Scan.Contains (source : List Char) (last : Option TokenKind) (ds : List Delivery) :
    Scan Token → Prop
  | .ok t next => next.last = some t.kind ∧ ∃ last', Lexer.InOrder source last ds last' ∧
      (t.kind ≠ .string → t.kind ≠ .heredoc → last' = last)
  | .error _ next => Lexer.InOrder source last ds next.last

namespace Lexer

section Tokens

variable {source : List Char} {template : TemplateReader} {inside : Lexer → List Delivery}
  {lx : Lexer} {n : Nat}

theorem contains_quotedToken (hx : template.Exact) (hr : Recounts source n template inside)
    (hlx : lx.StandsIn source) (hn : lx.templatesLeft = n) :
    (lx.quotedToken template).Contains source lx.last
      (quotedDeliveries template inside ((lx.enter .string).consume 1)) := by
  have hopen := (hlx.enter .string).reads (reads_consume _ 1)
  have hinside := inOrder_quotedDeliveries hx hr hopen hn lx.position []
  rw [quotedToken]
  split
  · rename_i hq
    rw [hq] at hinside
    exact ⟨rfl, _, hinside, fun h => absurd rfl h⟩
  · rename_i hq
    rwa [hq] at hinside

theorem contains_plainToken (kind : TokenKind) (m : Nat) :
    (lx.plainToken kind m).Contains source lx.last [] :=
  ⟨rfl, lx.last, .nil, fun _ _ => rfl⟩

theorem contains_heredocToken (hx : template.Exact) (hr : Recounts source n template inside)
    (hlx : lx.StandsIn source) (hn : lx.templatesLeft = n) (opening : Heredoc.Opening) :
    (lx.heredocToken template opening).Contains source lx.last
      (if (lx.consume opening.length).rest.head? = some '\n' then
        heredocDeliveries template inside opening true
          (((lx.consume opening.length).consume 1).enter .heredoc)
      else []) := by
  have hopen := (hlx.reads (reads_consume lx opening.length)).reads (reads_consume _ 1)
  have hinside := inOrder_heredocDeliveries hx hr (hopen.enter .heredoc) hn opening lx.position
    true []
  simp only [heredocToken]
  split
  · split
    · rename_i hl
      rw [hl] at hinside
      exact ⟨rfl, _, hinside, fun _ h => absurd rfl h⟩
    · rename_i hl
      rwa [hl] at hinside
  · exact .nil

theorem contains_tokenAt (hx : template.Exact) (hr : Recounts source n template inside)
    (hlx : lx.StandsIn source) (hn : lx.templatesLeft = n) {c : Char} {cs : List Char}
    (hrest : lx.rest = c :: cs) :
    (lx.tokenAt template c).Contains source lx.last (lx.deliveriesAt template inside) := by
  simp only [tokenAt, deliveriesAt]
  rw [hrest, List.head?_cons, ← hrest]
  simp only [Option.some.injEq]
  split
  · exact contains_quotedToken hx hr hlx hn
  cases Heredoc.opening? lx.rest with
  | some opening => exact contains_heredocToken hx hr hlx hn opening
  | none =>
    dsimp only
    split
    · exact contains_plainToken _ _
    split
    · exact contains_plainToken _ _
    split
    · exact contains_plainToken _ _
    · exact .nil

theorem inOrder_tokenDeliveries (hr : Recounts source n (templateReader n) inside)
    (hlx : lx.StandsIn source) (hn : lx.templatesLeft = n) :
    InOrder source lx.last (lx.tokenDeliveries (templateReader n) inside)
      (lx.token (templateReader n)).after.last := by
  have hcontains : (lx.token (templateReader n)).Contains source lx.last
      (match lx.skipTrivia with
        | .error _ _ => []
        | .ok _ mid => mid.deliveriesAt (templateReader n) inside) := by
    have hlast := lx.last_skipTrivia
    rw [token]
    cases hs : lx.skipTrivia with
    | error cause next =>
      rw [hs] at hlast
      rw [← hlast]
      exact .nil
    | ok u mid =>
      obtain ⟨gap, hgap, -⟩ := reads_of_skipTrivia hs
      rw [hs] at hlast
      rw [← hlast]
      dsimp only
      split
      · rename_i hnil
        simp only [deliveriesAt, hnil, List.head?_nil, Heredoc.opening?]
        exact ⟨rfl, _, .nil, fun _ _ => rfl⟩
      · rename_i hrest
        exact contains_tokenAt (exact_templateReader n) hr (hlx.reads hgap)
          (hgap.templatesLeft_eq.trans hn) hrest
  rw [tokenDeliveries]
  subst hn
  cases ht : lx.token (templateReader lx.templatesLeft) with
  | error cause next =>
    rw [ht] at hcontains
    rw [List.append_nil]
    exact hcontains
  | ok t next =>
    rw [ht] at hcontains
    obtain ⟨hlast, last', hinside, hlast'⟩ := hcontains
    refine hinside.append ?_
    rw [Scan.after, hlast]
    exact .cons hlx ht (fun hs hh => (hlast' hs hh).symm) .nil

end Tokens

section Sequences

variable {source : List Char} {lx : Lexer} {n : Nat}

theorem inOrder_templateDeliveries
    (hr : Recounts source n (templateReader n) (sequenceDeliveries n)) (hlx : lx.StandsIn source)
    (hn : lx.templatesLeft = n) (start : Position) (depth : Nat) :
    InOrder source lx.last
      (templateDeliveries (.ofTemplateReader (templateReader n))
        (tokenDeliveries (templateReader n) (sequenceDeliveries n)) depth lx)
      (templateTokens (.ofTemplateReader (templateReader n)) start depth lx).after.last := by
  have htoken : ∀ {lx : Lexer}, lx.StandsIn source → lx.templatesLeft = n →
      InOrder source lx.last (tokenDeliveries (templateReader n) (sequenceDeliveries n) lx)
        ((TokenReader.ofTemplateReader (templateReader n)).read lx).after.last :=
    inOrder_tokenDeliveries hr
  fun_induction templateDeliveries (.ofTemplateReader (templateReader n))
    (tokenDeliveries (templateReader n) (sequenceDeliveries n)) depth lx with
  | case1 depth lx cause after ht =>
    have hinside := htoken hlx hn
    rw [templateTokens_eq, ht]
    rwa [ht] at hinside
  | case2 depth lx t after ht hk =>
    have hinside := htoken hlx hn
    simp only [templateTokens_eq _ _ _ lx, ht, hk, if_true]
    rwa [ht] at hinside
  | case3 depth lx t after ht hk hd =>
    have hinside := htoken hlx hn
    simp only [templateTokens_eq _ _ _ lx, ht, hk, if_false, hd]
    rwa [ht] at hinside
  | case4 depth lx t after ht hk depth' hd ih =>
    have hinside := htoken hlx hn
    simp only [templateTokens_eq _ _ _ lx, ht, hk, if_false, hd]
    rw [ht] at hinside
    obtain ⟨text, hreads⟩ := (steps_of_token (exact_templateReader n) ht).exists_reads
    exact hinside.append (ih (hlx.reads hreads) (hreads.templatesLeft_eq.trans hn))

theorem recounts_sequenceDeliveries (source : List Char) (n : Nat) :
    Recounts source n (templateReader n) (sequenceDeliveries n) := by
  induction n with
  | zero => exact fun _ _ => .nil
  | succ n ih =>
    intro lx hlx hn
    have hopen := (hlx.enter .interpolation).reads (reads_consume _ 2)
    have hleft : ((lx.enter .interpolation).consume 2).templatesLeft = n := by
      simp only [templatesLeft, enter, consume, List.count_cons_self] at hn ⊢
      omega
    have hinside := inOrder_templateDeliveries ih hopen hleft lx.position 0
    show InOrder source lx.last _ (template _ lx).after.last
    rw [template]
    split
    all_goals
      rename_i ht
      rwa [ht] at hinside

theorem inOrder_delivered (hlx : lx.StandsIn source) :
    InOrder source lx.last lx.delivered lx.next.after.last :=
  inOrder_tokenDeliveries (recounts_sequenceDeliveries source _) hlx rfl

/-- The last token that was delivered is the one that the lexer remembers. -/
theorem inOrder_history (source : String) (n : Nat) :
    InOrder source.toList none ((ofString source).history n) ((ofString source).calls n).last := by
  induction n with
  | zero => exact .nil
  | succ n ih => exact ih.append (inOrder_delivered (standsIn_calls source n))

end Sequences

end Lexer

/-! ## Numbers -/

/-- How the token is read in front of `rest`, behind a token of the kind `last`: it is a number
where a numeral begins and nowhere else, its text is the longest numeral there is, and no more is
read. -/
structure Delivery.IsGreedy (last : Option TokenKind) (rest : List Char) (d : Delivery) : Prop where
  number : d.token.kind = .number ↔ Lexeme.BeginsNumeral last rest
  longest : d.token.kind = .number →
    Lexeme.IsLongest Lexeme.IsNumeral rest d.token.text.toList
  behind : d.token.kind = .number → rest = d.token.text.toList ++ d.back.rest

namespace Lexer

open Lexeme (BeginsNumeral)

section Greedy

variable {template : TemplateReader} {front lx next : Lexer} {t : Token} {last : Option TokenKind}
  {rest : List Char}

theorem isGreedy_of_ne (hk : t.kind ≠ .number) (h : ¬BeginsNumeral last rest) :
    Delivery.IsGreedy last rest ⟨front, t, next⟩ where
  number := iff_of_false hk h
  longest hnumber := absurd hnumber hk
  behind hnumber := absurd hnumber hk

theorem isGreedy_of_tokenAt {c : Char} {cs : List Char} (hrest : lx.rest = c :: cs)
    (h : lx.tokenAt template c = .ok t next)
    (hlast : t.kind ≠ .string → t.kind ≠ .heredoc → lx.last = last) :
    Delivery.IsGreedy last lx.rest ⟨front, t, next⟩ := by
  have hnone : c = '"' ∨ c = '<' → ¬BeginsNumeral last lx.rest := by
    intro hc hbegins
    have hhead := (hrest ▸ hbegins).head
    rcases hc with rfl | rfl <;> revert hhead <;> decide
  rcases tokenAt_cases h with ⟨hc, hq⟩ | ⟨-, opening, ho, hh⟩ | ⟨hc, ho, hs, hh⟩
  · exact isGreedy_of_ne (by simp [kind_of_quotedToken hq]) (hnone (.inl hc))
  · obtain ⟨dash, body, hless, -⟩ := Heredoc.exists_of_opening? ho
    obtain ⟨rfl, -⟩ := List.cons.inj (hrest.symm.trans hless)
    exact isGreedy_of_ne (by simp [kind_of_heredocToken hh]) (hnone (.inr rfl))
  have hbegins : Lexeme.numeralAhead lx.signAllowed lx.rest = true ↔ BeginsNumeral last lx.rest :=
    hlast hs hh ▸ Lexeme.numeralAhead_iff
  simp only [tokenAt, hc, if_false, ho] at h
  split at h
  · rename_i hnumeral
    simp only [plainToken, finish, Scan.ok.injEq] at h
    obtain ⟨rfl, rfl⟩ := h
    have htake := Lexeme.inline_numeral.take lx.rest
    refine ⟨iff_of_true rfl (hbegins.mp hnumeral), fun _ => ?_, fun _ => ?_⟩
    · rw [htake, String.toList_ofList]
      exact Lexeme.isLongest_numeral hnumeral
    · rw [String.toList_ofList]
      exact (List.take_append_drop _ _).symm
  · rename_i hnumeral
    refine isGreedy_of_ne ?_ fun hbegin => hnumeral (hbegins.mpr hbegin)
    split at h
    · rw [(rest_of_finish h).2]
      rcases kind_of_wordKind (Lexeme.word lx.rest) with hk | hk | hk <;> simp [hk]
    split at h
    · rename_i hfixed
      rw [(rest_of_finish h).2]
      exact (not_literal_of_fixed? hfixed).2.2
    · cases h

/-- One call. -/
theorem exists_isGreedy_of_next {source : List Char} (hlx : lx.StandsIn source)
    (h : lx.next = .ok t next) (hlast : t.kind ≠ .string → t.kind ≠ .heredoc → lx.last = last) :
    ∃ rest, dropBytes? t.span.start.offset source = some rest ∧
      Delivery.IsGreedy last rest ⟨lx, t, next⟩ := by
  obtain ⟨gap, mid, hgap, hat, hsame, hn⟩ := exists_atToken h
  have hmid := hlx.reads hgap
  refine ⟨mid.rest, hat.start_eq hn ▸ hmid.dropBytes?_eq, ?_⟩
  simp only [Lexer.next, token, show mid.skipTrivia = .ok () mid from hat] at hn
  split at hn
  · rename_i hnil
    refine isGreedy_of_ne (by simp [(rest_of_finish hn).2]) fun hbegins => ?_
    rw [hnil] at hbegins
    cases hbegins
  · rename_i hrest
    exact isGreedy_of_tokenAt hrest hn fun hs hh => hsame.trans (hlast hs hh)

end Greedy

/-- The lexer remembers the kind of the last token that was delivered, also inside of others and
before a call failed; what a call returns is delivered last. Each of these tokens is read greedily:
whether a sign belongs to a number depends on the one delivered before. -/
theorem isGreedy_of_history (source : String) (n : Nat) :
    ((ofString source).calls n).last =
        ((ofString source).history n).getLast?.map (·.token.kind) ∧
      (∀ {t : Token} {next : Lexer}, ((ofString source).calls n).next = .ok t next →
        ∃ before, (ofString source).history (n + 1) =
          before ++ [⟨(ofString source).calls n, t, next⟩]) ∧
      ∀ {before after : List Delivery} {d : Delivery},
        (ofString source).history n = before ++ d :: after →
          d.front.next = .ok d.token d.back ∧
            ∃ rest, dropBytes? d.token.span.start.offset source.toList = some rest ∧
              d.IsGreedy (before.getLast?.map (·.token.kind)) rest := by
  have horder := inOrder_history source n
  refine ⟨horder.last_eq.trans Option.or_none, exists_history_of_next, fun h => ?_⟩
  rw [h] at horder
  obtain ⟨last, hbefore, hd⟩ := horder.exists_of_append
  obtain rfl := hbefore.last_eq.trans Option.or_none
  cases hd with
  | cons hplace hnext hlast => exact ⟨hnext, exists_isGreedy_of_next hplace hnext hlast⟩

/-- Inside of a template sequence: `e+` is no exponent, and `-` behind a word no sign. -/
theorem isGreedy_of_history_template :
    ∃ before d after, (ofString "\"$\x7ba -1e+x\x7d\"").history 1 = before ++ d :: after ∧
      before.getLast?.map (·.token.view) = some (.operator, "-") ∧
      d.token.view = (.number, "1") ∧ d.front.next = .ok d.token d.back ∧
        ∃ rest, dropBytes? d.token.span.start.offset "\"$\x7ba -1e+x\x7d\"".toList = some rest ∧
          d.IsGreedy (before.getLast?.map (·.token.kind)) rest := by
  have hviews : ((ofString "\"$\x7ba -1e+x\x7d\"").history 1).map (·.token.view) =
      [(.ident, "a"), (.operator, "-")] ++ (.number, "1") :: [(.ident, "e"), (.operator, "+"),
        (.ident, "x"), (.rBrace, "\x7d"), (.string, "$\x7ba -1e+x\x7d")] := by decide +kernel
  obtain ⟨before, after, h, hbefore, hafter⟩ := List.map_eq_append_iff.mp hviews
  obtain ⟨d, after, rfl, hd, -⟩ := List.map_eq_cons_iff.mp hafter
  refine ⟨before, d, after, h, ?_, hd, (isGreedy_of_history _ 1).2.2 h⟩
  rw [← List.getLast?_map, hbefore]
  rfl

end Lexer

end Hcl
