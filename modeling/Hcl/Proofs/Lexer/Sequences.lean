import Hcl.Proofs.Lexer.Calls
import Hcl.Proofs.Lexer.Cut
import Hcl.Proofs.Lexer.Slices

/-!
# Template sequences of a token

The scan of a quoted literal or a heredoc reads the template sequences in it one after another, and
each of them is read token by token, so its tokens may have template sequences again. Here the scan
is followed and what it reads is noted down.
-/

namespace Hcl

/-- A template sequence, as the lexer that stands in front of it and the one behind it. -/
structure Sequence where
  front : Lexer
  back : Lexer

namespace Sequence

/-- What is written, from the marker to the closing brace. -/
def text (s : Sequence) : List Char := s.front.textUntil s.back

/-- The lexer in front of the first token, behind the marker and the brace. -/
def inside (s : Sequence) : Lexer := (s.front.enter .interpolation).consume 2

/-- Where the text stands in the source. -/
def span (s : Sequence) : Span := s.back.spanFrom s.front.position

end Sequence

namespace Lexer

/-! ## Sequences of a scan -/

/-- The template sequences that the scan of the pieces of a quoted literal reads. -/
def quotedSequences (template : TemplateReader) (lx : Lexer) : List Sequence :=
  match _ : Piece.ofQuoted lx.rest with
  | .text _ n => quotedSequences template (lx.consume n)
  | .template =>
    match _ : template.read lx with
    | .ok _ next => ⟨lx, next⟩ :: quotedSequences template next
    | .error _ _ => []
  | _ => []
termination_by lx.rest.length
decreasing_by
  · rename_i h
    exact length_consume_lt (Piece.length_pos_of_ofQuoted h).1 (Piece.length_pos_of_ofQuoted h).2
  · rename_i h
    exact template.shorter h

/-- The template sequences that the scan of the lines of a heredoc reads. -/
def heredocSequences (template : TemplateReader) (opening : Heredoc.Opening) (lineStart : Bool)
    (lx : Lexer) : List Sequence :=
  if lineStart && opening.closes lx.rest then []
  else
    match _ : Piece.ofHeredoc lx.rest with
    | .text text n => heredocSequences template opening (text == ['\n']) (lx.consume n)
    | .template =>
      match _ : template.read lx with
      | .ok _ next => ⟨lx, next⟩ :: heredocSequences template opening false next
      | .error _ _ => []
    | _ => []
termination_by lx.rest.length
decreasing_by
  · rename_i h
    exact length_consume_lt (Piece.length_pos_of_ofHeredoc h).1 (Piece.length_pos_of_ofHeredoc h).2
  · rename_i h
    exact template.shorter h

/-- The template sequences of the token that begins where `lx` stands. -/
def sequencesAt (template : TemplateReader) (lx : Lexer) : List Sequence :=
  if lx.rest.head? = some '"' then quotedSequences template ((lx.enter .string).consume 1)
  else
    match Heredoc.opening? lx.rest with
    | none => []
    | some opening =>
      let body := lx.consume opening.length
      if body.rest.head? = some '\n' then
        heredocSequences template opening true ((body.consume 1).enter .heredoc)
      else []

def tokenSequences (template : TemplateReader) (lx : Lexer) : List Sequence :=
  match lx.skipTrivia with
  | .error _ _ => []
  | .ok _ lx => lx.sequencesAt template

/-- The template sequences that are read while the next token is scanned, those in other template
sequences apart. -/
def sequences (lx : Lexer) : List Sequence := lx.tokenSequences (templateReader lx.templatesLeft)

/-- While the next token of `lx` is scanned the template sequence `s` is read, as the innermost of
`depth` ones that are open then. -/
inductive Opens : (lx : Lexer) → (depth : Nat) → (s : Sequence) → Prop where
  | direct {lx : Lexer} {s : Sequence} : s ∈ lx.sequences → Opens lx 1 s
  | nested {lx inner : Lexer} {depth : Nat} {s s' : Sequence} {t : Token} {ts us : List Token} :
      s ∈ lx.sequences → Emits s.inside ts inner →
      Emits inner (t :: us) (s.back.enter .interpolation) → Opens inner depth s' →
      Opens lx (depth + 1) s'

/-! ## One round -/

section Rounds

variable {template : TemplateReader} {lx next : Lexer} {text : List Char} {n : Nat}

theorem quotedSequences_text (h : Piece.ofQuoted lx.rest = .text text n) :
    quotedSequences template lx = quotedSequences template (lx.consume n) := by
  rw [quotedSequences]
  split <;> simp_all

theorem quotedSequences_template (h : Piece.ofQuoted lx.rest = .template)
    (hr : template.read lx = .ok text next) :
    quotedSequences template lx = ⟨lx, next⟩ :: quotedSequences template next := by
  rw [quotedSequences]
  split <;> simp_all
  split <;> simp_all

theorem quotedSequences_quote (h : Piece.ofQuoted lx.rest = .quote) :
    quotedSequences template lx = [] := by
  rw [quotedSequences]
  split <;> simp_all

theorem heredocSequences_eq (template : TemplateReader) (opening : Heredoc.Opening)
    (lineStart : Bool) (lx : Lexer) :
    heredocSequences template opening lineStart lx =
      if lineStart && opening.closes lx.rest then []
      else
        match Piece.ofHeredoc lx.rest with
        | .text text n => heredocSequences template opening (text == ['\n']) (lx.consume n)
        | .template =>
          match template.read lx with
          | .ok _ next => ⟨lx, next⟩ :: heredocSequences template opening false next
          | .error _ _ => []
        | _ => [] := by
  rw [heredocSequences]
  split
  · rfl
  · split <;> simp_all
    split <;> simp_all

end Rounds

/-! ## What a sequence is -/

theorem Reads.enter {lx next : Lexer} {text : List Char} (h : lx.Reads text next) (mode : Mode) :
    (lx.enter mode).Reads text (next.enter mode) :=
  ⟨h.rest, h.position, congrArg (mode :: ·) h.entered⟩

/-- When `lx` has read what is in front of the sequence, it is read with `template`. -/
structure Meets (template : TemplateReader) (lx : Lexer) (s : Sequence) : Prop where
  reads : ∃ text, lx.Reads text s.front
  marked : ∃ marker ∈ ['$', '%'], ∃ cs, s.front.rest = marker :: '{' :: cs
  read : template.read s.front = .ok s.text s.back

end Lexer

theorem Piece.exists_of_marker {c : Char} {cs : List Char} (hc : c = '$' ∨ c = '%')
    (h : marker c cs = .template) : ∃ marker ∈ ['$', '%'], ∃ ds, c :: cs = marker :: '{' :: ds := by
  simp only [marker] at h
  split at h
  · cases h
  split at h
  · rename_i hbrace
    obtain ⟨ds, rfl⟩ := List.head?_eq_some_iff.mp hbrace
    exact ⟨c, by simpa using hc, ds, rfl⟩
  · cases h

theorem Piece.exists_of_ofQuoted {cs : List Char} (h : ofQuoted cs = .template) :
    ∃ marker ∈ ['$', '%'], ∃ ds, cs = marker :: '{' :: ds := by
  cases cs with
  | nil => cases h
  | cons c cs =>
    simp only [ofQuoted] at h
    split at h
    · cases h
    split at h
    · cases h
    split at h
    · unfold escape at h
      split at h
      case h_7 | h_8 =>
        simp only [codePoint] at h
        split at h <;> cases h
      all_goals cases h
    split at h
    · exact exists_of_marker ‹_› h
    · cases h

theorem Piece.exists_of_ofHeredoc {cs : List Char} (h : ofHeredoc cs = .template) :
    ∃ marker ∈ ['$', '%'], ∃ ds, cs = marker :: '{' :: ds := by
  cases cs with
  | nil => cases h
  | cons c cs =>
    simp only [ofHeredoc] at h
    split at h
    · cases h
    split at h
    · exact exists_of_marker ‹_› h
    · cases h

namespace Lexer

section Meets

variable {template : TemplateReader} {lx mid next : Lexer} {s : Sequence} {text : List Char}

theorem Meets.of_reads (h : lx.Reads text mid) (hs : mid.Meets template s) :
    lx.Meets template s where
  reads := by
    obtain ⟨more, hmore⟩ := hs.reads
    exact ⟨text ++ more, h.trans hmore⟩
  marked := hs.marked
  read := hs.read

theorem meets_of_read (hx : template.Exact) (hr : template.read lx = .ok text next)
    (hm : ∃ marker ∈ ['$', '%'], ∃ cs, lx.rest = marker :: '{' :: cs) :
    lx.Meets template ⟨lx, next⟩ where
  reads := ⟨[], .refl lx⟩
  marked := hm
  read := by
    rw [Sequence.text, (hx hr).textUntil]
    exact hr

theorem meets_of_quotedSequences (hx : template.Exact) (h : s ∈ quotedSequences template lx) :
    lx.Meets template s := by
  fun_induction quotedSequences template lx with
  | case1 lx text n hp ih => exact (ih h).of_reads (reads_consume lx n)
  | case2 lx hp text next hr ih =>
    rcases List.mem_cons.mp h with rfl | h
    · exact meets_of_read hx hr (Piece.exists_of_ofQuoted hp)
    · exact (ih h).of_reads (hx hr)
  | _ => cases h

theorem meets_of_heredocSequences (hx : template.Exact) {opening : Heredoc.Opening}
    {lineStart : Bool} (h : s ∈ heredocSequences template opening lineStart lx) :
    lx.Meets template s := by
  fun_induction heredocSequences template opening lineStart lx with
  | case2 lineStart lx hc text n hp ih => exact (ih h).of_reads (reads_consume lx n)
  | case3 lineStart lx hc hp text next hr ih =>
    rcases List.mem_cons.mp h with rfl | h
    · exact meets_of_read hx hr (Piece.exists_of_ofHeredoc hp)
    · exact (ih h).of_reads (hx hr)
  | _ => cases h

theorem exists_meets_of_sequencesAt (hx : template.Exact) (h : s ∈ lx.sequencesAt template) :
    ∃ mode, mode ≠ .interpolation ∧ (lx.enter mode).Meets template s := by
  simp only [sequencesAt] at h
  split at h
  · exact ⟨.string, by decide,
      (meets_of_quotedSequences hx h).of_reads (reads_consume (lx.enter .string) 1)⟩
  split at h
  · cases h
  split at h
  · rename_i opening _ _
    have hbody := (reads_consume lx opening.length).trans (reads_consume _ 1)
    exact ⟨.heredoc, by decide, (meets_of_heredocSequences hx h).of_reads (hbody.enter .heredoc)⟩
  · cases h

theorem exists_meets_of_tokenSequences (hx : template.Exact) (h : s ∈ lx.tokenSequences template) :
    ∃ mode, mode ≠ .interpolation ∧ (lx.enter mode).Meets template s := by
  simp only [tokenSequences] at h
  split at h
  · cases h
  · rename_i hs
    obtain ⟨gap, hgap, -⟩ := reads_of_skipTrivia hs
    obtain ⟨mode, hmode, hmeets⟩ := exists_meets_of_sequencesAt hx h
    exact ⟨mode, hmode, hmeets.of_reads (hgap.enter mode)⟩

end Meets

/-! ## Tokens of a sequence -/

/-- How many braces are open behind tokens of these kinds, when `depth` were open before; none if
one of them closes more than were opened. -/
def bracesBehind (depth : Nat) (kinds : List TokenKind) : Option Nat :=
  kinds.foldlM (fun depth kind => bracesAfter kind depth) depth

@[simp] theorem bracesBehind_nil (depth : Nat) : bracesBehind depth [] = some depth := rfl

@[simp] theorem bracesBehind_cons (depth : Nat) (kind : TokenKind) (kinds : List TokenKind) :
    bracesBehind depth (kind :: kinds) =
      (bracesAfter kind depth).bind fun depth => bracesBehind depth kinds := rfl

theorem bracesBehind_append (depth : Nat) (before kinds : List TokenKind) :
    bracesBehind depth (before ++ kinds) =
      (bracesBehind depth before).bind fun depth => bracesBehind depth kinds := List.foldlM_append

theorem bracesAfter_eq_none {kind : TokenKind} {depth : Nat} (h : bracesAfter kind depth = none) :
    kind = .rBrace ∧ depth = 0 := by
  unfold bracesAfter at h
  split at h <;> simp_all

section Tokens

variable {lx mid next : Lexer} {start : Position} {depth n : Nat} {ts : List Token} {t brace : Token}

/-- `lx` scans the tokens `ts`, and then the brace that closes what was opened before `depth` other
braces. -/
structure Closes (lx : Lexer) (depth : Nat) (ts : List Token) (mid : Lexer) (brace : Token)
    (next : Lexer) : Prop where
  emits : Emits lx ts mid
  next : mid.next = .ok brace next
  kind : brace.kind = .rBrace
  braces : bracesBehind depth (ts.map Token.kind) = some 0

theorem exists_closes_of_templateTokens {u : Unit} (hn : lx.templatesLeft = n)
    (h : templateTokens (.ofTemplateReader (templateReader n)) start depth lx = .ok u next) :
    ∃ ts mid brace, lx.Closes depth ts mid brace next := by
  fun_induction templateTokens (.ofTemplateReader (templateReader n)) start depth lx with
  | case3 depth lx t after ht hk hd =>
    simp only [Scan.ok.injEq, true_and] at h
    obtain ⟨hkind, rfl⟩ := bracesAfter_eq_none hd
    subst hn
    exact ⟨[], lx, t, .nil, h ▸ ht, hkind, rfl⟩
  | case4 depth lx t after ht hk depth' hd ih =>
    subst hn
    obtain ⟨text, htext⟩ := (steps_of_next ht).exists_reads
    obtain ⟨ts, mid, brace, hclose⟩ := ih htext.templatesLeft_eq h
    refine ⟨t :: ts, mid, brace, .cons ht hk hclose.emits, hclose.next, hclose.kind, ?_⟩
    rw [List.map_cons, bracesBehind_cons, hd]
    exact hclose.braces
  | _ => cases h

theorem Closes.templateTokens_eq (h : lx.Closes depth ts mid brace next)
    (hn : lx.templatesLeft = n) (start : Position) :
    templateTokens (.ofTemplateReader (templateReader n)) start depth lx = .ok () next := by
  obtain ⟨hemits, hnext, hkind, hbraces⟩ := h
  induction hemits generalizing depth with
  | nil =>
    subst hn
    rw [List.map_nil, bracesBehind_nil, Option.some.injEq] at hbraces
    rw [Lexer.templateTokens_eq, show (TokenReader.ofTemplateReader _).read _ = _ from hnext]
    simp [hkind, hbraces, bracesAfter]
  | @cons lx after mid t ts ht hk hmore ih =>
    subst hn
    obtain ⟨text, htext⟩ := (steps_of_next ht).exists_reads
    rw [List.map_cons, bracesBehind_cons] at hbraces
    obtain ⟨depth', hd, hbraces⟩ := Option.bind_eq_some_iff.mp hbraces
    rw [Lexer.templateTokens_eq, show (TokenReader.ofTemplateReader _).read _ = _ from ht]
    simp only [hk, if_false, hd]
    exact ih htext.templatesLeft_eq hnext hbraces

theorem rest_of_rBrace {template : TemplateReader} {c : Char} {cs : List Char}
    (hrest : lx.rest = c :: cs) (h : lx.tokenAt template c = .ok t next) (hk : t.kind = .rBrace) :
    c = '}' ∧ next.rest = cs := by
  have hkind : ∀ {kind : TokenKind} {text : String} {mid : Lexer},
      mid.finish kind text lx.position = .ok t next → kind = .rBrace :=
    fun hf => (rest_of_finish hf).2.symm.trans hk
  simp only [tokenAt] at h
  split at h
  · cases (kind_of_quotedToken h).symm.trans hk
  split at h
  · cases (kind_of_heredocToken h).symm.trans hk
  split at h
  · cases hkind h
  split at h
  · have hword := kind_of_wordKind (Lexeme.word lx.rest)
    rw [hkind h] at hword
    simp at hword
  split at h
  · rename_i kind n hf
    obtain rfl := hkind h
    rw [hrest] at hf
    unfold Lexeme.fixed? at hf
    split at hf <;> simp at hf
    obtain rfl := hf
    rename_i hc
    obtain ⟨rfl, rfl⟩ := List.cons.inj hc
    refine ⟨rfl, ?_⟩
    rw [(rest_of_finish h).1, consume_rest, hrest]
    rfl
  · cases h

/-- A closing brace stands behind what is skipped in front of it. -/
theorem exists_skipTrivia_of_rBrace (h : lx.next = .ok t next) (hk : t.kind = .rBrace) :
    ∃ gap mid, lx.skipTrivia = .ok () mid ∧ lx.Reads gap mid ∧ mid.rest = '}' :: next.rest := by
  simp only [Lexer.next, token] at h
  split at h
  · cases h
  rename_i mid hs
  obtain ⟨gap, hgap, -⟩ := reads_of_skipTrivia hs
  split at h
  · cases (rest_of_finish h).2.symm.trans hk
  · rename_i hrest
    obtain ⟨rfl, rfl⟩ := rest_of_rBrace hrest h hk
    exact ⟨gap, mid, hs, hgap, hrest⟩

end Tokens

section Nested

variable {lx inner : Lexer} {s : Sequence} {source : List Char} {depth : Nat}

/-- A template sequence uses up one of those that may be opened, and ends with a brace. -/
theorem exists_closes_of_sequences (h : s ∈ lx.sequences) :
    lx.templatesLeft = s.inside.templatesLeft + 1 ∧
      ∃ ts mid brace, s.inside.Closes 0 ts mid brace (s.back.enter .interpolation) := by
  obtain ⟨mode, hmode, hmeets⟩ := exists_meets_of_tokenSequences (exact_templateReader _) h
  obtain ⟨text, htext⟩ := hmeets.reads
  have hread := hmeets.read
  have hinside : s.inside.entered = .interpolation :: mode :: lx.entered :=
    congrArg (Mode.interpolation :: ·) htext.entered
  have hcount : s.inside.templatesLeft = lx.templatesLeft - 1 := by
    rw [templatesLeft, hinside, templatesLeft, List.count_cons_self, List.count_cons_of_ne hmode]
    omega
  cases hn : lx.templatesLeft with
  | zero =>
    rw [hn] at hread
    cases hread
  | succ n =>
    rw [hn] at hcount hread
    refine ⟨by rw [hcount]; rfl, ?_⟩
    obtain ⟨after, htokens, -, hback⟩ := exists_templateTokens_of_template hread
    obtain ⟨more, hmore⟩ :=
      exists_reads_of_templateTokens (fun h => steps_of_token (exact_templateReader n) h) htokens
    have hafter : s.back.enter .interpolation = after := by
      have hentered := hmore.entered.trans hinside
      obtain ⟨rest, position, entered, last⟩ := after
      obtain rfl : entered = _ := hentered
      rw [hback]
      rfl
    rw [hafter]
    exact exists_closes_of_templateTokens hcount htokens

/-- What a template sequence is written like, and that its text is what stands in the source. -/
theorem exists_text_of_sequences (h : s ∈ lx.sequences) :
    s.front.Reads s.text s.back ∧ ∃ marker ∈ ['$', '%'], ∃ inner,
      s.text = marker :: '{' :: (inner ++ ['}']) ∧ s.inside.rest = inner ++ '}' :: s.back.rest := by
  obtain ⟨mode, -, hmeets⟩ := exists_meets_of_tokenSequences (exact_templateReader _) h
  obtain ⟨-, ts, mid, brace, hclose⟩ := exists_closes_of_sequences h
  obtain ⟨marker, hmarker, cs, hcs⟩ := hmeets.marked
  obtain ⟨gap, at', -, hgap, hat⟩ := exists_skipTrivia_of_rBrace hclose.next hclose.kind
  obtain ⟨body, hbody⟩ := hclose.emits.exists_reads
  have hreads := exact_templateReader _ hmeets.read
  have hinside : s.inside.rest = (body ++ gap) ++ '}' :: s.back.rest := by
    rw [(hbody.trans hgap).rest, hat]
    rfl
  have hopen : s.inside.rest = cs := congrArg (List.drop 2) hcs
  refine ⟨hreads, marker, hmarker, body ++ gap, ?_, hinside⟩
  have hrest := hreads.rest
  rw [hcs, ← hopen, hinside] at hrest
  refine (List.append_left_inj s.back.rest).mp (hrest.symm.trans ?_)
  simp

theorem Opens.depth_le (h : lx.Opens depth s) : depth ≤ lx.templatesLeft := by
  induction h with
  | direct hs =>
    have hleft := (exists_closes_of_sequences hs).1
    omega
  | nested hs hemits _ _ ih =>
    obtain ⟨text, htext⟩ := hemits.exists_reads
    have hleft := (exists_closes_of_sequences hs).1
    rw [htext.templatesLeft_eq] at ih
    omega

theorem standsIn_front (h : lx.StandsIn source) (hs : s ∈ lx.sequences) :
    s.front.StandsIn source := by
  obtain ⟨mode, -, hmeets⟩ := exists_meets_of_tokenSequences (exact_templateReader _) hs
  obtain ⟨text, htext⟩ := hmeets.reads
  have hopen : (lx.enter mode).StandsIn source := h
  exact hopen.reads htext

/-- Each template sequence that is read is one of those of a token. -/
theorem Opens.exists_mem_sequences (h : lx.Opens depth s) (hlx : lx.StandsIn source) :
    ∃ inner : Lexer, s ∈ inner.sequences ∧ inner.StandsIn source := by
  induction h with
  | direct hs => exact ⟨_, hs, hlx⟩
  | @nested lx inner depth s s' t ts us hs hemits _ _ ih =>
    obtain ⟨text, htext⟩ := hemits.exists_reads
    have hopen := (standsIn_front hlx hs).reads (reads_consume s.front 2)
    have hinside : s.inside.StandsIn source := hopen
    exact ih (hinside.reads htext)

end Nested

end Lexer

end Hcl
