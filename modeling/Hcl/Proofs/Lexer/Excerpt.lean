import Hcl.Proofs.Lexer.Cut
import Hcl.Proofs.Plain.Lexing

/-!
# Excerpts

The text from one token to a later one, taken out of a source and written as the value of an
attribute, is read as the same tokens there: a line break ends the last one, and a sign may stand in
front of the first one.
-/

namespace Hcl

/-- From the first to the last of the tokens, the source is `text`. -/
def Written (source : List Char) (ts : List Token) (text : List Char) : Prop :=
  ∃ pre post, source = pre ++ (text ++ post) ∧
    (∀ t ∈ ts.head?, t.span.start.offset = byteCount pre) ∧
    ∀ t ∈ ts.getLast?, t.span.stop = byteCount pre + byteCount text

theorem Written.slice? {source text : List Char} {ts : List Token} {first last : Token}
    (h : Written source ts text) (hfirst : ts.head? = some first)
    (hlast : ts.getLast? = some last) :
    (first.span.upTo last.span).slice? source = some (String.ofList text) := by
  obtain ⟨pre, post, rfl, hstart, hstop⟩ := h
  have hstart := hstart first hfirst
  have hstop := hstop last hlast
  refine Span.slice?_append hstart ?_
  simp only [Span.upTo, hstart, hstop, Nat.add_sub_cancel_left]

/-- A source with one attribute, the value of which is `text`. -/
def asValue (text : String) : String := "x = " ++ text ++ "\n"

theorem toList_asValue (text : List Char) : (asValue (String.ofList text)).toList =
    'x' :: ' ' :: '=' :: ' ' :: (text ++ ['\n']) := by
  simp [asValue]

namespace Lexer

variable {lx lx' mid next next' : Lexer} {back tail text : List Char} {t : Token} {ts : List Token}

/-! ## In front of a token -/

/-- Nothing is to be skipped. -/
def AtToken (lx : Lexer) : Prop := lx.skipTrivia = .ok () lx

theorem AtToken.start_eq (h : lx.AtToken) (hn : lx.next = .ok t next) :
    t.span.start = lx.position := by
  simp only [Lexer.next, token, show lx.skipTrivia = .ok () lx from h] at hn
  split at hn
  · simp only [finish, Scan.ok.injEq] at hn
    rw [← hn.1]
    rfl
  · rename_i hrest
    obtain ⟨text, hscans⟩ := exists_scans_of_tokenAt (exact_templateReader _) hrest hn
    rw [hscans.span]

theorem atToken_of_skipTrivia {u : Unit} (h : lx.skipTrivia = .ok u mid) : mid.AtToken := by
  simp only [skipTrivia] at h
  split at h
  · rename_i hu
    simp only [Scan.ok.injEq, true_and] at h
    subst h
    simp only [AtToken, skipTrivia, Trivia.skip_stop _ _ _ _ hu]
  · cases h

theorem next_of_skipTrivia {u : Unit} (h : lx.skipTrivia = .ok u mid) : lx.next = mid.next := by
  obtain ⟨gap, hreads, -⟩ := reads_of_skipTrivia h
  have hat : mid.skipTrivia = .ok () mid := atToken_of_skipTrivia h
  simp only [Lexer.next, token, h, hat, hreads.templatesLeft_eq]

theorem exists_skipTrivia_of_next (h : lx.next = .ok t next) :
    ∃ mid, lx.skipTrivia = .ok () mid := by
  simp only [Lexer.next, token] at h
  split at h
  · cases h
  · exact ⟨_, ‹_›⟩

/-- At the end of a text all that is left is skipped. -/
theorem exists_skipTrivia_of_stream {p : Position} (h : lx.stream = ⟨[], .ok p⟩) :
    ∃ mid, lx.skipTrivia = .ok () mid ∧ mid.rest = [] := by
  cases hn : lx.next with
  | error cause after =>
    rw [stream_of_error hn] at h
    cases h
  | ok t next =>
    have hk : t.kind = .eof := by
      refine Decidable.byContradiction fun hk => ?_
      rw [stream_of_next hn hk] at h
      cases h
    obtain ⟨mid, hs⟩ := exists_skipTrivia_of_next hn
    refine ⟨mid, hs, ?_⟩
    simp only [Lexer.next, token, hs] at hn
    split at hn
    · assumption
    · rename_i hrest
      obtain ⟨text, hscans⟩ := exists_scans_of_tokenAt (exact_templateReader _) hrest hn
      exact absurd hk hscans.ne_eof

/-- A token is scanned as well from where it stands. -/
theorem exists_atToken (h : lx.next = .ok t next) :
    ∃ gap mid, lx.Reads gap mid ∧ mid.AtToken ∧ mid.last = lx.last ∧ mid.next = .ok t next := by
  obtain ⟨mid, hs⟩ := exists_skipTrivia_of_next h
  obtain ⟨gap, hreads, -, hlast⟩ := reads_of_skipTrivia hs
  exact ⟨gap, mid, hreads, atToken_of_skipTrivia hs, hlast, next_of_skipTrivia hs ▸ h⟩

theorem Cut.atToken {kept : List Char} (h : Cut back tail lx lx') (ha : lx.AtToken)
    (hkept : lx.rest = kept ++ back) (hne : kept ≠ []) : lx'.AtToken := by
  obtain ⟨mid', hs, hcut⟩ := skipTrivia_cut h ha hkept (.inl hne)
  obtain ⟨gap, hreads, -, hlast⟩ := reads_of_skipTrivia hs
  have hrest : mid'.rest = lx'.rest := (hcut.rest_eq hkept).trans (h.rest_eq hkept).symm
  have hgap : gap = [] := by
    have hlength := congrArg List.length hreads.rest
    rw [hrest, List.length_append] at hlength
    exact List.length_eq_zero_iff.mp (by omega)
  have hmid : mid' = lx' := by
    obtain ⟨rest, position, entered, last⟩ := mid'
    have hposition := hreads.position
    rw [hgap] at hposition
    have hentered := hreads.entered
    simp only [Position.after_nil] at *
    subst hrest hposition hentered hlast
    rfl
  rwa [hmid] at hs

/-! ## Behind a token -/

theorem Emits.stop_eq (h : Emits lx ts next) :
    ∀ t ∈ ts.getLast?, t.span.stop = next.position.offset := by
  induction h with
  | nil => nofun
  | @cons lx mid next t ts hn _ hmore ih =>
    cases ts with
    | nil =>
      cases hmore
      simpa using stop_of_next hn
    | cons u us => rwa [List.getLast?_cons_cons]

theorem Emits.written (h : Emits lx ts next) (ha : lx.AtToken) (hr : lx.Reads text next)
    {pre : List Char} (hpre : byteCount pre = lx.position.offset) :
    Written (pre ++ lx.rest) ts text := by
  refine ⟨pre, next.rest, by rw [hr.rest], ?_, ?_⟩
  · cases h with
    | nil => nofun
    | cons hn _ _ => simp [ha.start_eq hn, hpre]
  · intro t ht
    rw [h.stop_eq t ht, hr.position, Position.offset_after, hpre]

/-! ## The value of an attribute -/

theorem Emits.of_next_eq (h : Emits lx' ts next) (hn : lx.next = lx'.next) (hne : ts ≠ []) :
    Emits lx ts next := by
  cases h with
  | nil => exact absurd rfl hne
  | cons hn' hk hmore => exact .cons (hn.trans hn') hk hmore

/-- The lexer behind the name, the sign and the blank in front of a value. -/
theorem exists_value {source : String} {name cs : List Char} (hname : Plain.IsIdentifier name)
    (hk : Lexeme.wordKind name = .ident)
    (hsource : source.toList = name ++ ([' ', '='] ++ ' ' :: cs)) :
    ∃ x sign front value, (ofString source).Reads front value ∧ value.rest = cs ∧
      value.signAllowed = true ∧ x.view = (.ident, String.ofList name) ∧ sign.kind = .equals ∧
      ∀ {ts next}, Emits value ts next → ts ≠ [] →
        Emits (ofString source) (x :: sign :: ts) next := by
  have hname : Lexes name ([' ', '='] ++ ' ' :: cs) none [(.ident, String.ofList name)]
      (some .ident) := by
    rw [← hk]
    exact Plain.lexes_word none name hname ⟨' ', '=' :: ' ' :: cs, rfl, .inl rfl⟩
  have hsign : Lexes ['='] (' ' :: cs) (some .ident) [Plain.mark .equals '='] (some .equals) :=
    Plain.lexes_single (by decide) (by simp) rfl
  have hrest : (ofString source).rest = name ++ [' ', '='] ++ ' ' :: cs := by
    rw [List.append_assoc, ← hsource]
    rfl
  obtain ⟨ts, mid, hts, hviews, hmid, hlast⟩ :=
    hname.append (hsign.blank (by simp)) (ofString source) hrest rfl
  obtain ⟨x, ts, rfl, hx, hviews⟩ := List.map_eq_cons_iff.mp hviews
  obtain ⟨sign, ts, rfl, hsign, hviews⟩ := List.map_eq_cons_iff.mp hviews
  obtain rfl := List.map_eq_nil_iff.mp hviews
  obtain ⟨front, hreads⟩ := hts.exists_reads
  have hblank : mid.Reads [' '] { mid with rest := cs, position := mid.position.next ' ' } :=
    ⟨hmid, rfl, rfl⟩
  refine ⟨x, sign, _, _, hreads.trans hblank, rfl, ?_, hx, congrArg Prod.fst hsign, ?_⟩
  · rw [signAllowed, hlast]
    rfl
  · intro us next hus hne
    exact hts.append (hus.of_next_eq (next_of_blank hmid) hne)

theorem Emits.ne_nil_of_reads (h : Emits lx ts next) (hne : ts ≠ []) (hr : lx.Reads text next) :
    text ≠ [] := by
  rintro rfl
  cases h with
  | nil => exact hne rfl
  | cons hn hk hmore =>
    obtain ⟨more, hmore⟩ := hmore.exists_reads
    have hlt := length_next_lt hn hk
    have hle := hmore.suffix.length_le
    rw [hr.rest, List.nil_append] at hlt
    omega

/-- A line break in front of the end. -/
theorem exists_stream_newline (h : lx.rest = ['\n']) :
    ∃ nl p, nl.kind = .newline ∧ lx.stream = ⟨[nl], .ok p⟩ := by
  obtain ⟨ts, next, hts, hviews, hend, -⟩ := Plain.lexes_newline [] lx.last lx h rfl
  obtain ⟨nl, ts, rfl, hnl, hviews⟩ := List.map_eq_cons_iff.mp hviews
  obtain rfl := List.map_eq_nil_iff.mp hviews
  have hstream := hts.stream_eq
  rw [stream_of_rest_nil hend] at hstream
  exact ⟨nl, _, congrArg Prod.fst hnl, hstream⟩

theorem ne_nil_of_map_view {ts' : List Token} (h : ts'.map Token.view = ts.map Token.view)
    (hne : ts ≠ []) : ts' ≠ [] := by
  rintro rfl
  exact hne (List.map_eq_nil_iff.mp h.symm)

theorem Emits.exists_excerpt (h : Emits lx ts next) (ha : lx.AtToken) (he : lx.entered = [])
    (hs : lx.signAllowed = true) (hne : ts ≠ []) (hr : lx.Reads text next) :
    ∃ x sign ts' nl p, TokenStream.ofString (asValue (String.ofList text)) =
        ⟨x :: sign :: (ts' ++ [nl]), .ok p⟩ ∧
      x.view = (.ident, "x") ∧ sign.kind = .equals ∧ nl.kind = .newline ∧
      ts'.map Token.view = ts.map Token.view ∧
      Written (asValue (String.ofList text)).toList ts' text := by
  have hname : Plain.IsIdentifier ['x'] := by decide
  obtain ⟨x, sign, front, value, hreads, hrest, hsign', hx, hsign, hemits⟩ :=
    exists_value hname rfl (toList_asValue text)
  have hcut : Cut next.rest ['\n'] lx value :=
    ⟨stops_newline [], ⟨text, hr.rest, hrest⟩, hreads.entered.trans he.symm, hsign'.trans hs.symm⟩
  have hat := hcut.atToken ha hr.rest (h.ne_nil_of_reads hne hr)
  obtain ⟨ts', next', hts', hviews, hnext'⟩ := h.cut hcut (List.suffix_refl _) (by simp)
  obtain ⟨text', hr'⟩ := hts'.exists_reads
  rw [hcut.reads_eq hnext' hr hr'] at hr'
  obtain ⟨nl, p, hnl, hstream⟩ := exists_stream_newline (hnext'.rest_eq (List.nil_append _).symm)
  have hall := (hemits hts' (ne_nil_of_map_view hviews hne)).stream_eq
  rw [hstream] at hall
  refine ⟨x, sign, ts', nl, p, hall, hx, hsign, hnl, hviews, ?_⟩
  have hsource : (asValue (String.ofList text)).toList = front ++ value.rest := hreads.rest
  rw [hsource]
  refine hts'.written hat hr' ?_
  rw [hreads.position, Position.offset_after]
  exact (Nat.zero_add _).symm

/-- A text without lexical errors is read as the same tokens as the value of an attribute. -/
theorem Emits.exists_attribute (h : Emits lx ts next) (he : lx.entered = [])
    (hs : lx.signAllowed = true) (hne : ts ≠ []) {p : Position} (hend : next.stream = ⟨[], .ok p⟩)
    {source : String} {name : List Char} (hname : Plain.IsIdentifier name)
    (hk : Lexeme.wordKind name = .ident)
    (hsource : source.toList = name ++ ([' ', '='] ++ ' ' :: (lx.rest ++ ['\n']))) :
    ∃ x sign ts' nl q, TokenStream.ofString source = ⟨x :: sign :: (ts' ++ [nl]), .ok q⟩ ∧
      x.view = (.ident, String.ofList name) ∧ sign.kind = .equals ∧ nl.kind = .newline ∧
      ts'.map Token.view = ts.map Token.view := by
  obtain ⟨x, sign, front, value, hreads, hrest, hsign', hx, hsign, hemits⟩ :=
    exists_value hname hk hsource
  have hcut : Cut [] ['\n'] lx value :=
    ⟨stops_newline [], ⟨lx.rest, by simp, hrest⟩, hreads.entered.trans he.symm, hsign'.trans hs.symm⟩
  obtain ⟨ts', next', hts', hviews, hnext'⟩ := h.cut hcut List.nil_suffix (by simp)
  -- what follows the last token is skipped up to the line break
  obtain ⟨mid, hskip, hmid⟩ := exists_skipTrivia_of_stream hend
  have hmid : mid.rest = [] ++ [] := hmid
  obtain ⟨mid', hskip', hmid'⟩ := skipTrivia_cut hnext' hskip hmid (.inr ⟨rfl, by simp⟩)
  obtain ⟨nl, q, hnl, hstream⟩ := exists_stream_newline (hmid'.rest_eq hmid)
  have hall := (hemits hts' (ne_nil_of_map_view hviews hne)).stream_eq
  rw [stream_eq_of_next (next_of_skipTrivia hskip'), hstream] at hall
  exact ⟨x, sign, ts', nl, q, hall, hx, hsign, hnl, hviews⟩

end Lexer

/-- Tokens in the midst of a source, behind one that ends no operand. -/
theorem TokenStream.exists_excerpt {source : String} {before ts back : List Token} {b : Token}
    (h : (ofString source).tokens = before ++ b :: (ts ++ back)) (hb : b.kind.endsOperand = false)
    (hne : ts ≠ []) :
    ∃ text x sign ts' nl p, Written source.toList ts text ∧
      ofString (asValue (String.ofList text)) = ⟨x :: sign :: (ts' ++ [nl]), .ok p⟩ ∧
      x.view = (.ident, "x") ∧ sign.kind = .equals ∧ nl.kind = .newline ∧
      ts'.map Token.view = ts.map Token.view ∧
      Written (asValue (String.ofList text)).toList ts' text := by
  have hsplit : (Lexer.ofString source).stream.tokens = (before ++ [b]) ++ (ts ++ back) := by
    rw [List.append_assoc]
    exact h
  obtain ⟨mid, hfront, hmid⟩ := Lexer.exists_emits_of_stream hsplit
  obtain ⟨next, hts, -⟩ := Lexer.exists_emits_of_stream hmid
  cases hts with
  | nil => exact absurd rfl hne
  | @cons _ _ _ t us hn hk hmore =>
  obtain ⟨front, hreads⟩ := hfront.exists_reads
  obtain ⟨gap, first, hgap, hat, hlast, hn⟩ := Lexer.exists_atToken hn
  have hts := Lexer.Emits.cons hn hk hmore
  obtain ⟨text, htext⟩ := hts.exists_reads
  have hbefore := hreads.trans hgap
  have hsign : first.signAllowed = true := by
    rw [Lexer.signAllowed, hlast, hfront.last_eq]
    simp [hb]
  have hwritten : Written source.toList (t :: us) text := by
    have hrest : source.toList = (front ++ gap) ++ first.rest := hbefore.rest
    rw [hrest]
    refine hts.written hat htext ?_
    rw [hbefore.position, Position.offset_after]
    exact (Nat.zero_add _).symm
  obtain ⟨x, sign, ts', nl, p, hexcerpt⟩ := hts.exists_excerpt hat hbefore.entered hsign hne htext
  exact ⟨text, x, sign, ts', nl, p, hwritten, hexcerpt⟩

/-- The tokens of a text, and of an attribute with this text as its value. -/
theorem TokenStream.exists_attribute {text source : String} {ts : List Token} {p : Position}
    (h : ofString text = ⟨ts, .ok p⟩) (hne : ts ≠ []) {name : List Char}
    (hname : Plain.IsIdentifier name) (hk : Lexeme.wordKind name = .ident)
    (hsource : source.toList = name ++ ([' ', '='] ++ ' ' :: (text.toList ++ ['\n']))) :
    ∃ x sign ts' nl q, ofString source = ⟨x :: sign :: (ts' ++ [nl]), .ok q⟩ ∧
      x.view = (.ident, String.ofList name) ∧ sign.kind = .equals ∧ nl.kind = .newline ∧
      ts'.map Token.view = ts.map Token.view := by
  have htokens : (Lexer.ofString text).stream.tokens = ts ++ [] := by
    rw [List.append_nil]
    exact congrArg tokens h
  obtain ⟨last, hts, hlast⟩ := Lexer.exists_emits_of_stream htokens
  have hending : last.stream.ending = .ok p := by
    have hstream : (Lexer.ofString text).stream = ⟨ts, .ok p⟩ := h
    rw [hts.stream_eq] at hstream
    exact congrArg ending hstream
  have hend : last.stream = ⟨[], .ok p⟩ := by rw [← hlast, ← hending]
  exact hts.exists_attribute rfl rfl hne hend hname hk hsource

end Hcl
