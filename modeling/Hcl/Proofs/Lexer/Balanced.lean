import Hcl.Proofs.Lexer.Like
import Hcl.Proofs.Lexer.Pieces
import Hcl.Proofs.Lexer.Progress

/-!
# Template sequences and balanced braces

A template sequence ends at the first brace that closes more than was opened inside of it, and
nothing else of its text matters: what stands between its marker and this brace can be read on its
own, and every text that can be read on its own and has balanced braces may stand there.
-/

namespace Hcl

/-! ## Balanced braces -/

/-- Among tokens of these kinds every closing brace has an opening one in front of it, and the other
way round. -/
def BracesBalanced (kinds : List TokenKind) : Prop :=
  (∀ before, before <+: kinds → before.count .rBrace ≤ before.count .lBrace) ∧
    kinds.count .rBrace = kinds.count .lBrace

namespace Lexer

theorem bracesBehind_eq_some_iff {kinds : List TokenKind} {depth n : Nat} :
    bracesBehind depth kinds = some n ↔
      (∀ before, before <+: kinds → before.count .rBrace ≤ depth + before.count .lBrace) ∧
        depth + kinds.count .lBrace = n + kinds.count .rBrace := by
  induction kinds generalizing depth with
  | nil => simp
  | cons kind kinds ih =>
    have hprefix : (∀ before, before <+: kind :: kinds →
        before.count .rBrace ≤ depth + before.count .lBrace) ↔
        ∀ before, before <+: kinds →
          (kind :: before).count .rBrace ≤ depth + (kind :: before).count .lBrace := by
      refine ⟨fun h before hb => h _ (List.cons_prefix_cons.mpr ⟨rfl, hb⟩), fun h before hb => ?_⟩
      cases before with
      | nil => exact Nat.zero_le _
      | cons first before =>
        obtain ⟨rfl, hbefore⟩ := List.cons_prefix_cons.mp hb
        exact h before hbefore
    rw [bracesBehind_cons, hprefix]
    by_cases hl : kind = .lBrace
    · subst hl
      simp only [bracesAfter, Option.bind_some, ih, List.count_cons_self,
        List.count_cons_of_ne (show TokenKind.lBrace ≠ .rBrace by decide), Nat.add_right_comm _ 1,
        Nat.add_assoc]
    by_cases hr : kind = .rBrace
    · subst hr
      cases depth with
      | zero =>
        refine ⟨fun h => ?_, fun h => ?_⟩
        · cases h
        · cases h.1 [] List.nil_prefix
      | succ depth =>
        have hne : TokenKind.rBrace ≠ .lBrace := by decide
        simp only [bracesAfter, Option.bind_some, ih, List.count_cons_self, List.count_cons_of_ne hne,
          Nat.add_right_comm _ 1, ← Nat.add_assoc, Nat.add_le_add_iff_right, Nat.add_right_cancel_iff]
    · have hafter : bracesAfter kind depth = some depth := by
        unfold bracesAfter
        split <;> simp_all
      simp only [hafter, Option.bind_some, ih, List.count_cons_of_ne hl, List.count_cons_of_ne hr]

theorem bracesBalanced_iff {kinds : List TokenKind} :
    BracesBalanced kinds ↔ bracesBehind 0 kinds = some 0 := by
  rw [bracesBehind_eq_some_iff, BracesBalanced]
  simp only [Nat.zero_add, eq_comm]

end Lexer

/-- The text is read to its end without an error, and its braces are balanced. -/
def ReadsBalanced (text : List Char) : Prop :=
  let stream := TokenStream.ofString (String.ofList text)
  (∃ p, stream.ending = .ok p) ∧ BracesBalanced (stream.tokens.map Token.kind)

/-! ## In front of the closing brace -/

/-- What is skipped in front of a text that does not go on with a line break is skipped as well when
nothing follows. -/
theorem Trivia.skip_end (i : Inside) (p q r : Position) {kept back : List Char} (hne : back ≠ [])
    (hback : back.head? ≠ some '\n') (hu : (skip i p (kept ++ back)).unclosed = none)
    (h : (skip i p (kept ++ back)).rest = back) :
    ∃ stop, skip (i.from q) r kept = ⟨stop, [], none⟩ := by
  generalize hcs : kept ++ back = cs at h hu
  have hle : ∀ (i : Inside) (p : Position) (cs : List Char), (skip i p cs).rest = back →
      ([] ++ back).length ≤ cs.length := fun i p cs h => h ▸ length_skip_le i p cs
  have hcut : ∀ {a c d : Char} {cs ks : List Char}, cs = ks ++ back →
      (∀ ds, c = a → cs = d :: ds → False) → ∀ ds, c = a → ks = d :: ds → False :=
    fun hcs h ds hc hks => h (ds ++ back) hc (by rw [hcs, hks, List.cons_append])
  fun_induction skip i p cs generalizing kept q r with
  | case1 p cs ih =>
    obtain ⟨ks, rfl, rfl⟩ := exists_kept_cons_cons hcs (hle _ _ _ h)
    exact ih q _ rfl h hu
  | case2 p cs ih =>
    obtain ⟨ks, rfl, rfl⟩ := exists_kept_cons_cons hcs (hle _ _ _ h)
    exact ih r _ rfl h hu
  | case3 p c cs hline hblock hg ih =>
    obtain ⟨ks, rfl, rfl⟩ := exists_kept_cons hcs (hle _ _ _ h)
    rw [Inside.from, skip.eq_3 _ _ _ (hcut rfl hline) (hcut rfl hblock), if_pos hg]
    exact ih q _ rfl h hu
  | case4 p c cs hline hblock hg hc ih =>
    obtain ⟨ks, rfl, rfl⟩ := exists_kept_cons hcs (hle _ _ _ h)
    rw [Inside.from, skip.eq_3 _ _ _ (hcut rfl hline) (hcut rfl hblock), if_neg hg, if_pos hc]
    exact ih q _ rfl h hu
  | case5 p c cs hline hblock hg hc =>
    obtain rfl : kept = [] := List.append_cancel_right (hcs.trans h)
    exact ⟨r, rfl⟩
  | case6 p c cs hc =>
    obtain rfl : c = '\n' := by simpa using hc
    exact absurd (h ▸ rfl) hback
  | case7 p c cs hc ih =>
    obtain ⟨ks, rfl, rfl⟩ := exists_kept_cons hcs (hle _ _ _ h)
    rw [Inside.from, skip, if_neg hc]
    exact ih q _ rfl h hu
  | case8 start p cs ih =>
    obtain ⟨ks, rfl, rfl⟩ := exists_kept_cons_cons hcs (hle _ _ _ h)
    exact ih q _ rfl h hu
  | case9 start p c cs hend ih =>
    obtain ⟨ks, rfl, rfl⟩ := exists_kept_cons hcs (hle _ _ _ h)
    rw [Inside.from, skip.eq_6 _ _ _ _ (hcut rfl hend)]
    exact ih q _ rfl h hu
  | case10 => cases hu
  | case11 | case12 => exact absurd h.symm hne

namespace Lexer

variable {lx mid next : Lexer} {s : Sequence} {text back rest : List Char}

/-- In front of a text that does not go on with a line break nothing was skipped but what is skipped
at the end of a text. -/
theorem stream_of_skipTrivia {u : Unit} (hs : lx.skipTrivia = .ok u mid)
    (hrest : lx.rest = text ++ back) (hmid : mid.rest = back) (hne : back ≠ [])
    (hback : back.head? ≠ some '\n') (hnext : next.rest = text) :
    ∃ p, next.stream = ⟨[], .ok p⟩ := by
  simp only [skipTrivia] at hs
  split at hs
  · rename_i hu
    simp only [Scan.ok.injEq, true_and] at hs
    subst hs
    rw [hrest] at hu hmid
    obtain ⟨stop, hstop⟩ :=
      Trivia.skip_end .nothing lx.position next.position next.position hne hback hu hmid
    have hskip : Trivia.skip .nothing next.position next.rest = ⟨stop, [], none⟩ := hnext ▸ hstop
    have heof : next.next = .ok (.atEnd stop) ⟨[], stop, next.entered, some .eof⟩ := by
      simp [Lexer.next, token, skipTrivia, hskip, finish, Token.atEnd, spanFrom]
    exact ⟨stop, stream_of_eof heof rfl⟩
  · cases hs

/-- The text of a template sequence is read on its own, whatever was read before it and whatever
stands behind it. -/
theorem readsBalanced_of_sequences {inner : List Char} (h : s ∈ lx.sequences)
    (hinner : s.inside.rest = inner ++ '}' :: s.back.rest) : ReadsBalanced inner := by
  obtain ⟨-, ts, mid, brace, hclose⟩ := exists_closes_of_sequences h
  obtain ⟨gap, behind, hskip, hgap, hbehind⟩ :=
    exists_skipTrivia_of_rBrace hclose.next hclose.kind
  obtain ⟨body, hbody⟩ := hclose.emits.exists_reads
  have hmid : mid.rest = gap ++ '}' :: s.back.rest := hgap.rest.trans (hbehind ▸ rfl)
  -- the same lexer when the closing brace and what follows is taken away
  have hcut : Cut ('}' :: s.back.rest) [] s.inside ⟨inner, .start, s.inside.entered, s.inside.last⟩ :=
    ⟨stops_nil, ⟨inner, hinner, (List.append_nil inner).symm⟩, rfl, rfl⟩
  obtain ⟨ts', mid', hts', hviews, hcut'⟩ := hclose.emits.cut hcut ⟨gap, hmid.symm⟩ nofun
  have hrest' : mid'.rest = gap := (hcut'.rest_eq hmid).trans (List.append_nil gap)
  obtain ⟨p, hend⟩ := stream_of_skipTrivia hskip hmid hbehind (by simp) (by simp) hrest'
  have hstream := hts'.stream_eq
  rw [hend, List.append_nil] at hstream
  -- and the one that has read nothing before
  have hlike : Like ⟨inner, .start, s.inside.entered, s.inside.last⟩ (ofString (String.ofList inner)) :=
    ⟨String.toList_ofList, rfl, fun _ => rfl⟩
  obtain ⟨hending, hbraces⟩ := stream_like hlike
    (fun _ => followed_of_opens _ fun depth s ho => Nat.le_trans ho.depth_le (Nat.sub_le _ _))
    (congrArg TokenStream.ending hstream)
  have hkinds : ts'.map Token.kind = ts.map Token.kind := by
    simpa [Token.view, Function.comp_def] using congrArg (List.map Prod.fst) hviews
  refine ⟨hending, bracesBalanced_iff.mpr ((hbraces 0).trans ?_)⟩
  rw [hstream, hkinds]
  exact hclose.braces

/-! ## From a text to a template sequence -/

theorem next_of_mark {c : Char} {cs : List Char} {kind : TokenKind} (hc : IsMark c)
    (hk : kind ≠ .eof) (hfixed : Lexeme.fixed? (c :: cs) = some (kind, 1))
    (hrest : lx.rest = c :: cs) : ∃ t next, lx.next = .ok t next ∧ t.kind = kind ∧ next.rest = cs := by
  obtain ⟨ts, next, hts, hviews, hnext, -⟩ := lexes_mark hc hk hfixed lx hrest rfl
  cases hts with
  | nil => cases hviews
  | cons hn _ hmore =>
    obtain ⟨hview, hnil⟩ := List.cons.inj hviews
    cases hmore with
    | nil => exact ⟨_, _, hn, congrArg Prod.fst hview, hnext⟩
    | cons => cases hnil

/-- A text with balanced braces is read to its end in front of a line break and a closing brace as
well, which is then the brace that closes the template sequence. -/
theorem exists_closes_of_readsBalanced {inner : List Char} (h : ReadsBalanced inner)
    (hdepth : ∀ {ts at'}, Emits (ofString (String.ofList inner)) ts at' →
      ∀ depth s, at'.Opens depth s → depth ≤ lx.templatesLeft)
    (hsign : lx.signAllowed = true) (hrest : lx.rest = inner ++ '\n' :: '}' :: back) :
    ∃ ts mid brace next, lx.Closes 0 ts mid brace next ∧ next.rest = back := by
  obtain ⟨⟨p, hending⟩, hbraces⟩ := h
  -- the lexer that may not open as many template sequences, in front of nothing but the text
  let lone : Lexer := ⟨inner, .start, lx.entered, lx.last⟩
  have hlike : Like (ofString (String.ofList inner)) lone :=
    ⟨String.toList_ofList.symm, rfl, fun _ => hsign⟩
  obtain ⟨⟨q, hq⟩, hsame⟩ :=
    stream_like hlike (fun hts => followed_of_opens _ (hdepth hts)) hending
  obtain ⟨mid, hts, hnil⟩ := exists_emits_of_stream (List.append_nil lone.stream.tokens).symm
  have hmid : mid.stream = ⟨[], .ok q⟩ := by
    rw [hts.stream_eq] at hq
    rw [← hnil, ← hq]
  obtain ⟨behind, hskip, hbehind⟩ := exists_skipTrivia_of_stream hmid
  -- and the one in front of the whole
  have hcut : Cut [] ('\n' :: '}' :: back) lone lx :=
    ⟨stops_newline _, ⟨inner, (List.append_nil inner).symm, hrest⟩, rfl, rfl⟩
  obtain ⟨ts', mid', hts', hviews, hcut'⟩ := hts.cut hcut List.nil_suffix (by simp)
  obtain ⟨behind', hskip', hcut''⟩ := skipTrivia_cut hcut' hskip
    (show behind.rest = [] ++ [] from hbehind) (.inr ⟨rfl, by simp⟩)
  obtain ⟨newline, mid'', hnewline, hkn, hmid''⟩ := next_of_mark (by decide +kernel) (by decide) rfl
    (hcut''.rest_eq (show behind.rest = [] ++ [] from hbehind))
  obtain ⟨brace, next, hbrace, hkb, hnext⟩ := next_of_mark (by decide +kernel) (by decide) rfl hmid''
  have hkinds : ts'.map Token.kind = lone.stream.tokens.map Token.kind := by
    simpa [Token.view, Function.comp_def] using congrArg (List.map Prod.fst) hviews
  refine ⟨ts' ++ [newline], mid'', brace, next, ⟨?_, hbrace, hkb, ?_⟩, hnext⟩
  · rw [← next_of_skipTrivia hskip'] at hnewline
    exact hts'.append (.cons hnewline (by simp [hkn]) .nil)
  · have hzero := (hsame 0).trans (bracesBalanced_iff.mp hbraces)
    rw [List.map_append, hkinds, bracesBehind_append, hzero]
    simp [hkn, bracesAfter]

theorem read_of_readsBalanced {front : Lexer} {marker : Char} {inner : List Char} {n : Nat}
    (h : ReadsBalanced inner)
    (hdepth : ∀ {ts at'}, Emits (ofString (String.ofList inner)) ts at' →
      ∀ depth s, at'.Opens depth s → depth ≤ n)
    (hleft : front.templatesLeft = n + 1) (hsign : front.signAllowed = true)
    (hrest : front.rest = marker :: '{' :: (inner ++ '\n' :: '}' :: back)) :
    ∃ next, (templateReader (n + 1)).read front =
        .ok (marker :: '{' :: (inner ++ ['\n', '}'])) next ∧
      front.Reads (marker :: '{' :: (inner ++ ['\n', '}'])) next ∧ next.rest = back := by
  let inside : Lexer := (front.enter .interpolation).consume 2
  have hinside : inside.templatesLeft = n := by
    have hcount : inside.entered.count .interpolation = front.entered.count .interpolation + 1 :=
      List.count_cons_self
    rw [templatesLeft] at hleft ⊢
    omega
  have hrest' : inside.rest = inner ++ '\n' :: '}' :: back := congrArg (List.drop 2) hrest
  obtain ⟨ts, mid, brace, after, hclose, hafter⟩ := exists_closes_of_readsBalanced h
    (fun hts depth s ho => hinside ▸ hdepth hts depth s ho) (show inside.signAllowed = true from hsign)
    hrest'
  have hread : (templateReader (n + 1)).read front = .ok (front.textUntil after) after.leave := by
    simp only [templateReader, TemplateReader.ofTokenReader, template]
    rw [hclose.templateTokens_eq hinside]
  have hreads := exact_templateReader _ hread
  have htext : front.textUntil after = marker :: '{' :: (inner ++ ['\n', '}']) := by
    refine (List.append_left_inj after.rest).mp (hreads.rest.symm.trans (hrest.trans ?_))
    simp [hafter]
  exact ⟨after.leave, htext ▸ hread, htext ▸ hreads, hafter⟩

/-- A quoted literal that is nothing but one template sequence. -/
theorem quotedToken_of_sequence {template : TemplateReader} (hx : template.Exact)
    (hrest : lx.rest = '"' :: (text ++ '"' :: rest))
    (hpiece : Piece.ofQuoted (text ++ '"' :: rest) = .template)
    (hread : template.read ((lx.enter .string).consume 1) = .ok text mid) :
    lx.quotedToken template = .ok ⟨.string, String.ofList text, ⟨lx.position, byteCount text + 2⟩⟩
      ⟨rest, lx.position.after ('"' :: (text ++ ['"'])), lx.entered, some .string⟩ := by
  have hopen : (lx.enter .string).consume 1 =
      ⟨text ++ '"' :: rest, lx.position.after ['"'], .string :: lx.entered, lx.last⟩ :=
    consume_of_rest (show (lx.enter .string).rest = ['"'] ++ (text ++ '"' :: rest) from hrest)
  rw [hopen] at hread
  have hreads := hx hread
  have hmid : mid.rest = '"' :: rest := (List.append_cancel_left hreads.rest).symm
  have hread' : (lx.enter .string).Reads ('"' :: text) mid :=
    ⟨hrest.trans (hmid ▸ rfl), hreads.position, hreads.entered⟩
  rw [quotedToken, hopen, quotedPieces_template hpiece hread, quotedPieces_quote (by rw [hmid]; rfl)]
  simp only [List.reverseAux_eq, List.append_nil, List.reverse_reverse]
  exact finish_quoted hread' hmid _

/-! ## Sources -/

theorem Emits.calls_length {ts : List Token} (h : Emits lx ts next) : lx.calls ts.length = next := by
  induction h with
  | nil => rfl
  | cons hn _ _ ih => rw [List.length_cons, calls_succ, hn, Scan.after, ih]

theorem stream_of_readsBalanced {marker : Char} {inner : List Char} (hm : marker ∈ ['$', '%'])
    (h : ReadsBalanced inner)
    (hdepth : ∀ n depth s, ((ofString (String.ofList inner)).calls n).Opens depth s →
      depth ≤ maxTemplateDepth - 1) :
    let written := marker :: '{' :: (inner ++ ['\n', '}'])
    TokenStream.ofString (String.ofList ('"' :: (written ++ ['"']))) =
      ⟨[⟨.string, String.ofList written, ⟨.start, byteCount written + 2⟩⟩],
        .ok (Position.start.after ('"' :: (written ++ ['"'])))⟩ := by
  intro written
  let lx : Lexer := ofString (String.ofList ('"' :: (written ++ ['"'])))
  have hrest : lx.rest = '"' :: (written ++ ['"']) := String.toList_ofList
  have hopen : ((lx.enter .string).consume 1).rest =
      marker :: '{' :: (inner ++ '\n' :: '}' :: ['"']) := by
    refine (congrArg (List.drop 1) hrest).trans ?_
    simp [written]
  have hpiece : Piece.ofQuoted (written ++ ['"']) = .template := by
    fin_cases hm <;> rfl
  obtain ⟨mid, hread, -, -⟩ := read_of_readsBalanced h
    (fun hts depth s ho => hdepth _ depth s (hts.calls_length.symm ▸ ho)) rfl rfl hopen
  have hnext : lx.next = lx.quotedToken (templateReader (maxTemplateDepth - 1 + 1)) :=
    (next_of_isSolid hrest (by decide)).trans (if_pos rfl)
  rw [quotedToken_of_sequence (exact_templateReader _) hrest hpiece hread] at hnext
  refine (stream_of_next hnext (by simp)).trans ?_
  rw [stream_of_rest_nil rfl]
  rfl

theorem length_inside_le (hs : s ∈ lx.sequences) : s.inside.rest.length + 2 ≤ lx.rest.length := by
  obtain ⟨mode, -, hmeets⟩ := exists_meets_of_tokenSequences (exact_templateReader _) hs
  obtain ⟨text, htext⟩ := hmeets.reads
  obtain ⟨marker, -, cs, hcs⟩ := hmeets.marked
  have hinside : s.inside.rest = cs := congrArg (List.drop 2) hcs
  have hlength := congrArg List.length htext.rest
  simp only [enter_rest, hcs, List.length_append, List.length_cons] at hlength
  rw [hinside]
  omega

/-- A template sequence takes two characters at least for each one that is open. -/
theorem Opens.two_mul_depth_le {depth : Nat} (h : lx.Opens depth s) :
    2 * depth ≤ lx.rest.length := by
  induction h with
  | direct hs =>
    have hlength := length_inside_le hs
    omega
  | nested hs hemits _ _ ih =>
    obtain ⟨text, htext⟩ := hemits.exists_reads
    have hsuffix := htext.suffix.length_le
    have hlength := length_inside_le hs
    omega

/-- A template sequence is a text with balanced braces. Every such text may stand between a marker
and a line break with the closing brace, if no more template sequences are open in it at once than
may be inside of another one; and between its marker and its closing brace every template sequence
that is read, be it in others or not, is such a text. -/
theorem sequences_balanced :
    (∀ marker ∈ ['$', '%'], ∀ inner, ReadsBalanced inner →
      (∀ n depth s, ((ofString (String.ofList inner)).calls n).Opens depth s →
        depth ≤ maxTemplateDepth - 1) →
      let written := marker :: '{' :: (inner ++ ['\n', '}'])
      TokenStream.ofString (String.ofList ('"' :: (written ++ ['"']))) =
        ⟨[⟨.string, String.ofList written, ⟨.start, byteCount written + 2⟩⟩],
          .ok (Position.start.after ('"' :: (written ++ ['"'])))⟩) ∧
    ∀ source n depth s, ((ofString source).calls n).Opens depth s →
      ∃ marker ∈ ['$', '%'], ∃ inner, s.text = marker :: '{' :: (inner ++ ['}']) ∧
        s.span.slice? source.toList = some (String.ofList s.text) ∧ ReadsBalanced inner := by
  refine ⟨fun marker hm inner h hdepth => stream_of_readsBalanced hm h hdepth, ?_⟩
  intro source n depth s ho
  obtain ⟨lx, hs, hlx⟩ := ho.exists_mem_sequences (standsIn_calls source n)
  obtain ⟨hreads, marker, hm, inner, htext, hinner⟩ := exists_text_of_sequences hs
  exact ⟨marker, hm, inner, htext, ((standsIn_front hlx hs).slices hreads).slice?,
    readsBalanced_of_sequences hs hinner⟩

/-- A string with another template sequence, in which a quote and a brace stand in a string, and a
brace in a comment. -/
theorem sequences_balanced_nested :
    let inner := "\x7b a = \"$\x7bf(\"\x7d\")\x7d\" \x7d # \x7d".toList
    let written := '$' :: '{' :: (inner ++ ['\n', '}'])
    ReadsBalanced inner ∧
      (∀ n depth s, ((ofString (String.ofList inner)).calls n).Opens depth s →
        depth ≤ maxTemplateDepth - 1) ∧
      TokenStream.ofString (String.ofList ('"' :: (written ++ ['"']))) =
        ⟨[⟨.string, String.ofList written, ⟨.start, 29⟩⟩], .ok ⟨2, 3, 29⟩⟩ := by
  intro inner written
  have hbalanced : ReadsBalanced inner :=
    ⟨⟨⟨1, 24, 23⟩, by decide +kernel⟩, bracesBalanced_iff.mpr (by decide +kernel)⟩
  have hdepth : ∀ n depth s, ((ofString (String.ofList inner)).calls n).Opens depth s →
      depth ≤ maxTemplateDepth - 1 := fun n depth s ho => by
    obtain ⟨before, hsource, -⟩ := standsIn_calls (String.ofList inner) n
    have hlength := congrArg List.length hsource
    have hle := ho.two_mul_depth_le
    have hinner : (String.ofList inner).toList.length = 23 := by decide +kernel
    rw [List.length_append, hinner] at hlength
    rw [maxTemplateDepth]
    omega
  exact ⟨hbalanced, hdepth, sequences_balanced.1 '$' (by decide) inner hbalanced hdepth⟩

end Lexer

end Hcl
