import Hcl.Proofs.Lexer.Sequences

/-!
# Template sequences in the text of a literal

The template sequences of a quoted literal or a heredoc stand in the text of the token, one behind
the other. They do so as they are written, except in a heredoc that loses its shared indentation:
there the lines of a template sequence lose it like those around it.
-/

namespace Hcl

/-- The texts `parts` occur in `text` in this order and apart from each other. -/
inductive OccurIn : (parts : List (List Char)) → (text : List Char) → Prop where
  | nil {text : List Char} : OccurIn [] text
  | cons {part rest : List Char} {parts : List (List Char)} (before : List Char) :
      OccurIn parts rest → OccurIn (part :: parts) (before ++ (part ++ rest))

theorem OccurIn.isInfix {parts : List (List Char)} {text : List Char} (h : OccurIn parts text) :
    ∀ part ∈ parts, part <:+: text := by
  induction h with
  | nil => exact nofun
  | @cons part rest parts before h ih =>
    intro part' hpart
    rcases List.mem_cons.mp hpart with rfl | hpart
    · exact ⟨before, rest, by rw [List.append_assoc]⟩
    · exact (ih part' hpart).trans (((List.suffix_append part rest).trans
        (List.suffix_append before (part ++ rest))).isInfix)

/-- What a template sequence looks like from outside. -/
def IsTemplate (text : List Char) : Prop :=
  ∃ marker ∈ ['$', '%'], ∃ inner, text = marker :: '{' :: (inner ++ ['}'])

/-! ## Indentation -/

namespace Heredoc

/-- Removes up to `indent` of the blanks a text begins with. -/
def strip (indent : Nat) (text : List Char) : List Char := text.drop (min (indentOf text) indent)

/-- Removes up to `indent` of the blanks behind each line break. The first line is left as it is. -/
def outdent (indent : Nat) : List Char → List Char
  | [] => []
  | c :: cs =>
    if c = '\n' then c :: outdent indent (strip indent cs)
    else c :: outdent indent cs
termination_by cs => cs.length
decreasing_by
  · simp only [strip, List.length_drop, List.length_cons]
    omega
  · simp

/-- Whether the shared indentation of the heredoc that begins here is removed. -/
def flushAhead : List Char → Bool
  | '<' :: '<' :: '-' :: _ => true
  | _ => false

variable {c : Char} {cs ds : List Char} {indent : Nat}

theorem outdent_cons_of_ne (indent : Nat) (hc : c ≠ '\n') (cs : List Char) :
    outdent indent (c :: cs) = c :: outdent indent cs := by
  rw [outdent, if_neg hc]

/-- On one line there is nothing to remove. -/
theorem outdent_of_inline (indent : Nat) (h : '\n' ∉ cs) : outdent indent cs = cs := by
  induction cs with
  | nil => rw [outdent]
  | cons c cs ih =>
    rw [List.mem_cons, not_or] at h
    rw [outdent_cons_of_ne indent (Ne.symm h.1), ih h.2]

theorem map_outdent_of_inline {parts : List (List Char)} (indent : Nat)
    (h : ∀ part ∈ parts, '\n' ∉ part) : parts.map (outdent indent) = parts :=
  (List.map_congr_left fun part hpart => outdent_of_inline indent (h part hpart)).trans
    (List.map_id _)

/-! ### Blanks -/

theorem indentOf_cons_of_blank (hc : c = ' ' ∨ c = '\t') (cs : List Char) :
    indentOf (c :: cs) = indentOf cs + 1 := by
  rcases hc with rfl | rfl <;> rfl

theorem indentOf_cons_of_ne (hc : ¬(c = ' ' ∨ c = '\t')) (cs : List Char) :
    indentOf (c :: cs) = 0 := by
  simp_all [indentOf]

theorem strip_cons_of_blank (hc : c = ' ' ∨ c = '\t') (cs : List Char) :
    strip (indent + 1) (c :: cs) = strip indent cs := by
  rw [strip, indentOf_cons_of_blank hc, Nat.succ_min_succ, List.drop_succ_cons, strip]

theorem strip_cons_of_ne (hc : ¬(c = ' ' ∨ c = '\t')) (cs : List Char) :
    strip indent (c :: cs) = c :: cs := by
  rw [strip, indentOf_cons_of_ne hc, Nat.zero_min, List.drop_zero]

@[simp] theorem strip_zero (cs : List Char) : strip 0 cs = cs := by
  rw [strip, Nat.min_zero, List.drop_zero]

@[simp] theorem strip_nil (indent : Nat) : strip indent [] = [] := List.drop_nil

/-- The text does not begin with a blank. -/
def Flat (text : List Char) : Prop := ∀ c ∈ text.head?, ¬(c = ' ' ∨ c = '\t')

/-- Only the blanks in front are removed. -/
theorem strip_append (h : Flat ds) (indent : Nat) (cs : List Char) :
    strip indent (cs ++ ds) = strip indent cs ++ ds := by
  induction cs generalizing indent with
  | nil =>
    cases ds with
    | nil => rw [List.append_nil, strip_nil, List.append_nil]
    | cons d ds => exact strip_cons_of_ne (h d rfl) ds
  | cons c cs ih =>
    by_cases hc : c = ' ' ∨ c = '\t'
    · cases indent with
      | zero => rw [strip_zero, strip_zero]
      | succ indent =>
        rw [List.cons_append, strip_cons_of_blank hc, strip_cons_of_blank hc, ih]
    · rw [List.cons_append, strip_cons_of_ne hc, strip_cons_of_ne hc, List.cons_append]

theorem outdent_append (h : Flat ds) (indent : Nat) (cs : List Char) :
    outdent indent (cs ++ ds) = outdent indent cs ++ outdent indent ds := by
  fun_induction outdent indent cs with
  | case1 => rfl
  | case2 cs ih => rw [List.cons_append, outdent, if_pos rfl, strip_append h, ih, List.cons_append]
  | case3 c cs hc ih => rw [List.cons_append, outdent_cons_of_ne _ hc, ih, List.cons_append]

/-! ### Lines -/

/-- The lines put together again, when the first loses up to `first` blanks and the others up to
`indent`. -/
def joinLines (first indent : Nat) : List (List Char) → List Char
  | [] => []
  | line :: more => strip first line ++ more.flatMap (strip indent)

theorem joinLines_cons {front : List Char} {first first' : Nat} (hc : c ≠ '\n')
    (h : ∀ ds, strip first (c :: ds) = front ++ strip first' ds) :
    joinLines first indent (lines (c :: cs)) = front ++ joinLines first' indent (lines cs) := by
  rw [lines, if_neg hc]
  cases lines cs with
  | nil => simp [joinLines, h]
  | cons line more => simp [joinLines, h]

theorem joinLines_lines (indent : Nat) (cs : List Char) (first : Nat) :
    joinLines first indent (lines cs) = outdent indent (strip first cs) := by
  induction cs generalizing first with
  | nil => rw [strip_nil, outdent, lines, joinLines]
  | cons c cs ih =>
    by_cases hc : c = '\n'
    · subst hc
      have hbreak : ¬('\n' = ' ' ∨ '\n' = '\t') := by decide
      have hmore : joinLines indent indent (lines cs) = (lines cs).flatMap (strip indent) := by
        cases lines cs <;> rfl
      rw [lines, if_pos rfl, joinLines, strip_cons_of_ne hbreak, strip_cons_of_ne hbreak, outdent,
        if_pos rfl, ← ih indent, hmore, List.singleton_append]
    -- the first line goes on behind `c`: with one blank less to remove, or none
    · by_cases hb : c = ' ' ∨ c = '\t'
      · cases first with
        | zero =>
          rw [joinLines_cons hc (show ∀ ds, strip 0 (c :: ds) = [c] ++ strip 0 ds by simp), ih,
            strip_zero, strip_zero, outdent_cons_of_ne _ hc, List.singleton_append]
        | succ first =>
          have hless : ∀ ds, strip (first + 1) (c :: ds) = [] ++ strip first ds :=
            fun ds => strip_cons_of_blank hb ds
          rw [joinLines_cons hc hless, ih, hless, List.nil_append, List.nil_append]
      · rw [joinLines_cons hc (show ∀ ds, strip first (c :: ds) = [c] ++ strip 0 ds by
            simp [strip_cons_of_ne hb]), ih, strip_zero, strip_cons_of_ne hb,
          outdent_cons_of_ne _ hc, List.singleton_append]

/-- What removing the shared indentation does to the first line and to those behind it. -/
theorem dedent_eq (content : List Char) :
    dedent content =
      outdent (sharedIndent (lines content)) (strip (sharedIndent (lines content)) content) := by
  rw [← joinLines_lines, dedent]
  cases lines content <;> rfl

end Heredoc

/-! ## Parts of a text -/

open Heredoc

namespace IsTemplate

variable {part : List Char}

theorem flat_append (h : IsTemplate part) (rest : List Char) : Flat (part ++ rest) := by
  obtain ⟨marker, hm, inner, rfl⟩ := h
  intro c hc
  obtain rfl : marker = c := by simpa using hc
  simp only [List.mem_cons, List.not_mem_nil, or_false] at hm
  rcases hm with rfl | rfl <;> decide

theorem outdent_append (h : IsTemplate part) (indent : Nat) (rest : List Char) :
    outdent indent (part ++ rest) = outdent indent part ++ outdent indent rest := by
  obtain ⟨marker, -, inner, rfl⟩ := h
  have hflat : ∀ ds, Flat ('}' :: ds) := by simp [Flat]
  have hbrace : ∀ ds, outdent indent ('}' :: ds) = '}' :: outdent indent ds :=
    outdent_cons_of_ne indent (by decide)
  rw [← List.cons_append, ← List.cons_append, Heredoc.outdent_append (hflat []), List.append_assoc,
    List.singleton_append, Heredoc.outdent_append (hflat rest), hbrace, hbrace, outdent,
    List.append_assoc, List.singleton_append]

end IsTemplate

namespace OccurIn

variable {parts : List (List Char)} {text : List Char}

protected theorem outdent (h : OccurIn parts text) (hparts : ∀ part ∈ parts, IsTemplate part)
    (indent : Nat) : OccurIn (parts.map (outdent indent)) (outdent indent text) := by
  induction h with
  | nil => exact .nil
  | @cons part rest parts before _ ih =>
    have hpart := hparts part List.mem_cons_self
    rw [Heredoc.outdent_append (hpart.flat_append rest), hpart.outdent_append]
    exact .cons _ (ih fun part' h => hparts part' (List.mem_cons_of_mem _ h))

protected theorem strip (h : OccurIn parts text) (hparts : ∀ part ∈ parts, IsTemplate part)
    (indent : Nat) : OccurIn parts (strip indent text) := by
  cases h with
  | nil => exact .nil
  | @cons part rest parts before h =>
    rw [strip_append ((hparts part List.mem_cons_self).flat_append rest)]
    exact .cons _ h

protected theorem dedent (h : OccurIn parts text) (hparts : ∀ part ∈ parts, IsTemplate part) :
    OccurIn (parts.map (outdent (sharedIndent (lines text)))) (dedent text) := by
  rw [dedent_eq]
  exact (h.strip hparts _).outdent hparts _

end OccurIn

/-! ## Sequences of a scan -/

namespace Lexer

/-- From `lx` to `next` the template sequences `ss` are read one after another, and their texts
stand in `content` in this order. -/
inductive Keeps : (lx : Lexer) → (ss : List Sequence) → (content : List Char) → (next : Lexer) → Prop
    where
  | nil {lx next : Lexer} {text content : List Char} : lx.Reads text next → Keeps lx [] content next
  | cons {lx next : Lexer} {s : Sequence} {ss : List Sequence} {text content : List Char}
      (before : List Char) : lx.Reads text s.front → s.front.Reads s.text s.back →
      Keeps s.back ss content next → Keeps lx (s :: ss) (before ++ (s.text ++ content)) next

variable {template : TemplateReader} {lx mid next : Lexer} {s : Sequence} {ss : List Sequence}
  {text content : List Char} {t : Token} {source : List Char}

namespace Keeps

theorem of_reads (hr : lx.Reads text mid) (h : mid.Keeps ss content next) (before : List Char) :
    lx.Keeps ss (before ++ content) next := by
  cases h with
  | nil h => exact .nil (hr.trans h)
  | cons between hfront hback h =>
    rw [← List.append_assoc]
    exact .cons _ (hr.trans hfront) hback h

theorem exists_reads (h : lx.Keeps ss content next) : ∃ read, lx.Reads read next := by
  induction h with
  | nil h => exact ⟨_, h⟩
  | cons _ hfront hback _ ih =>
    obtain ⟨read, hread⟩ := ih
    exact ⟨_, (hfront.trans hback).trans hread⟩

theorem occurIn (h : lx.Keeps ss content next) : OccurIn (ss.map Sequence.text) content := by
  induction h with
  | nil => exact .nil
  | cons before _ _ _ ih => exact .cons before ih

theorem le_front (h : lx.Keeps ss content next) :
    ∀ s ∈ ss, lx.position.offset ≤ s.front.position.offset := by
  induction h with
  | nil => exact nofun
  | @cons lx next s ss text content before hfront hback _ ih =>
    intro s' hs'
    rcases List.mem_cons.mp hs' with rfl | hs'
    · exact hfront.offset_le
    · exact Nat.le_trans (hfront.trans hback).offset_le (ih s' hs')

theorem pairwise (h : lx.Keeps ss content next) :
    ss.Pairwise fun s s' => s.span.stop ≤ s'.span.start.offset := by
  induction h with
  | nil => exact .nil
  | @cons lx next s ss text content before _ hback h ih =>
    refine .cons (fun s' hs' => ?_) ih
    have hstop : s.span.stop = s.back.position.offset := by
      rw [Sequence.span, hback.spanFrom, Span.stop, hback.offset_eq]
    rw [hstop]
    exact h.le_front s' hs'

/-- Each of the template sequences is part of what is read. -/
theorem exists_around (h : lx.Keeps ss content next) :
    ∀ s ∈ ss, ∃ before behind, lx.rest = before ++ s.text ++ behind ++ next.rest := by
  induction h with
  | nil => exact nofun
  | @cons lx next s ss text content _ hfront hback h ih =>
    intro s' hs'
    rcases List.mem_cons.mp hs' with rfl | hs'
    · obtain ⟨behind, hbehind⟩ := h.exists_reads
      refine ⟨text, behind, ?_⟩
      rw [hfront.rest, hback.rest, hbehind.rest]
      simp
    · obtain ⟨before, behind, hs'⟩ := ih s' hs'
      refine ⟨text ++ s.text ++ before, behind, ?_⟩
      rw [hfront.rest, hback.rest, hs']
      simp

end Keeps

theorem keeps_of_quotedPieces (hx : template.Exact) {start : Position} {decoded : List Char}
    (h : quotedPieces template start decoded lx = .ok content next) :
    ∃ more, content = decoded.reverse ++ more ∧
      lx.Keeps (quotedSequences template lx) more next := by
  fun_induction quotedPieces template start decoded lx with
  | case1 decoded lx piece n hp ih =>
    obtain ⟨more, rfl, hmore⟩ := ih h
    rw [quotedSequences_text hp]
    exact ⟨piece ++ more, by simp, hmore.of_reads (reads_consume lx n) piece⟩
  | case2 decoded lx hp piece after hr ih =>
    obtain ⟨more, rfl, hmore⟩ := ih h
    rw [quotedSequences_template hp hr]
    have hreads := hx hr
    have hpiece : piece = (⟨lx, after⟩ : Sequence).text := hreads.textUntil.symm
    subst hpiece
    exact ⟨_, by simp, .cons [] (.refl lx) hreads hmore⟩
  | case4 decoded lx hp =>
    simp only [Scan.ok.injEq] at h
    rw [quotedSequences_quote hp, ← h.1, ← h.2]
    exact ⟨[], (List.append_nil _).symm, .nil (reads_consume lx 1)⟩
  | _ => cases h

theorem keeps_of_heredocLines (hx : template.Exact) {opening : Heredoc.Opening} {start : Position}
    {lineStart : Bool} {read : List Char}
    (h : heredocLines template opening start lineStart read lx = .ok content next) :
    ∃ more, content = read.reverse ++ more ∧
      lx.Keeps (heredocSequences template opening lineStart lx) more next := by
  fun_induction heredocLines template opening start lineStart read lx with
  | case1 lineStart read lx hc =>
    simp only [Scan.ok.injEq] at h
    rw [heredocSequences_eq, if_pos hc, ← h.1, ← h.2]
    exact ⟨[], (List.append_nil _).symm, .nil (reads_consume lx _)⟩
  | case2 lineStart read lx hc piece n hp ih =>
    obtain ⟨more, rfl, hmore⟩ := ih h
    rw [heredocSequences_eq, if_neg hc, hp]
    exact ⟨piece ++ more, by simp, hmore.of_reads (reads_consume lx n) piece⟩
  | case3 lineStart read lx hc hp piece after hr ih =>
    obtain ⟨more, rfl, hmore⟩ := ih h
    rw [heredocSequences_eq, if_neg hc, hp]
    simp only [hr]
    have hreads := hx hr
    have hpiece : piece = (⟨lx, after⟩ : Sequence).text := hreads.textUntil.symm
    subst hpiece
    exact ⟨_, by simp, .cons [] (.refl lx) hreads hmore⟩
  | _ => cases h

/-! ## Tokens -/

theorem keeps_of_quotedToken (hx : template.Exact) (h : lx.quotedToken template = .ok t next) :
    ∃ after content, after.rest = next.rest ∧ t.text = String.ofList content ∧
      (lx.enter .string).Keeps (quotedSequences template ((lx.enter .string).consume 1)) content
        after := by
  simp only [quotedToken] at h
  split at h
  · rename_i content after hq
    obtain ⟨more, hmore, hkeeps⟩ := keeps_of_quotedPieces hx hq
    rw [List.reverse_nil, List.nil_append] at hmore
    subst hmore
    refine ⟨after, content, ?_, ?_, hkeeps.of_reads (reads_consume (lx.enter .string) 1) []⟩
    · rw [(rest_of_finish h).1, leave_rest]
    · cases h
      rfl
  · cases h

theorem keeps_of_heredocToken (hx : template.Exact) {opening : Heredoc.Opening}
    (h : lx.heredocToken template opening = .ok t next) :
    (lx.consume opening.length).rest.head? = some '\n' ∧
      ∃ after content, after.rest = next.rest ∧
        t.text = String.ofList (if opening.flush then dedent content else content) ∧
        (lx.enter .heredoc).Keeps
          (heredocSequences template opening true
            (((lx.consume opening.length).consume 1).enter .heredoc)) content after := by
  simp only [heredocToken] at h
  split at h
  · rename_i hn
    split at h
    · rename_i content after hl
      obtain ⟨more, hmore, hkeeps⟩ := keeps_of_heredocLines hx hl
      rw [List.reverse_nil, List.nil_append] at hmore
      subst hmore
      have hbody := (reads_consume lx opening.length).trans (reads_consume _ 1)
      refine ⟨hn, after, content, ?_, ?_, hkeeps.of_reads (hbody.enter .heredoc) []⟩
      · rw [(rest_of_finish h).1, leave_rest]
      · cases h
        rfl
    · cases h
  · cases h

theorem flushAhead_of_opening? {cs : List Char} {o : Heredoc.Opening} (h : opening? cs = some o) :
    flushAhead cs = o.flush := by
  unfold opening? at h
  split at h
  · rename_i ds
    simp only [Option.ite_none_right_eq_some, Option.some.injEq] at h
    obtain ⟨-, rfl⟩ := h
    cases ds with
    | nil => rfl
    | cons d ds =>
      by_cases hd : d = '-'
      · subst hd
        rfl
      · simp [flushAhead, hd]
  · cases h

/-- The text of a literal is its content, possibly without the shared indentation, and the template
sequences of the token stand in the content. -/
theorem keeps_of_tokenAt (hx : template.Exact) {c : Char} {cs : List Char}
    (hrest : lx.rest = c :: cs) (h : lx.tokenAt template c = .ok t next) :
    ∃ mode after content, after.rest = next.rest ∧
      (lx.enter mode).Keeps (lx.sequencesAt template) content after ∧
      (t.kind = .string ∨ t.kind = .heredoc →
        t.text = String.ofList (if flushAhead lx.rest then dedent content else content)) := by
  obtain ⟨text, hscans⟩ := exists_scans_of_tokenAt hx hrest h
  have hhead : lx.rest.head? = some c := congrArg List.head? hrest
  have hquote : c ≠ '"' → ¬lx.rest.head? = some '"' := fun hc hquote =>
    hc (Option.some.inj (hhead.symm.trans hquote))
  rcases tokenAt_cases h with ⟨rfl, h⟩ | ⟨hc, opening, ho, h⟩ | ⟨hc, ho, hstring, hheredoc⟩
  · obtain ⟨after, content, hafter, htext, hkeeps⟩ := keeps_of_quotedToken hx h
    have hflush : flushAhead lx.rest = false := hrest ▸ rfl
    rw [sequencesAt, if_pos hhead]
    exact ⟨.string, after, content, hafter, hkeeps, fun _ => by simp [hflush, htext]⟩
  · obtain ⟨hbreak, after, content, hafter, htext, hkeeps⟩ := keeps_of_heredocToken hx h
    rw [sequencesAt, if_neg (hquote hc), ho]
    simp only [hbreak, if_true]
    exact ⟨.heredoc, after, content, hafter, hkeeps,
      fun _ => by rw [flushAhead_of_opening? ho, htext]⟩
  -- another token has no template sequences
  · rw [sequencesAt, if_neg (hquote hc), ho]
    exact ⟨.string, next.enter .string, [], rfl, .nil (hscans.reads.enter .string),
      fun hk => (hk.elim hstring hheredoc).elim⟩

theorem exists_keeps_of_next (h : lx.next = .ok t next) :
    ∃ gap mid mode after content, lx.Reads gap mid ∧ t.span.start = mid.position ∧
      after.rest = next.rest ∧ (mid.enter mode).Keeps lx.sequences content after ∧
      (t.kind = .string ∨ t.kind = .heredoc →
        t.text = String.ofList (if flushAhead mid.rest then dedent content else content)) := by
  have hx : (templateReader lx.templatesLeft).Exact := exact_templateReader _
  simp only [Lexer.next, token] at h
  split at h
  · cases h
  rename_i mid hs
  obtain ⟨gap, hgap, -⟩ := reads_of_skipTrivia hs
  have hsequences : lx.sequences = mid.sequencesAt (templateReader lx.templatesLeft) := by
    rw [sequences, tokenSequences, hs]
  split at h
  · rename_i hnil
    have hnone : lx.sequences = [] := by
      rw [hsequences]
      simp [sequencesAt, hnil, Heredoc.opening?]
    simp only [finish, Scan.ok.injEq] at h
    obtain ⟨rfl, rfl⟩ := h
    rw [hnone]
    exact ⟨gap, mid, .string, mid.enter .string, [], hgap, rfl, rfl, .nil (.refl _), by simp⟩
  · rename_i hc
    obtain ⟨text, hscans⟩ := exists_scans_of_tokenAt hx hc h
    obtain ⟨mode, after, content, hafter, hkeeps, htext⟩ := keeps_of_tokenAt hx hc h
    rw [hsequences]
    exact ⟨gap, mid, mode, after, content, hgap, by rw [hscans.span], hafter, hkeeps, htext⟩

theorem isTemplate_text (h : s ∈ lx.sequences) : IsTemplate s.text := by
  obtain ⟨-, marker, hm, inner, hinner, -⟩ := exists_text_of_sequences h
  exact ⟨marker, hm, inner, hinner⟩

/-- Template sequences in others are part of them. -/
theorem Opens.exists_isInfix {depth : Nat} (h : lx.Opens depth s) :
    ∃ s' ∈ lx.sequences, s.text <:+: s'.text := by
  induction h with
  | direct hs => exact ⟨_, hs, List.infix_rfl⟩
  | @nested lx inner depth s s' t ts us hs hbefore hfrom _ ih =>
    obtain ⟨s'', hs'', hinfix⟩ := ih
    refine ⟨s, hs, hinfix.trans ?_⟩
    cases hfrom with
    | @cons _ next _ _ _ hn _ hbehind =>
      obtain ⟨gap, mid, mode, after, content, hgap, -, hafter, hkeeps, -⟩ := exists_keeps_of_next hn
      obtain ⟨before, behind, haround⟩ := hkeeps.exists_around s'' hs''
      obtain ⟨front, hfront⟩ := hbefore.exists_reads
      obtain ⟨back, hback⟩ := hbehind.exists_reads
      obtain ⟨-, marker, -, body, htext, hbody⟩ := exists_text_of_sequences hs
      have hall : body ++ ['}'] = front ++ gap ++ before ++ s''.text ++ (behind ++ back) := by
        refine (List.append_left_inj s.back.rest).mp ?_
        rw [List.append_assoc, List.singleton_append, ← hbody, hfront.rest, hgap.rest,
          ← enter_rest mode mid, haround, hafter, hback.rest]
        simp
      rw [htext, hall]
      exact ⟨marker :: '{' :: (front ++ gap ++ before), behind ++ back, by simp⟩

end Lexer

/-! ## The text of a literal -/

/-- The token is a heredoc that loses its shared indentation, if it is a heredoc. -/
def Token.isFlush (source : List Char) (t : Token) : Bool :=
  (dropBytes? t.span.start.offset source).any Heredoc.flushAhead

namespace Lexer

/-- What becomes of the template sequences that are read while `lx` scans the literal `t`. -/
structure KeepsTemplates (source : List Char) (lx : Lexer) (t : Token) : Prop where
  slices : ∀ s ∈ lx.sequences,
    IsTemplate s.text ∧ s.span.slice? source = some (String.ofList s.text)
  apart : lx.sequences.Pairwise fun s s' => s.span.stop ≤ s'.span.start.offset
  /-- those that are read inside of others -/
  within : ∀ depth s, lx.Opens depth s → ∃ s' ∈ lx.sequences, s.text <:+: s'.text
  kept : t.isFlush source = false ∨ (∀ s ∈ lx.sequences, '\n' ∉ s.text) →
    OccurIn (lx.sequences.map Sequence.text) t.text.toList
  outdented : t.isFlush source = true → ∃ content, t.text = String.ofList (dedent content) ∧
    OccurIn (lx.sequences.map Sequence.text) content ∧
    OccurIn ((lx.sequences.map Sequence.text).map (outdent (sharedIndent (lines content))))
      t.text.toList

/-- Template sequences are kept as they are written, but for the indentation of their lines in a
heredoc that loses it. -/
theorem keepsTemplates (source : String) (n : Nat) (t : Token) (next : Lexer)
    (h : ((ofString source).calls n).next = .ok t next) (hk : t.kind = .string ∨ t.kind = .heredoc) :
    ((ofString source).calls n).KeepsTemplates source.toList t := by
  have hlx := standsIn_calls source n
  obtain ⟨gap, mid, mode, after, content, hgap, hstart, -, hkeeps, htext⟩ := exists_keeps_of_next h
  have hflush : t.isFlush source.toList = flushAhead mid.rest := by
    rw [Token.isFlush, hstart, (hlx.reads hgap).dropBytes?_eq]
    rfl
  have hoccur := hkeeps.occurIn
  have hdedent := hoccur.dedent (List.forall_mem_map.mpr fun s hs => isTemplate_text hs)
  have htext := hflush ▸ htext hk
  refine ⟨fun s hs => ?_, hkeeps.pairwise, fun depth s ho => ho.exists_isInfix, fun hkept => ?_,
    fun hf => ?_⟩
  · have hslice := ((standsIn_front hlx hs).slices (exists_text_of_sequences hs).1).slice?
    exact ⟨isTemplate_text hs, hslice⟩
  · rw [htext, String.toList_ofList]
    split
    · rename_i hf
      have hinline := hkept.resolve_left (by simp [hf])
      rwa [map_outdent_of_inline _ (List.forall_mem_map.mpr hinline)] at hdedent
    · exact hoccur
  · rw [if_pos hf] at htext
    refine ⟨content, htext, hoccur, ?_⟩
    rw [htext, String.toList_ofList]
    exact hdedent

/-- The second line of a template sequence keeps its blanks. -/
theorem keepsTemplates_heredoc :
    let source := "<<E\n  $\x7ba\n  \x7d\nE\n"
    let t : Token := ⟨.heredoc, "  $\x7ba\n  \x7d\n", ⟨.start, 15⟩⟩
    (∃ next, (ofString source).next = .ok t next) ∧ t.isFlush source.toList = false ∧
      (ofString source).sequences.map Sequence.text = ["$\x7ba\n  \x7d".toList] ∧
      OccurIn ["$\x7ba\n  \x7d".toList] t.text.toList := by
  intro source t
  obtain ⟨next, hnext⟩ : ∃ next, (ofString source).next = .ok t next :=
    exists_next_of_stream (by decide +kernel)
  have hflush : t.isFlush source.toList = false := by decide +kernel
  have htexts : (ofString source).sequences.map Sequence.text = ["$\x7ba\n  \x7d".toList] := by
    decide +kernel
  have hkept := (keepsTemplates source 0 t next hnext (.inr rfl)).kept (.inl hflush)
  exact ⟨⟨next, hnext⟩, hflush, htexts, htexts ▸ hkept⟩

/-- Two blanks get lost in front of the brace that closes the template sequence. -/
theorem not_kept_flush :
    let source := "<<-E\n  $\x7ba\n  \x7d\n  E\n"
    ∃ t next, (ofString source).next = .ok t next ∧ t.kind = .heredoc ∧
      (ofString source).sequences.map Sequence.text = ["$\x7ba\n  \x7d".toList] ∧
      ¬OccurIn ((ofString source).sequences.map Sequence.text) t.text.toList := by
  intro source
  obtain ⟨next, hnext⟩ :
      ∃ next, (ofString source).next = .ok ⟨.heredoc, "$\x7ba\n\x7d\n", ⟨.start, 18⟩⟩ next :=
    exists_next_of_stream (by decide +kernel)
  have htexts : (ofString source).sequences.map Sequence.text = ["$\x7ba\n  \x7d".toList] := by
    decide +kernel
  refine ⟨_, next, hnext, rfl, htexts, fun h => ?_⟩
  rw [htexts] at h
  have hinfix := h.isInfix _ List.mem_cons_self
  revert hinfix
  decide +kernel

end Lexer

end Hcl
