import Mathlib.Data.List.Forall2
import Hcl.Proofs.Lexer.Cut
import Hcl.Proofs.Text.Returns

/-!
# Lexemes and line ends

What is read at the front of a text stays the same when every line break gets a carriage return in
front of it: the carriage return ends a lexeme as the line break does, is skipped between tokens and
in comments, and belongs neither to the lines of a heredoc nor to their indentation.
-/

namespace Hcl

open Text

variable {cs decoded : List Char} {c : Char} {n : Nat}

/-! ## Skipped text -/

namespace Trivia

/-- The carriage return in front of the line break that ends the skipping is skipped. -/
theorem skip_withReturns (i : Inside) (p q r : Position) (cs : List Char)
    (hu : (skip i p cs).unclosed = none) :
    ∃ stop, skip (i.from q) r (withReturns cs) = ⟨stop, afterReturn (skip i p cs).rest, none⟩ := by
  have hnot : ∀ {a c d : Char} {cs : List Char}, d ≠ '\r' → (∀ ds, c = a → cs = d :: ds → False) →
      ∀ ds, c = a → withReturns cs = d :: ds → False := by
    intro a c d cs hd h ds hc hds
    obtain ⟨es, hes, -⟩ := exists_of_withReturns hd hds
    exact h es hc hes
  fun_induction skip i p cs generalizing q r with
  | case1 p cs ih => exact ih q _ hu
  | case2 p cs ih => exact ih r _ hu
  | case3 p c cs hline hblock hg ih =>
    have hc : c ≠ '\n' := by
      rintro rfl
      cases hg
    rw [withReturns_cons hc, Inside.from, skip.eq_3 _ _ _ (hnot (by decide) hline)
      (hnot (by decide) hblock), if_pos hg]
    exact ih q _ hu
  | case4 p c cs hline hblock hg hc ih =>
    have hc' : c ≠ '\n' := by
      rintro rfl
      cases hc
    rw [withReturns_cons hc', Inside.from, skip.eq_3 _ _ _ (hnot (by decide) hline)
      (hnot (by decide) hblock), if_neg hg, if_pos hc]
    exact ih q _ hu
  | case5 p c cs hline hblock hg hc =>
    by_cases hnewline : c = '\n'
    · subst hnewline
      exact ⟨r.next '\r', by simp [Inside.from, afterReturn, skip, isGapChar]⟩
    · rw [withReturns_cons hnewline, Inside.from, skip.eq_3 _ _ _ (hnot (by decide) hline)
        (hnot (by decide) hblock), if_neg hg, if_neg hc]
      exact ⟨r, rfl⟩
  | case6 p c cs hc =>
    obtain rfl : c = '\n' := by simpa using hc
    exact ⟨r.next '\r', by simp [Inside.from, afterReturn, skip]⟩
  | case7 p c cs hc ih =>
    have hc' : c ≠ '\n' := by simpa using hc
    rw [withReturns_cons hc', Inside.from, skip, if_neg hc]
    exact ih q _ hu
  | case8 start p cs ih => exact ih q _ hu
  | case9 start p c cs hend ih =>
    by_cases hnewline : c = '\n'
    · subst hnewline
      simpa [Inside.from, skip] using ih q ((r.next '\r').next '\n') hu
    · rw [withReturns_cons hnewline, Inside.from, skip.eq_6 _ _ _ _ (hnot (by decide) hend)]
      exact ih q _ hu
  | case10 => cases hu
  | case11 | case12 => exact ⟨r, rfl⟩

end Trivia

/-! ## Pieces -/

namespace Piece

theorem marker_withReturns (hc : c = '$' ∨ c = '%') (cs : List Char) :
    marker c (withReturns cs) = marker c cs := by
  have hnewline : c ≠ '\n' := by rcases hc with rfl | rfl <;> decide
  match cs with
  | [] => rfl
  | d :: cs =>
    by_cases hd : d = '\n'
    · subst hd
      rcases hc with rfl | rfl <;> simp [marker]
    rw [withReturns_cons hd]
    match cs with
    | [] => rfl
    | e :: cs =>
      by_cases he : e = '\n'
      · subst he
        simp [marker]
      · simp [marker, withReturns_cons he]

theorem newline_notMem_marker (hc : c ≠ '\n') (cs : List Char) :
    '\n' ∉ (c :: cs).take (marker c cs).length := by
  unfold marker
  split
  · rename_i htake
    simp [length, htake, hc.symm]
  split
  · rename_i hhead
    obtain ⟨ds, rfl⟩ := List.head?_eq_some_iff.mp hhead
    simp [length, hc.symm]
  · simp [length, hc.symm]

/-- A line break is no digit, and behind it there is no value any more. -/
theorem newline_notMem_of_hexValue? {v : Nat} (h : hexValue? cs = some v) : '\n' ∉ cs := by
  intro hmem
  obtain ⟨front, back, rfl⟩ := List.append_of_mem hmem
  rw [hexValue?, List.foldl_append, List.foldl_cons] at h
  generalize front.foldl _ (some 0) = value at h
  have hnone : (value.bind fun n => if '\n'.isDigit then some (16 * n + ('\n'.toNat - '0'.toNat))
      else if 'a' ≤ '\n' ∧ '\n' ≤ 'f' then some (16 * n + ('\n'.toNat - 'a'.toNat + 10))
      else if 'A' ≤ '\n' ∧ '\n' ≤ 'F' then some (16 * n + ('\n'.toNat - 'A'.toNat + 10))
      else none) = none := by
    cases value <;> rfl
  rw [hnone] at h
  induction back with
  | nil => cases h
  | cons c back ih => exact ih (by simp) h

theorem codePoint_withReturns {m : Char} {count : Nat} (h : codePoint m count cs = .text decoded n) :
    codePoint m count (withReturns cs) = .text decoded n ∧ '\n' ∉ cs.take count ∧ n = 2 + count := by
  have hvalue : ∃ v, hexValue? (cs.take count) = some v := by
    simp only [codePoint] at h
    split at h
    · rename_i hcode
      obtain ⟨v, hv, -⟩ := Option.bind_eq_some_iff.mp hcode
      rw [Option.ite_none_right_eq_some] at hv
      exact ⟨v, hv.2⟩
    · cases h
  obtain ⟨v, hv⟩ := hvalue
  have hnewline := newline_notMem_of_hexValue? hv
  refine ⟨by rwa [codePoint, take_withReturns hnewline], hnewline, ?_⟩
  simp only [codePoint] at h
  split at h
  · exact (Piece.text.inj h).2.symm
  · cases h

theorem escape_withReturns (h : escape cs = .text decoded n) :
    escape (withReturns cs) = .text decoded n ∧ '\n' ∉ ('\\' :: cs).take n := by
  cases cs with
  | nil => cases h
  | cons c cs =>
    have hc : c ≠ '\n' := by
      rintro rfl
      cases h
    rw [withReturns_cons hc]
    by_cases hpoint : c = 'u' ∨ c = 'U'
    · obtain ⟨count, hcount⟩ : ∃ count, ∀ cs, escape (c :: cs) = codePoint c count cs := by
        rcases hpoint with rfl | rfl
        · exact ⟨4, fun _ => rfl⟩
        · exact ⟨8, fun _ => rfl⟩
      rw [hcount] at h
      obtain ⟨hreturns, hnewline, rfl⟩ := codePoint_withReturns h
      refine ⟨(hcount _).trans hreturns, ?_⟩
      rw [Nat.add_comm]
      simp [hc.symm, hnewline]
    · rw [not_or] at hpoint
      have hn : n = 2 := by
        unfold escape at h
        split at h
        case h_7 hcs => exact absurd (List.cons.inj hcs).1 hpoint.1
        case h_8 hcs => exact absurd (List.cons.inj hcs).1 hpoint.2
        all_goals simp only [Piece.text.injEq, reduceCtorEq] at h
        all_goals exact h.2.symm
      refine ⟨by rwa [escape_cons hpoint.1 hpoint.2 _ cs], ?_⟩
      simp [hn, hc.symm]

/-- A piece of a quoted literal is within the line. -/
theorem ofQuoted_withReturns (h : (ofQuoted cs).IsPart) :
    ofQuoted (withReturns cs) = ofQuoted cs ∧ '\n' ∉ cs.take (ofQuoted cs).length := by
  cases cs with
  | nil => exact h.elim
  | cons c cs =>
    by_cases hc : c = '\n'
    · subst hc
      exact h.elim
    rw [withReturns_cons hc]
    simp only [ofQuoted, if_neg hc] at h ⊢
    split
    · rename_i hq
      subst hq
      simp [length]
    rename_i hq
    rw [if_neg hq] at h
    split
    · rename_i hb
      rw [if_pos hb] at h
      subst hb
      obtain ⟨decoded, n, he⟩ := exists_text_of_escape h
      obtain ⟨hreturns, hnewline⟩ := escape_withReturns he
      rw [he]
      exact ⟨hreturns, hnewline⟩
    split
    · rename_i hm
      exact ⟨marker_withReturns hm cs, newline_notMem_marker hc cs⟩
    · simp [length, Ne.symm hc]

/-- A piece of a heredoc is within the line, unless it is the line break. -/
theorem ofHeredoc_withReturns (hnewline : cs.head? ≠ some '\n') (hreturn : '\r' ∉ cs) :
    ofHeredoc (withReturns cs) = ofHeredoc cs ∧ '\n' ∉ cs.take (ofHeredoc cs).length := by
  cases cs with
  | nil => exact ⟨rfl, List.not_mem_nil⟩
  | cons c cs =>
    have hc : c ≠ '\n' := fun hc => hnewline (congrArg some hc)
    have hr : c ≠ '\r' := fun hr => hreturn (hr ▸ List.mem_cons_self)
    rw [withReturns_cons hc]
    simp only [ofHeredoc, hr, false_and, if_false]
    split
    · rename_i hm
      exact ⟨marker_withReturns hm cs, newline_notMem_marker hc cs⟩
    · simp [length, hc.symm]

end Piece

/-! ## Heredocs -/

namespace Heredoc

variable {o : Opening}

/-- The carriage return does not belong to the line. -/
theorem line_withReturns (hr : '\r' ∉ cs) : line (withReturns cs) = line cs := by
  obtain ⟨gap, rest, hcs, hgap, hhead⟩ := exists_line cs
  have hnewline := inline_line.newline cs
  have hlast : (line cs).getLast? ≠ some '\r' := fun hlast =>
    hr ((inline_line.front cs).subset (List.mem_of_getLast? hlast))
  have hall : withReturns cs = line cs ++ withReturns (gap ++ rest) := by
    conv_lhs => rw [hcs, withReturns_append, withReturns_of_notMem hnewline]
  rw [hall]
  rcases hgap with rfl | rfl
  · cases rest with
    | nil => exact line_append hnewline (fun _ => hlast) (.inl rfl) nofun
    | cons c ds =>
      obtain rfl := hhead c rfl
      exact line_append hnewline (by simp) (.inr rfl) fun c hc => (Option.some.inj hc).symm
  · exact absurd (hcs ▸ by simp) hr

theorem closes_withReturns (hr : '\r' ∉ cs) : o.closes (withReturns cs) = o.closes cs := by
  rw [Opening.closes, line_withReturns hr, Opening.closes]

/-- An opening line, put together of its parts. -/
theorem opening?_of_parts (flush : Bool) {marker blanks rest : List Char}
    (hstart : marker.head?.any isIdentStart = true) (hmarker : ∀ c ∈ marker, isIdentContinue c = true)
    (hblanks : ∀ c ∈ blanks, isMarkerBlank c = true) (hrest : ∀ c ∈ rest.head?, c = '\n') :
    opening? ('<' :: '<' :: ((if flush then ['-'] else []) ++ (marker ++ (blanks ++ rest)))) =
      some ⟨flush, marker, 2 + (if flush then 1 else 0) + marker.length + blanks.length⟩ := by
  have hend : rest.takeWhile isIdentContinue = [] ∧ rest.takeWhile isMarkerBlank = [] := by
    cases rest with
    | nil => exact ⟨rfl, rfl⟩
    | cons c cs =>
      obtain rfl := hrest c rfl
      exact ⟨rfl, rfl⟩
  have hword : (blanks ++ rest).takeWhile isIdentContinue = [] := by
    cases blanks with
    | nil => exact hend.1
    | cons c blanks =>
      have hc := hblanks c List.mem_cons_self
      simp only [isMarkerBlank, Bool.or_eq_true, beq_iff_eq] at hc
      refine List.takeWhile_cons_of_neg ?_
      rcases hc with (rfl | rfl) | rfl <;> decide
  generalize hbody : marker ++ (blanks ++ rest) = body
  have htake : body.takeWhile isIdentContinue = marker := by
    rw [← hbody, List.takeWhile_append_of_pos hmarker, hword, List.append_nil]
  have hdrop : (body.drop marker.length).takeWhile isMarkerBlank = blanks := by
    rw [← hbody, List.drop_left, List.takeWhile_append_of_pos hblanks, hend.2, List.append_nil]
  have hhead : body.head?.any isIdentStart = true := by
    cases marker with
    | nil => cases hstart
    | cons c cs => exact hbody ▸ hstart
  have hdash : body.head? ≠ some '-' := fun hdash => by
    rw [hdash] at hhead
    exact absurd hhead (by decide)
  cases flush <;> simp [opening?, hdash, htake, hdrop, hhead]

/-- A carriage return in front of the line break is one more blank behind the marker. -/
theorem opening?_withReturns {front : List Char} (h : opening? (front ++ '\n' :: cs) = some o)
    (hfront : front.length = o.length) :
    '\n' ∉ front ∧ ∀ ds, opening? (front ++ '\r' :: '\n' :: ds) =
      some { o with length := o.length + 1 } := by
  obtain ⟨dash, body, hcs, hstart, hmarker, hlength, hdash⟩ := exists_of_opening? h
  obtain ⟨tail, hbody⟩ := inline_marker.front body
  generalize hblanks : (body.drop o.marker.length).takeWhile isMarkerBlank = blanks at hlength
  have hnewline := inline_marker.newline body
  simp only [← hmarker, hblanks] at hbody hnewline
  have heq : front ++ '\n' :: cs = '<' :: '<' :: (dash ++ (o.marker ++ blanks)) ++ tail := by
    rw [hcs, ← hbody]
    simp
  obtain ⟨rfl, -⟩ := List.append_inj heq (by
    rw [hfront, hlength]
    simp only [List.length_cons, List.length_append]
    omega)
  have hstart' : o.marker.head?.any isIdentStart = true := by
    cases body with
    | nil => cases hstart
    | cons c body =>
      rw [hmarker, List.takeWhile_cons_of_pos (isIdentContinue_of_isIdentStart hstart)]
      exact hstart
  have hmarker' : ∀ c ∈ o.marker, isIdentContinue c = true := fun c hc => by
    rw [hmarker] at hc
    exact List.all_eq_true.mp List.all_takeWhile c hc
  have hblanks' : ∀ c ∈ blanks ++ ['\r'], isMarkerBlank c = true := fun c hc => by
    rcases List.mem_append.mp hc with hc | hc
    · rw [← hblanks] at hc
      exact List.all_eq_true.mp List.all_takeWhile c hc
    · rw [List.mem_singleton.mp hc]
      rfl
  refine ⟨?_, fun ds => ?_⟩
  · rw [hdash]
    cases o.flush <;> simpa using hnewline
  · have hall := opening?_of_parts o.flush hstart' hmarker' hblanks'
      (fun c (hc : c ∈ ('\n' :: ds).head?) => (Option.some.inj hc).symm)
    have hlength : o.length + 1 = 2 + (if o.flush then 1 else 0) + o.marker.length +
        (blanks ++ ['\r']).length := by
      rw [hlength, hdash]
      cases o.flush <;> simp <;> omega
    rw [hlength]
    simpa [hdash] using hall

/-! ### Shared indentation -/

variable {cs' : List Char}

theorem forall₂_lines (h : AddsReturns cs cs') : List.Forall₂ AddsReturns (lines cs) (lines cs') := by
  induction h with
  | nil => exact .nil
  | @cons c cs cs' h ih =>
    simp only [lines]
    split
    · exact .cons (.refl _) ih
    · generalize lines cs = ls at ih
      generalize lines cs' = ls' at ih
      cases ih with
      | nil => exact .cons (.refl _) .nil
      | cons hline hmore => exact .cons (.cons c hline) hmore
  | newline h ih => exact .cons (.newline .nil) ih

theorem isBlank_addsReturns (h : AddsReturns cs cs') : isBlank cs' = isBlank cs := by
  have hreturn : isWhiteSpace '\r' = true := by decide
  induction h with
  | nil => rfl
  | cons c _ ih =>
    simp only [isBlank, List.all_cons] at ih ⊢
    rw [ih]
  | newline _ ih =>
    simp only [isBlank, List.all_cons, hreturn, Bool.true_and] at ih ⊢
    rw [ih]

theorem indentOf_addsReturns (h : AddsReturns cs cs') : indentOf cs' = indentOf cs := by
  induction h with
  | nil => rfl
  | cons c _ ih =>
    simp only [indentOf, List.takeWhile_cons] at ih ⊢
    split
    · simp only [List.length_cons, ih]
    · rfl
  | newline _ _ => rfl

/-- Nothing is added within the indentation. -/
theorem addsReturns_drop (h : AddsReturns cs cs') (hn : n ≤ indentOf cs) :
    AddsReturns (cs.drop n) (cs'.drop n) := by
  induction n generalizing cs cs' with
  | zero => exact h
  | succ n ih =>
    cases h with
    | nil => exact .nil
    | cons c h =>
      refine ih h ?_
      simp only [indentOf, List.takeWhile_cons] at hn ⊢
      split at hn
      · exact Nat.le_of_succ_le_succ hn
      · cases hn
    | newline _ => cases hn

theorem sharedIndent_addsReturns {ls ls' : List (List Char)} (h : List.Forall₂ AddsReturns ls ls') :
    sharedIndent ls' = sharedIndent ls := by
  have hindents : (ls'.filter (! isBlank ·)).map indentOf = (ls.filter (! isBlank ·)).map indentOf := by
    induction h with
    | nil => rfl
    | @cons line line' ls ls' hline _ ih =>
      rw [List.filter_cons, List.filter_cons, isBlank_addsReturns hline]
      split
      · rw [List.map_cons, List.map_cons, ih, indentOf_addsReturns hline]
      · exact ih
  rw [sharedIndent, hindents, sharedIndent]

/-- Carriage returns at the ends of lines change nothing about the indentation. -/
theorem addsReturns_dedent (h : AddsReturns cs cs') : AddsReturns (dedent cs) (dedent cs') := by
  have hlines := forall₂_lines h
  simp only [dedent, sharedIndent_addsReturns hlines]
  generalize sharedIndent (lines cs) = indent
  generalize lines cs = ls at hlines
  generalize lines cs' = ls' at hlines
  induction hlines with
  | nil => exact .nil
  | cons hline _ ih =>
    rw [List.flatMap_cons, List.flatMap_cons, indentOf_addsReturns hline]
    exact (addsReturns_drop hline (Nat.min_le_left _ _)).append ih

end Heredoc

end Hcl
