import Hcl.Lexer.Scan

/-!
# Lexemes and lines

No numeral, word or heredoc marker goes beyond the end of its line. So the lexemes at the front of a
text that ends with a line break are the same when more text follows.
-/

namespace Hcl

/-- The text is empty or ends with a line break. -/
def LineEnded (cs : List Char) : Prop := ∀ c ∈ cs.getLast?, c = '\n'

namespace LineEnded

variable {c : Char} {as cs : List Char}

theorem of_append (h : LineEnded (as ++ cs)) : LineEnded cs := fun c hc =>
  h c (by rw [List.getLast?_append, hc, Option.some_or]; rfl)

theorem of_suffix (h : LineEnded as) (hs : cs <:+ as) : LineEnded cs := by
  obtain ⟨front, rfl⟩ := hs
  exact h.of_append

theorem tail (h : LineEnded (c :: cs)) : LineEnded cs := h.of_suffix (List.suffix_cons c cs)

theorem drop (h : LineEnded cs) (n : Nat) : LineEnded (cs.drop n) :=
  h.of_suffix (List.drop_suffix n cs)

theorem mem (h : LineEnded cs) (hne : cs ≠ []) : '\n' ∈ cs := by
  have hlast := List.getLast?_eq_some_getLast hne
  exact h _ hlast ▸ List.getLast_mem hne

/-- A line that has begun is not at its end. -/
theorem ne_nil (h : LineEnded (c :: cs)) (hc : c ≠ '\n') : cs ≠ [] := by
  rintro rfl
  exact hc (h c rfl)

/-- No line begins with `a` and `d` because of what follows the text. -/
theorem not_cons {a d : Char} (h : LineEnded (c :: cs)) (ha : a ≠ '\n')
    (hne : ∀ ds, c = a → cs = d :: ds → False) (more : List Char) :
    ∀ ds, c = a → cs ++ more = d :: ds → False := by
  rintro ds rfl hcs
  obtain ⟨e, es, rfl⟩ := List.exists_cons_of_ne_nil (h.ne_nil ha)
  rw [List.cons_append, List.cons.injEq] at hcs
  exact hne es rfl (hcs.1 ▸ rfl)

/-- What is cut off inside a line leaves the line break. -/
theorem drop_ne_nil {n : Nat} (h : LineEnded cs) (hne : cs ≠ []) (hn : '\n' ∉ cs.take n) :
    cs.drop n ≠ [] := by
  intro hnil
  have htake := List.take_append_drop n cs
  rw [hnil, List.append_nil] at htake
  rw [htake] at hn
  exact hn (h.mem hne)

end LineEnded

/-! ## Lexemes within a line -/

/-- `f` cuts a lexeme off the front of a text, and no lexeme contains a line break. -/
structure Lexeme.Inline (f : List Char → List Char) : Prop where
  front : ∀ cs, f cs <+: cs
  newline : ∀ cs, '\n' ∉ f cs
  append : ∀ {cs}, LineEnded cs → cs ≠ [] → ∀ more, f (cs ++ more) = f cs

namespace Lexeme

variable {f g : List Char → List Char} {c : Char} {cs : List Char}

namespace Inline

theorem take (hf : Inline f) (cs : List Char) : cs.take (f cs).length = f cs :=
  (List.prefix_iff_eq_take.mp (hf.front cs)).symm

theorem length_le (hf : Inline f) (cs : List Char) : (f cs).length ≤ cs.length :=
  (hf.front cs).length_le

theorem drop_ne_nil (hf : Inline f) (h : LineEnded cs) (hne : cs ≠ []) :
    cs.drop (f cs).length ≠ [] :=
  h.drop_ne_nil hne (by rw [hf.take]; exact hf.newline cs)

theorem drop_append (hf : Inline f) (cs more : List Char) :
    (cs ++ more).drop (f cs).length = cs.drop (f cs).length ++ more :=
  List.drop_append_of_le_length (hf.length_le cs)

theorem takeWhile {p : Char → Bool} (hp : p '\n' = false) : Inline (List.takeWhile p) where
  front cs := List.takeWhile_prefix p
  newline cs h := by
    have hall := List.all_eq_true.mp List.all_takeWhile '\n' h
    exact Bool.false_ne_true (hp.symm.trans hall)
  append {cs} h hne more := by
    have hfront : cs.takeWhile p <+: cs := List.takeWhile_prefix p
    have hlt : (cs.takeWhile p).length ≠ cs.length := fun hlen => by
      have heq := List.IsPrefix.eq_of_length hfront hlen
      have hmem : '\n' ∈ cs.takeWhile p := heq.symm ▸ h.mem hne
      have hall := List.all_eq_true.mp List.all_takeWhile '\n' hmem
      exact Bool.false_ne_true (hp.symm.trans hall)
    rw [List.takeWhile_append, if_neg hlt]

/-- One lexeme behind the other. -/
theorem seq (hf : Inline f) (hg : Inline g) :
    Inline fun cs => f cs ++ g (cs.drop (f cs).length) where
  front cs := by
    obtain ⟨rest, hrest⟩ := hg.front (cs.drop (f cs).length)
    have hcs := List.take_append_drop (f cs).length cs
    rw [hf.take, ← hrest, ← List.append_assoc] at hcs
    exact ⟨rest, hcs⟩
  newline cs h := by
    rcases List.mem_append.mp h with h | h
    · exact hf.newline _ h
    · exact hg.newline _ h
  append {cs} h hne more := by
    rw [hf.append h hne, hf.drop_append, hg.append (h.drop _) (hf.drop_ne_nil h hne)]

end Inline

/-! ## Numerals and words -/

theorem inline_digits : Inline digits := .takeWhile rfl

theorem inline_word : Inline word := .takeWhile (by decide)

theorem inline_sign : Inline sign where
  front cs := by
    unfold sign
    split
    · exact ⟨_, rfl⟩
    · exact ⟨_, rfl⟩
    · exact List.nil_prefix
  newline cs := by
    unfold sign
    split <;> decide
  append {cs} h hne more := by
    cases cs with
    | nil => exact absurd rfl hne
    | cons c cs =>
      rw [List.cons_append]
      unfold sign
      split <;> simp_all

theorem inline_fraction : Inline fraction where
  front cs := by
    unfold fraction
    split
    · split
      · exact List.nil_prefix
      · exact (List.prefix_cons_inj _).mpr (inline_digits.front _)
    · exact List.nil_prefix
  newline cs := by
    unfold fraction
    split
    · split
      · exact List.not_mem_nil
      · simpa using inline_digits.newline _
    · exact List.not_mem_nil
  append {cs} h hne more := by
    cases cs with
    | nil => exact absurd rfl hne
    | cons c cs =>
      by_cases hc : c = '.'
      · subst hc
        simp only [List.cons_append, fraction, inline_digits.append h.tail (h.ne_nil (by decide))]
      · rw [List.cons_append]
        unfold fraction
        split <;> simp_all

theorem inline_power : Inline fun cs => sign cs ++ digits (cs.drop (sign cs).length) :=
  inline_sign.seq inline_digits

theorem inline_exponent : Inline exponent where
  front cs := by
    cases cs with
    | nil => exact List.nil_prefix
    | cons c cs =>
      simp only [exponent]
      split
      · exact (List.prefix_cons_inj _).mpr (inline_power.front cs)
      · exact List.nil_prefix
  newline cs := by
    cases cs with
    | nil => exact List.not_mem_nil
    | cons c cs =>
      simp only [exponent]
      split
      · rename_i hc
        have hnewline := inline_power.newline cs
        simp only [Bool.and_eq_true, Bool.or_eq_true, beq_iff_eq] at hc
        rcases hc.1 with rfl | rfl <;> simpa using hnewline
      · exact List.not_mem_nil
  append {cs} h hne more := by
    cases cs with
    | nil => exact absurd rfl hne
    | cons c cs =>
      by_cases hc : (c == 'e' || c == 'E') = true
      · have hne : cs ≠ [] := h.ne_nil (by rintro rfl; revert hc; decide)
        simp only [List.cons_append, exponent, inline_sign.append h.tail hne,
          inline_sign.drop_append,
          inline_digits.append (h.tail.drop _) (inline_sign.drop_ne_nil h.tail hne)]
      · simp only [List.cons_append, exponent, hc, Bool.false_and, Bool.false_eq_true, if_false]

theorem inline_numeral : Inline numeral := by
  have h := ((inline_sign.seq inline_digits).seq inline_fraction).seq inline_exponent
  simp only [List.length_append] at h
  exact h

/-! ## In front of a token -/

theorem numeralAhead_append (signAllowed : Bool) (h : LineEnded cs) (hne : cs ≠ [])
    (more : List Char) : numeralAhead signAllowed (cs ++ more) = numeralAhead signAllowed cs := by
  cases cs with
  | nil => exact absurd rfl hne
  | cons c cs =>
    cases cs with
    | nil =>
      obtain rfl : c = '\n' := h c rfl
      simp [numeralAhead]
    | cons d ds => rfl

/-- Only behind `.`, `=`, `!`, `<` and `>` does the next character matter. -/
theorem fixed?_append {kind : TokenKind} {n : Nat} (h : LineEnded cs)
    (hf : fixed? cs = some (kind, n)) (more : List Char) : fixed? (cs ++ more) = some (kind, n) := by
  unfold fixed? at hf
  split at hf <;> simp only [Option.some.injEq, Prod.mk.injEq, reduceCtorEq] at hf <;>
    obtain ⟨rfl, rfl⟩ := hf
  case h_12 tail hne =>
    obtain ⟨d, ds, rfl⟩ := List.exists_cons_of_ne_nil (h.ne_nil (by decide))
    by_cases hd : d = '.'
    · subst hd
      obtain ⟨e, es, rfl⟩ := List.exists_cons_of_ne_nil (h.tail.ne_nil (by decide))
      have he : e ≠ '.' := fun he => hne es (he ▸ rfl)
      simp [fixed?, he]
    · simp [fixed?, hd]
  case h_15 tail hne hne' =>
    obtain ⟨d, ds, rfl⟩ := List.exists_cons_of_ne_nil (h.ne_nil (by decide))
    have hd : d ≠ '=' := fun hd => hne ds (hd ▸ rfl)
    have hd' : d ≠ '>' := fun hd => hne' ds (hd ▸ rfl)
    simp [fixed?, hd, hd']
  case h_21 tail hne | h_22 tail hne | h_23 tail hne =>
    obtain ⟨d, ds, rfl⟩ := List.exists_cons_of_ne_nil (h.ne_nil (by decide))
    have hd : d ≠ '=' := fun hd => hne ds (hd ▸ rfl)
    simp [fixed?, hd]
  all_goals rfl

theorem length_le_of_fixed? {kind : TokenKind} {n : Nat} (hf : fixed? cs = some (kind, n)) :
    n ≤ cs.length := by
  unfold fixed? at hf
  split at hf <;> simp only [Option.some.injEq, Prod.mk.injEq, reduceCtorEq] at hf <;>
    obtain ⟨rfl, rfl⟩ := hf <;> simp

/-- Only a line break is a token that contains one. -/
theorem newline_of_fixed? {kind : TokenKind} {n : Nat} (hf : fixed? cs = some (kind, n))
    (hk : kind ≠ .newline) : '\n' ∉ cs.take n := by
  unfold fixed? at hf
  split at hf <;> simp only [Option.some.injEq, Prod.mk.injEq, reduceCtorEq] at hf <;>
    obtain ⟨rfl, rfl⟩ := hf <;> first | exact absurd rfl hk | simp

end Lexeme

/-! ## Heredocs -/

namespace Heredoc

open Lexeme

variable {o : Opening} {c : Char} {cs : List Char}

/-- A marker and the blanks behind it. -/
theorem inline_marker : Inline fun cs => cs.takeWhile Text.isIdentContinue ++
    (cs.drop (cs.takeWhile Text.isIdentContinue).length).takeWhile isMarkerBlank :=
  .seq inline_word (.takeWhile (by decide))

theorem inline_line : Inline line where
  front cs := by
    have hfront : cs.takeWhile (· != '\n') <+: cs := List.takeWhile_prefix _
    simp only [line]
    split
    · have hlast : (cs.takeWhile (· != '\n')).dropLast <+: cs.takeWhile (· != '\n') :=
        List.dropLast_prefix _
      exact hlast.trans hfront
    · exact hfront
  newline cs h := by
    have hmem : '\n' ∈ cs.takeWhile (· != '\n') := by
      simp only [line] at h
      split at h
      · exact (List.dropLast_sublist _).subset h
      · exact h
    exact (Inline.takeWhile (by decide)).newline cs hmem
  append {cs} h hne more := by
    have hline : (cs ++ more).takeWhile (· != '\n') = cs.takeWhile (· != '\n') :=
      (Inline.takeWhile (by decide)).append h hne more
    simp only [line, hline]

theorem closes_append (h : LineEnded cs) (hne : cs ≠ []) (more : List Char) :
    o.closes (cs ++ more) = o.closes cs := by
  simp only [Opening.closes, inline_line.append h hne]

/-- The end of the text closes no heredoc. -/
theorem ne_nil_of_closes (hm : o.marker ≠ []) (h : o.closes cs = true) : cs ≠ [] := by
  rintro rfl
  have hline : (if o.flush then Text.trimStart (line []) else line []) = [] := by
    split <;> rfl
  rw [Opening.closes, hline, beq_iff_eq] at h
  exact hm h.symm

theorem opening?_append (h : LineEnded cs) (hne : cs ≠ []) (more : List Char) :
    opening? (cs ++ more) = opening? cs := by
  have hframe : ∀ {cs}, LineEnded cs → cs ≠ [] →
      (cs ++ more).head? = cs.head? ∧
      (cs ++ more).takeWhile Text.isIdentContinue = cs.takeWhile Text.isIdentContinue ∧
      ((cs ++ more).drop (cs.takeWhile Text.isIdentContinue).length).takeWhile isMarkerBlank =
        (cs.drop (cs.takeWhile Text.isIdentContinue).length).takeWhile isMarkerBlank :=
    fun {cs} h hne => by
      have hhead : (cs ++ more).head? = cs.head? := by
        obtain ⟨c, cs, rfl⟩ := List.exists_cons_of_ne_nil hne
        rfl
      have hword := inline_word.drop_append
      have hblank : Inline (List.takeWhile isMarkerBlank) := .takeWhile (by decide)
      refine ⟨hhead, inline_word.append h hne more, ?_⟩
      exact (congrArg _ (hword _ more)).trans
        (hblank.append (h.drop _) (inline_word.drop_ne_nil h hne) more)
  unfold opening?
  split
  · rename_i ds hcs
    obtain ⟨es, rfl, rfl⟩ : ∃ es, cs = '<' :: '<' :: es ∧ ds = es ++ more := by
      obtain ⟨c, cs, rfl⟩ := List.exists_cons_of_ne_nil hne
      rw [List.cons_append, List.cons.injEq] at hcs
      obtain ⟨rfl, hcs⟩ := hcs
      obtain ⟨d, ds, rfl⟩ := List.exists_cons_of_ne_nil (h.ne_nil (by decide))
      rw [List.cons_append, List.cons.injEq] at hcs
      obtain ⟨rfl, hcs⟩ := hcs
      exact ⟨ds, rfl, hcs.symm⟩
    have hes : LineEnded es := h.tail.tail
    have hne : es ≠ [] := h.tail.ne_nil (by decide)
    obtain ⟨hhead, hmarker, hblanks⟩ := hframe hes hne
    by_cases hdash : es.head? = some '-'
    · obtain ⟨es, rfl⟩ : ∃ fs, es = '-' :: fs := by
        obtain ⟨e, es, rfl⟩ := List.exists_cons_of_ne_nil hne
        exact ⟨es, by simpa using hdash⟩
      obtain ⟨hhead, hmarker, hblanks⟩ := hframe hes.tail (hes.ne_nil (by decide))
      simp [hhead, hmarker, hblanks]
    · simp [hhead, hmarker, hblanks, hdash]
  · rename_i hother
    split
    · exact absurd rfl (hother _)
    · rfl

/-- The parts of an opening line. -/
theorem exists_of_opening? (h : opening? cs = some o) : ∃ dash body,
    cs = '<' :: '<' :: (dash ++ body) ∧
    body.head?.any Text.isIdentStart = true ∧ o.marker = body.takeWhile Text.isIdentContinue ∧
    o.length = 2 + dash.length +
      (o.marker ++ (body.drop o.marker.length).takeWhile isMarkerBlank).length ∧
    dash = if o.flush then ['-'] else [] := by
  unfold opening? at h
  split at h
  · rename_i ds
    by_cases hdash : ds.head? = some '-'
    · obtain ⟨es, rfl⟩ : ∃ es, ds = '-' :: es := by
        cases ds with
        | nil => cases hdash
        | cons d ds => exact ⟨ds, by simpa using hdash⟩
      simp only [List.head?_cons, beq_self_eq_true, if_true, List.drop_succ_cons, List.drop_zero,
        Option.ite_none_right_eq_some, Option.some.injEq] at h
      obtain ⟨hstart, rfl⟩ := h
      exact ⟨['-'], es, rfl, hstart, rfl, by simp [Nat.add_assoc], rfl⟩
    · simp only [beq_iff_eq, hdash, if_false, List.drop_zero, Option.ite_none_right_eq_some,
        Option.some.injEq] at h
      obtain ⟨hstart, rfl⟩ := h
      exact ⟨[], ds, rfl, hstart, rfl, by simp [Nat.add_assoc], by simp [hdash]⟩
  · cases h

theorem length_le_of_opening? (h : opening? cs = some o) : o.length ≤ cs.length := by
  obtain ⟨dash, body, rfl, -, hmarker, hlength, -⟩ := exists_of_opening? h
  have hle := inline_marker.length_le body
  rw [← hmarker] at hle
  simp only [List.length_cons, List.length_append] at *
  omega

theorem marker_ne_nil (h : opening? cs = some o) : o.marker ≠ [] := by
  obtain ⟨dash, body, -, hstart, hmarker, -⟩ := exists_of_opening? h
  cases body with
  | nil => cases hstart
  | cons c cs => exact hmarker ▸ List.length_pos_iff.mp (length_word_pos hstart)

end Heredoc

/-! ## Pieces -/

namespace Piece

variable {c : Char} {cs decoded : List Char} {n : Nat}

theorem marker_append (h : LineEnded (c :: cs)) (hc : c ≠ '\n') (more : List Char) :
    marker c (cs ++ more) = marker c cs := by
  obtain ⟨d, ds, rfl⟩ := List.exists_cons_of_ne_nil (h.ne_nil hc)
  cases ds with
  | nil =>
    obtain rfl : d = '\n' := h.tail d rfl
    simp [marker, hc.symm]
  | cons e es => simp [marker]

theorem length_le_of_marker (h : marker c cs = .text decoded n) : n ≤ (c :: cs).length := by
  unfold marker at h
  split at h
  · rename_i htake
    have hlength := congrArg List.length htake
    simp only [Piece.text.injEq, List.length_take, List.length_cons, List.length_nil] at *
    omega
  split at h
  · cases h
  · simp only [Piece.text.injEq] at h
    simp [← h.2]

theorem codePoint_append {m : Char} {count : Nat} (h : codePoint m count cs = .text decoded n)
    (more : List Char) : codePoint m count (cs ++ more) = .text decoded n ∧ n ≤ 2 + cs.length := by
  have hlength : (cs.take count).length = count := by
    by_cases hne : (cs.take count).length = count
    · exact hne
    · simp only [codePoint, if_neg hne] at h
      cases h
  have hle : count ≤ cs.length := by
    rw [List.length_take] at hlength
    omega
  refine ⟨by rwa [codePoint, List.take_append_of_le_length hle], ?_⟩
  simp only [codePoint] at h
  split at h
  · simp only [Piece.text.injEq] at h
    omega
  · cases h

theorem escape_append (h : escape cs = .text decoded n) (more : List Char) :
    escape (cs ++ more) = .text decoded n ∧ n ≤ 1 + cs.length := by
  unfold escape at h
  split at h
  case h_7 cs | h_8 cs =>
    obtain ⟨happend, hle⟩ := codePoint_append h more
    exact ⟨happend, by simp only [List.length_cons]; omega⟩
  case h_1 | h_9 => cases h
  all_goals
    simp only [Piece.text.injEq] at h
    obtain ⟨rfl, rfl⟩ := h
    exact ⟨rfl, by simp only [List.length_cons]; omega⟩

/-- What is read of a literal when it goes on behind. -/
def IsPart : Piece → Prop
  | .text _ _ | template | quote => True
  | invalid _ | loneBackslash | lineEnd => False

theorem exists_text_of_escape (h : (escape cs).IsPart) :
    ∃ decoded n, escape cs = .text decoded n := by
  unfold escape at h ⊢
  split at h
  case h_1 | h_9 => exact h.elim
  case h_7 | h_8 =>
    simp only [codePoint] at h ⊢
    split at h
    · exact ⟨_, _, rfl⟩
    · exact h.elim
  all_goals exact ⟨_, _, rfl⟩

theorem ofQuoted_append (h : LineEnded cs) (hp : (ofQuoted cs).IsPart) (more : List Char) :
    ofQuoted (cs ++ more) = ofQuoted cs := by
  cases cs with
  | nil => exact hp.elim
  | cons c cs =>
    simp only [List.cons_append, ofQuoted] at hp ⊢
    split
    · rfl
    rename_i hc
    split
    · rfl
    rename_i hq
    split
    · rename_i hb
      rw [if_neg hc, if_neg hq, if_pos hb] at hp
      obtain ⟨decoded, n, he⟩ := exists_text_of_escape hp
      rw [he, (escape_append he more).1]
    split
    · exact marker_append h hc more
    · rfl

theorem length_le_of_ofQuoted (h : ofQuoted cs = .text decoded n) : n ≤ cs.length := by
  cases cs with
  | nil => cases h
  | cons c cs =>
    simp only [ofQuoted] at h
    split at h
    · cases h
    split at h
    · cases h
    split at h
    · have := (escape_append h []).2
      simp only [List.length_cons]
      omega
    split at h
    · exact length_le_of_marker h
    · simp only [Piece.text.injEq] at h
      simp [← h.2]

theorem ofHeredoc_append (h : LineEnded cs) (hne : cs ≠ []) (more : List Char) :
    ofHeredoc (cs ++ more) = ofHeredoc cs := by
  obtain ⟨c, cs, rfl⟩ := List.exists_cons_of_ne_nil hne
  by_cases hc : c = '\n'
  · subst hc
    simp [ofHeredoc]
  · have hhead : (cs ++ more).head? = cs.head? := by
      obtain ⟨d, ds, rfl⟩ := List.exists_cons_of_ne_nil (h.ne_nil hc)
      rfl
    simp only [List.cons_append, ofHeredoc, hhead, marker_append h hc]

theorem length_le_of_ofHeredoc (h : ofHeredoc cs = .text decoded n) : n ≤ cs.length := by
  cases cs with
  | nil => cases h
  | cons c cs =>
    simp only [ofHeredoc] at h
    split at h
    · simp only [Piece.text.injEq] at h
      simp [← h.2]
    split at h
    · exact length_le_of_marker h
    · simp only [Piece.text.injEq] at h
      simp [← h.2]

end Piece

end Hcl
