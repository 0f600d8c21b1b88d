import Hcl.Proofs.Lexer.Lines

/-!
# Lexemes of a text that is cut short

No lexeme goes on behind a blank or a line break, with a carriage return in front of it or without.
So the lexemes within the first part of a text stay the same when what follows that part is taken away
and a text that begins with one of these is put in its place.
-/

namespace Hcl

/-- The text is empty or begins with a blank, a line break or a carriage return. -/
def Stops (tail : List Char) : Prop := ∀ c ∈ tail.head?, c = ' ' ∨ c = '\n' ∨ c = '\r'

variable {kept back tail : List Char} {n : Nat}

theorem stops_nil : Stops [] := nofun

theorem stops_blank (cs : List Char) : Stops (' ' :: cs) := fun _ h => .inl (Option.some.inj h).symm

theorem stops_newline (cs : List Char) : Stops ('\n' :: cs) := fun _ h =>
  .inr (.inl (Option.some.inj h).symm)

theorem stops_return (cs : List Char) : Stops ('\r' :: cs) := fun _ h =>
  .inr (.inr (Option.some.inj h).symm)

theorem Stops.eq_nil_or (h : Stops tail) : tail = [] ∨ (∃ cs, tail = ' ' :: cs) ∨
    (∃ cs, tail = '\n' :: cs) ∨ ∃ cs, tail = '\r' :: cs := by
  cases tail with
  | nil => exact .inl rfl
  | cons c cs =>
    rcases h c rfl with rfl | rfl | rfl
    · exact .inr (.inl ⟨cs, rfl⟩)
    · exact .inr (.inr (.inl ⟨cs, rfl⟩))
    · exact .inr (.inr (.inr ⟨cs, rfl⟩))

theorem Stops.takeWhile {p : Char → Bool} (h : Stops tail) (hblank : p ' ' = false)
    (hnewline : p '\n' = false) (hreturn : p '\r' = false) : tail.takeWhile p = [] := by
  rcases h.eq_nil_or with rfl | ⟨cs, rfl⟩ | ⟨cs, rfl⟩ | ⟨cs, rfl⟩ <;>
    simp [hblank, hnewline, hreturn]

namespace Lexeme

/-- A lexeme within the first part of a text is the same in front of a blank or a line break. -/
structure Local (f : List Char → List Char) : Prop where
  cut : ∀ kept back {tail}, Stops tail → (f (kept ++ back)).length ≤ kept.length →
    f (kept ++ tail) = f (kept ++ back)

variable {f g : List Char → List Char} {signAllowed : Bool} {kind : TokenKind}

namespace Local

theorem takeWhile {p : Char → Bool} (hblank : p ' ' = false) (hnewline : p '\n' = false)
    (hreturn : p '\r' = false) : Local (List.takeWhile p) where
  cut kept back tail ht h := by
    rw [List.takeWhile_append] at h ⊢
    rw [List.takeWhile_append]
    split
    · rename_i hall
      rw [if_pos hall, List.length_append] at h
      have hback : back.takeWhile p = [] := List.length_eq_zero_iff.mp (by omega)
      rw [hback, ht.takeWhile hblank hnewline hreturn]
    · rfl

theorem seq (hf : Local f) (hg : Local g) :
    Local fun cs => f cs ++ g (cs.drop (f cs).length) where
  cut kept back tail ht h := by
    simp only [List.length_append] at h
    have hle : (f (kept ++ back)).length ≤ kept.length := by omega
    rw [List.drop_append_of_le_length hle] at h
    rw [hf.cut _ _ ht hle, List.drop_append_of_le_length hle, List.drop_append_of_le_length hle,
      hg.cut _ back ht (by rw [List.length_drop]; omega)]

/-- No lexeme begins with a blank or a line break. -/
theorem of_cons (hstops : ∀ {tail}, Stops tail → f tail = [])
    (hcons : ∀ c kept back {tail}, Stops tail → (f (c :: (kept ++ back))).length ≤ kept.length + 1 →
      f (c :: (kept ++ tail)) = f (c :: (kept ++ back))) : Local f where
  cut kept back tail ht h := by
    cases kept with
    | nil =>
      have hback : f back = [] := List.length_eq_zero_iff.mp (Nat.le_zero.mp h)
      rw [List.nil_append, List.nil_append, hback, hstops ht]
    | cons c kept => exact hcons c kept back ht h

end Local

theorem local_digits : Local digits := .takeWhile rfl rfl rfl

theorem local_word : Local word := .takeWhile (by decide) (by decide) (by decide)

theorem length_sign_le (cs : List Char) : (sign cs).length ≤ 1 := by
  unfold sign
  split <;> simp

theorem sign_of_stops (ht : Stops tail) : sign tail = [] := by
  rcases ht.eq_nil_or with rfl | ⟨cs, rfl⟩ | ⟨cs, rfl⟩ | ⟨cs, rfl⟩ <;> rfl

theorem local_sign : Local sign := by
  refine .of_cons sign_of_stops fun c kept back tail _ _ => ?_
  unfold sign
  split <;> simp_all

theorem fraction_of_stops (ht : Stops tail) : fraction tail = [] := by
  rcases ht.eq_nil_or with rfl | ⟨cs, rfl⟩ | ⟨cs, rfl⟩ | ⟨cs, rfl⟩ <;> rfl

theorem local_fraction : Local fraction := by
  refine .of_cons fraction_of_stops fun c kept back tail ht h => ?_
  by_cases hc : c = '.'
  · subst hc
    simp only [fraction] at h ⊢
    have hdigits : digits (kept ++ tail) = digits (kept ++ back) := by
      refine local_digits.cut _ _ ht ?_
      split at h
      · rename_i hempty
        simp [List.isEmpty_iff.mp hempty]
      · simpa using h
    rw [hdigits]
  · unfold fraction
    split <;> simp_all

/-- Where no digits follow a sign, neither do they in front of a blank or a line break. -/
theorem power_eq_nil (ht : Stops tail)
    (h : digits ((kept ++ back).drop (sign (kept ++ back)).length) = []) :
    digits ((kept ++ tail).drop (sign (kept ++ tail)).length) = [] := by
  cases kept with
  | nil => rcases ht.eq_nil_or with rfl | ⟨cs, rfl⟩ | ⟨cs, rfl⟩ | ⟨cs, rfl⟩ <;> rfl
  | cons c kept =>
    have hle : (sign (c :: kept ++ back)).length ≤ (c :: kept).length :=
      Nat.le_trans (length_sign_le _) (Nat.succ_le_succ (Nat.zero_le _))
    rw [local_sign.cut _ _ ht hle, List.drop_append_of_le_length hle]
    rw [List.drop_append_of_le_length hle] at h
    rw [local_digits.cut _ back ht (by rw [h]; exact Nat.zero_le _), h]

theorem local_power : Local fun cs => sign cs ++ digits (cs.drop (sign cs).length) :=
  local_sign.seq local_digits

theorem exponent_of_stops (ht : Stops tail) : exponent tail = [] := by
  rcases ht.eq_nil_or with rfl | ⟨cs, rfl⟩ | ⟨cs, rfl⟩ | ⟨cs, rfl⟩ <;> rfl

theorem local_exponent : Local exponent := by
  refine .of_cons exponent_of_stops fun c kept back tail ht h => ?_
  simp only [exponent] at h ⊢
  by_cases hpower : digits ((kept ++ back).drop (sign (kept ++ back)).length) = []
  · simp [hpower, power_eq_nil ht hpower]
  · by_cases hc : (c == 'e' || c == 'E') = true
    · have hcond : ((c == 'e' || c == 'E') &&
          !(digits ((kept ++ back).drop (sign (kept ++ back)).length)).isEmpty) = true := by
        simp only [hc, Bool.true_and, Bool.not_eq_true', List.isEmpty_eq_false_iff]
        exact hpower
      rw [if_pos hcond] at h
      have hcut := local_power.cut kept back ht (by simpa using h)
      have hsign : sign (kept ++ tail) = sign (kept ++ back) := local_sign.cut _ _ ht (by
        simp only [List.length_cons, List.length_append] at h
        omega)
      rw [hsign] at hcut ⊢
      rw [List.append_cancel_left hcut]
    · simp [hc]

theorem local_numeral : Local numeral := by
  have h := ((local_sign.seq local_digits).seq local_fraction).seq local_exponent
  simp only [List.length_append] at h
  exact h

/-- A sign in front of a blank or a line break belongs to no numeral. -/
theorem numeralAhead_cut (ht : Stops tail) (hkept : kept ≠ [])
    (h : numeralAhead signAllowed (kept ++ back) = true →
      (numeral (kept ++ back)).length ≤ kept.length) :
    numeralAhead signAllowed (kept ++ tail) = numeralAhead signAllowed (kept ++ back) := by
  obtain ⟨c, kept, rfl⟩ := List.exists_cons_of_ne_nil hkept
  cases kept with
  | cons d kept => rfl
  | nil =>
    have htail : tail.head?.any Char.isDigit = false := by
      rcases ht.eq_nil_or with rfl | ⟨cs, rfl⟩ | ⟨cs, rfl⟩ | ⟨cs, rfl⟩ <;> rfl
    cases back with
    | nil => simp [numeralAhead, htail]
    | cons d back =>
      by_cases hc : c.isDigit = true
      · simp [numeralAhead, hc]
      by_cases hd : d.isDigit = true
      · -- a sign and the digit behind it would not be within one character
        by_cases hsign : c = '-' ∨ c = '+'
        · have hlong : ¬(numeral ([c] ++ d :: back)).length ≤ [c].length := by
            rcases hsign with rfl | rfl <;> simp [numeral, sign, digits, hd]
          have hahead := mt h hlong
          rw [Bool.not_eq_true] at hahead
          rw [hahead]
          simp [numeralAhead, hc, htail]
        · rw [not_or] at hsign
          simp [numeralAhead, hc, hsign, htail]
      · simp [numeralAhead, hc, hd, htail]

theorem fixed?_cut (ht : Stops tail) (hf : fixed? (kept ++ back) = some (kind, n))
    (hn : n ≤ kept.length) : fixed? (kept ++ tail) = some (kind, n) := by
  have hpos := length_pos_of_fixed? hf
  have hne : kept ≠ [] := List.length_pos_iff.mp (by omega)
  unfold fixed? at hf
  split at hf <;> simp only [Option.some.injEq, Prod.mk.injEq, reduceCtorEq] at hf <;>
    obtain ⟨rfl, rfl⟩ := hf
  all_goals
    rename_i hcs
    obtain ⟨c, kept, rfl⟩ := List.exists_cons_of_ne_nil hne
    rw [List.cons_append, List.cons.injEq] at hcs
    obtain ⟨rfl, hcs⟩ := hcs
  case h_11 =>
    obtain ⟨d, kept, rfl⟩ : ∃ d ks, kept = d :: ks := List.exists_cons_of_ne_nil (by
      rintro rfl
      simp at hn)
    obtain ⟨e, kept, rfl⟩ : ∃ e ks, kept = e :: ks := List.exists_cons_of_ne_nil (by
      rintro rfl
      simp at hn)
    simp only [List.cons_append, List.cons.injEq] at hcs
    obtain ⟨rfl, rfl, -⟩ := hcs
    rfl
  case h_13 | h_14 | h_16 | h_17 | h_18 | h_19 | h_20 =>
    obtain ⟨d, kept, rfl⟩ : ∃ d ks, kept = d :: ks := List.exists_cons_of_ne_nil (by
      rintro rfl
      simp at hn)
    rw [List.cons_append, List.cons.injEq] at hcs
    obtain ⟨rfl, -⟩ := hcs
    rfl
  case h_12 hdots =>
    match kept, hcs with
    | [], _ => rcases ht.eq_nil_or with rfl | ⟨cs, rfl⟩ | ⟨cs, rfl⟩ | ⟨cs, rfl⟩ <;> rfl
    | [d], _ =>
      by_cases hd : d = '.' <;>
        rcases ht.eq_nil_or with rfl | ⟨cs, rfl⟩ | ⟨cs, rfl⟩ | ⟨cs, rfl⟩ <;> simp [fixed?, hd]
    | d :: e :: kept, hcs =>
      by_cases hd : d = '.'
      · subst hd
        have he : e ≠ '.' := fun he => hdots (kept ++ back) (by rw [← hcs, he]; rfl)
        simp [fixed?, he]
      · simp [fixed?, hd]
  case h_15 heq harrow =>
    cases kept with
    | nil => rcases ht.eq_nil_or with rfl | ⟨cs, rfl⟩ | ⟨cs, rfl⟩ | ⟨cs, rfl⟩ <;> rfl
    | cons d kept =>
      have hd : d ≠ '=' := fun hd => heq (kept ++ back) (by rw [← hcs, hd]; rfl)
      have hd' : d ≠ '>' := fun hd => harrow (kept ++ back) (by rw [← hcs, hd]; rfl)
      simp [fixed?, hd, hd']
  case h_21 heq | h_22 heq | h_23 heq =>
    cases kept with
    | nil => rcases ht.eq_nil_or with rfl | ⟨cs, rfl⟩ | ⟨cs, rfl⟩ | ⟨cs, rfl⟩ <;> rfl
    | cons d kept =>
      have hd : d ≠ '=' := fun hd => heq (kept ++ back) (by rw [← hcs, hd]; rfl)
      simp [fixed?, hd]
  all_goals rfl

end Lexeme

/-! ## Heredocs -/

namespace Heredoc

open Lexeme

variable {o : Opening}

/-- Up to the first line break a text is the same whatever follows. -/
theorem takeWhile_append_of_mem {p : Char → Bool} (hp : p '\n' = false) (h : '\n' ∈ kept)
    (back : List Char) : (kept ++ back).takeWhile p = kept.takeWhile p := by
  rw [List.takeWhile_append, if_neg]
  intro hall
  have heq := List.IsPrefix.eq_of_length (List.takeWhile_prefix p) hall
  rw [← heq] at h
  exact Bool.false_ne_true (hp.symm.trans (List.all_eq_true.mp List.all_takeWhile _ h))

theorem line_append_of_mem (h : '\n' ∈ kept) (back : List Char) :
    line (kept ++ back) = line kept := by
  simp only [line, takeWhile_append_of_mem (p := (· != '\n')) rfl h]

theorem closes_append_of_mem (h : '\n' ∈ kept) (back : List Char) :
    o.closes (kept ++ back) = o.closes kept := by
  simp only [Opening.closes, line_append_of_mem h]

/-- The marker is what the closing line ends with. -/
theorem getLast?_of_closes {cs : List Char} (hm : o.marker ≠ []) (h : o.closes cs = true) :
    (line cs).getLast? = o.marker.getLast? := by
  rw [Opening.closes, beq_iff_eq] at h
  split at h
  · have hsuffix : o.marker <:+ line cs := h ▸ List.dropWhile_suffix _
    obtain ⟨front, hfront⟩ := hsuffix
    rw [← hfront, List.getLast?_append, List.getLast?_eq_some_getLast hm]
    rfl
  · rw [h]

theorem length_line_pos {cs : List Char} (hm : o.marker ≠ []) (h : o.closes cs = true) :
    0 < (line cs).length := by
  rw [List.length_pos_iff]
  intro hnil
  have hlast := getLast?_of_closes hm h
  rw [hnil, List.getLast?_eq_some_getLast hm] at hlast
  cases hlast

/-- The closing line has its end in what is kept, or what is put behind that begins with one. -/
def LineKept (kept tail : List Char) : Prop := '\n' ∈ kept ∨ ∀ c ∈ tail.head?, c = '\n'

theorem line_cut (hm : o.marker ≠ []) (hr : '\r' ∉ o.marker) (ht : LineKept kept tail)
    (h : o.closes (kept ++ back) = true) (hle : (line (kept ++ back)).length ≤ kept.length) :
    line (kept ++ tail) = line (kept ++ back) := by
  by_cases hmem : '\n' ∈ kept
  · rw [line_append_of_mem hmem, line_append_of_mem hmem]
  have hall : ∀ cs : List Char, (kept ++ cs).takeWhile (· != '\n') =
      kept ++ cs.takeWhile (· != '\n') := fun cs => by
    rw [List.takeWhile_append_of_pos]
    intro c hc
    simpa using ne_of_mem_of_not_mem hc hmem
  have htail : tail.takeWhile (· != '\n') = [] := by
    cases tail with
    | nil => rfl
    | cons c cs =>
      obtain rfl := ht.resolve_left hmem c rfl
      rfl
  by_cases hback : back.takeWhile (· != '\n') = []
  · simp only [line, hall, htail, hback]
  -- only the carriage return in front of the line break stands behind `kept`
  have hline : line (kept ++ back) = kept := by
    have hpos := List.length_pos_iff.mpr hback
    have hlength : kept.length ≤ (line (kept ++ back)).length := by
      simp only [line, hall]
      split <;> simp only [List.length_dropLast, List.length_append] <;> omega
    have hprefix :=
      List.prefix_of_prefix_length_le (inline_line.front _) (List.prefix_append kept back) hle
    exact hprefix.eq_of_length (Nat.le_antisymm hle hlength)
  have hlast : kept.getLast? ≠ some '\r' := by
    rw [← hline, getLast?_of_closes hm h]
    exact fun hlast => hr (List.mem_of_getLast? hlast)
  rw [hline]
  simp only [line, hall, htail, List.append_nil, hlast, if_false]

theorem closes_cut (hm : o.marker ≠ []) (hr : '\r' ∉ o.marker) (ht : LineKept kept tail)
    (h : o.closes (kept ++ back) = true) (hle : (line (kept ++ back)).length ≤ kept.length) :
    o.closes (kept ++ tail) = true := by
  rw [Opening.closes, line_cut hm hr ht h hle]
  exact h

theorem return_notMem_marker {cs : List Char} (h : opening? cs = some o) : '\r' ∉ o.marker := by
  obtain ⟨dash, body, -, -, hmarker, -⟩ := exists_of_opening? h
  intro hmem
  rw [hmarker] at hmem
  exact absurd (List.all_eq_true.mp List.all_takeWhile _ hmem) (by decide)

theorem opening?_append_of_mem (h : '\n' ∈ kept) (back tail : List Char) :
    opening? (kept ++ back) = opening? (kept ++ tail) := by
  obtain ⟨front, kept, rfl⟩ := List.append_of_mem h
  have hl : LineEnded (front ++ ['\n']) := by simp [LineEnded]
  have hopening := opening?_append hl (by simp)
  have hsplit : ∀ more, front ++ '\n' :: kept ++ more = front ++ ['\n'] ++ (kept ++ more) := by simp
  rw [hsplit, hopening, hsplit, hopening]

/-- A heredoc opens with the first letter of its marker in view. -/
theorem opening?_eq_none_iff {cs : List Char} : opening? ('<' :: '<' :: cs) = none ↔
    (cs.drop (if cs.head? = some '-' then 1 else 0)).head?.any Text.isIdentStart = false := by
  simp [opening?]

theorem opening?_cut_eq_none (ht : Stops tail) (h : opening? (kept ++ back) = none) :
    opening? (kept ++ tail) = none := by
  by_cases hopens : ∃ ks, kept = '<' :: '<' :: ks
  · obtain ⟨ks, rfl⟩ := hopens
    simp only [List.cons_append, opening?_eq_none_iff] at h ⊢
    cases ks with
    | nil => rcases ht.eq_nil_or with rfl | ⟨cs, rfl⟩ | ⟨cs, rfl⟩ | ⟨cs, rfl⟩ <;> rfl
    | cons c ks =>
      by_cases hc : c = '-'
      · subst hc
        cases ks with
        | nil => rcases ht.eq_nil_or with rfl | ⟨cs, rfl⟩ | ⟨cs, rfl⟩ | ⟨cs, rfl⟩ <;> rfl
        | cons d ks => exact h
      · simpa [hc] using h
  · unfold opening?
    split
    · rename_i ds hds
      match kept, hds with
      | [], hds | [a], hds => rcases ht.eq_nil_or with rfl | ⟨cs, rfl⟩ | ⟨cs, rfl⟩ | ⟨cs, rfl⟩ <;> simp at hds
      | a :: b :: ks, hds =>
        simp only [List.cons_append, List.cons.injEq] at hds
        obtain ⟨rfl, rfl, -⟩ := hds
        exact absurd ⟨ks, rfl⟩ hopens
    · rfl

end Heredoc

/-! ## Pieces -/

namespace Piece

variable {c : Char}

/-- How many characters of a literal belong to the piece; of a template sequence, its marker. -/
def length : Piece → Nat
  | .text _ n => n
  | template => 2
  | quote => 1
  | invalid _ | loneBackslash | lineEnd => 0

theorem marker_cut (ht : Stops tail) (hc : c = '$' ∨ c = '%')
    (h : (marker c (kept ++ back)).length ≤ kept.length + 1) :
    marker c (kept ++ tail) = marker c (kept ++ back) := by
  match kept with
  | d :: e :: kept => simp [marker]
  | [] =>
    simp only [List.nil_append, marker] at h ⊢
    split at h
    · simp [length] at h
    split at h
    · simp [length] at h
    · rcases hc with rfl | rfl <;>
        rcases ht.eq_nil_or with rfl | ⟨cs, rfl⟩ | ⟨cs, rfl⟩ | ⟨cs, rfl⟩ <;> simp_all
  | [d] =>
    have htail : tail.take 1 ≠ ['{'] := by
      rcases ht.eq_nil_or with rfl | ⟨cs, rfl⟩ | ⟨cs, rfl⟩ | ⟨cs, rfl⟩ <;> simp
    simp only [List.cons_append, List.nil_append, marker] at h ⊢
    split at h
    · simp [length] at h
    · simp_all

theorem codePoint_cut {m : Char} {count : Nat} {decoded : List Char}
    (h : codePoint m count (kept ++ back) = .text decoded n) (hn : n ≤ kept.length + 2) :
    codePoint m count (kept ++ tail) = .text decoded n := by
  have hcount : count ≤ kept.length := by
    have hlength : n = 2 + count := by
      simp only [codePoint] at h
      split at h
      · simp only [Piece.text.injEq] at h
        exact h.2.symm
      · cases h
    omega
  rw [codePoint, List.take_append_of_le_length hcount] at h ⊢
  exact h

/-- Only a code point is written with more than the character behind the backslash. -/
theorem escape_cons (hu : c ≠ 'u') (hU : c ≠ 'U') (as bs : List Char) :
    escape (c :: as) = escape (c :: bs) := by
  unfold escape
  split <;> simp_all

theorem two_le_of_escape {cs decoded : List Char} (h : escape cs = .text decoded n) : 2 ≤ n := by
  unfold escape at h
  split at h
  case h_7 | h_8 =>
    simp only [codePoint] at h
    split at h
    · simp only [Piece.text.injEq] at h
      omega
    · cases h
  all_goals simp only [Piece.text.injEq, reduceCtorEq] at h
  all_goals omega

theorem escape_cut {decoded : List Char} (h : escape (kept ++ back) = .text decoded n)
    (hn : n ≤ kept.length + 1) : escape (kept ++ tail) = .text decoded n := by
  have htwo := two_le_of_escape h
  have hpos : 0 < kept.length := by omega
  obtain ⟨d, kept, rfl⟩ := List.exists_cons_of_ne_nil (List.length_pos_iff.mp hpos)
  simp only [List.cons_append, List.length_cons] at *
  by_cases hu : d = 'u'
  · subst hu
    exact codePoint_cut h hn
  by_cases hU : d = 'U'
  · subst hU
    exact codePoint_cut h hn
  · rw [escape_cons hu hU _ (kept ++ back), h]

theorem length_pos_of_isPart {cs : List Char} (h : (ofQuoted cs).IsPart) :
    0 < (ofQuoted cs).length := by
  cases hp : ofQuoted cs with
  | text decoded n => exact (length_pos_of_ofQuoted hp).1
  | template | quote => exact Nat.succ_pos _
  | invalid _ | loneBackslash | lineEnd =>
    rw [hp] at h
    exact h.elim

theorem ofQuoted_cut {piece : Piece} (ht : Stops tail) (hp : ofQuoted (kept ++ back) = piece)
    (h : piece.IsPart) (hn : piece.length ≤ kept.length) : ofQuoted (kept ++ tail) = piece := by
  subst hp
  have hpos := length_pos_of_isPart h
  obtain ⟨c, kept, rfl⟩ := List.exists_cons_of_ne_nil
    (List.length_pos_iff.mp (Nat.lt_of_lt_of_le hpos hn))
  simp only [List.cons_append, ofQuoted] at h hn ⊢
  split
  · rfl
  rename_i hc
  split
  · rfl
  rename_i hq
  rw [if_neg hc, if_neg hq] at h hn
  split
  · rename_i hb
    rw [if_pos hb] at h hn
    obtain ⟨decoded, n, he⟩ := exists_text_of_escape h
    rw [he] at hn ⊢
    exact escape_cut he hn
  rename_i hb
  rw [if_neg hb] at hn
  split
  · rename_i hm
    rw [if_pos hm] at hn
    exact marker_cut ht hm hn
  · rfl

/-- Behind the piece something must be left: a carriage return in front of a line break is read
otherwise than elsewhere. -/
theorem ofHeredoc_cut {piece : Piece} (ht : Stops tail) (hp : ofHeredoc (kept ++ back) = piece)
    (h : 0 < piece.length) (hn : piece.length < kept.length) :
    ofHeredoc (kept ++ tail) = piece := by
  subst hp
  match kept, h, hn with
  | [], _, hn => simp at hn
  | [c], h, hn =>
    simp only [List.length_singleton] at hn
    omega
  | c :: d :: kept, _, hn =>
    have hcut : ∀ more, ¬(c = '\r' ∧ d = '\n') → ofHeredoc (c :: d :: (kept ++ more)) =
        if c = '$' ∨ c = '%' then marker c (d :: (kept ++ more)) else .text [c] 1 :=
      fun more hr => by simp [ofHeredoc, hr]
    by_cases hr : c = '\r' ∧ d = '\n'
    · simp [ofHeredoc, hr]
    simp only [List.cons_append, hcut _ hr] at hn ⊢
    split
    · rename_i hm
      rw [if_pos hm] at hn
      exact @marker_cut (d :: kept) back tail c ht hm (Nat.le_of_lt hn)
    · rfl

theorem newline_mem_of_ofHeredoc {cs : List Char} (h : ofHeredoc cs = .text ['\n'] n) :
    '\n' ∈ cs.take n := by
  cases cs with
  | nil => cases h
  | cons c cs =>
    simp only [ofHeredoc] at h
    split at h
    · simp at h
    split at h
    · unfold marker at h
      split at h
      · simp at h
      split at h
      · cases h
      · simp_all
    · obtain ⟨hc, rfl⟩ := Piece.text.inj h
      simpa using hc.symm

end Piece

end Hcl
