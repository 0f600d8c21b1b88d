import Hcl.Binary64.Decimal
import Hcl.Proofs.Lexer.Lines
import Hcl.Proofs.Lexer.Reads

/-!
# Numerals are numbers

The text of a numeral is a sign, digits, a fraction and an exponent. Such a text is the text of a
number, and no number that is read from decimal digits is above infinity.
-/

namespace Hcl

/-! ## Magnitudes -/

namespace Binary64

theorem magnitude_ofMagnitude (negative : Bool) {m : Nat} (h : m < magnitudes) :
    (ofMagnitude negative m).magnitude = m := by
  have hbits : (ofMagnitude negative m).bits.toNat = if negative then magnitudes + m else m := by
    rw [ofMagnitude, UInt64.toNat_ofNat']
    refine Nat.mod_eq_of_lt ?_
    simp only [magnitudes] at h ⊢
    split <;> omega
  rw [magnitude, hbits]
  cases negative with
  | true => rw [if_pos rfl, Nat.add_mod_left, Nat.mod_eq_of_lt h]
  | false => rw [if_neg Bool.false_ne_true, Nat.mod_eq_of_lt h]

theorem isNaN_ofMagnitude (negative : Bool) {m : Nat} (h : m ≤ infinity) :
    (ofMagnitude negative m).isNaN = false := by
  have hlt : m < magnitudes := Nat.lt_of_le_of_lt h (by decide)
  rw [isNaN, magnitude_ofMagnitude negative hlt]
  simpa using h

/-- The text of a number. -/
def IsText (text : String) : Prop := ∃ x, parse text = .ok x ∧ x.isNaN = false

theorem magnitudeOfRatio_le (num den : Nat) : magnitudeOfRatio num den ≤ infinity := by
  rw [magnitudeOfRatio]
  split
  · exact Nat.zero_le _
  · exact Nat.min_le_right _ _

end Binary64

namespace Decimal

theorem isNaN_toBinary64 (d : Decimal) : d.toBinary64.isNaN = false := by
  refine Binary64.isNaN_ofMagnitude d.negative ?_
  split
  · exact Nat.zero_le _
  split
  · exact Nat.le_refl _
  split
  · exact Nat.zero_le _
  split
  · exact Binary64.magnitudeOfRatio_le _ _
  · exact Binary64.magnitudeOfRatio_le _ _

end Decimal

/-! ## The parts of a numeral -/

namespace Lexeme

variable {cs ds rest : List Char}

/-- One or more decimal digits. -/
structure IsDigits (ds : List Char) : Prop where
  ne_nil : ds ≠ []
  isDigit : ∀ d ∈ ds, d.isDigit = true

theorem isDigits_digits (h : digits cs ≠ []) : IsDigits (digits cs) :=
  ⟨h, List.all_eq_true.mp List.all_takeWhile⟩

theorem IsDigits.exists_cons (h : IsDigits ds) : ∃ d more, ds = d :: more ∧ d.isDigit = true := by
  cases ds with
  | nil => exact absurd rfl h.ne_nil
  | cons d more => exact ⟨d, more, rfl, h.isDigit d List.mem_cons_self⟩

theorem splitSign_of_isDigit {d : Char} (h : d.isDigit = true) (cs : List Char) :
    Decimal.splitSign (d :: cs) = (false, d :: cs) := by
  unfold Decimal.splitSign
  split
  · rename_i heq
    cases heq
    cases h
  · rename_i heq
    cases heq
    cases h
  · rfl

/-- The sign of a numeral is split off from its digits. -/
theorem exists_splitSign (cs : List Char) (h : IsDigits ds) (rest : List Char) :
    ∃ negative, Decimal.splitSign (sign cs ++ (ds ++ rest)) = (negative, ds ++ rest) := by
  obtain ⟨d, more, rfl, hd⟩ := h.exists_cons
  unfold sign
  split
  · exact ⟨true, rfl⟩
  · exact ⟨false, rfl⟩
  · exact ⟨false, splitSign_of_isDigit hd (more ++ rest)⟩

/-- Behind characters of a class the reading of them stops where one of another class stands. -/
theorem takeWhile_append {p : Char → Bool} (h : ∀ c ∈ cs, p c = true)
    (hrest : ∀ c ∈ rest.head?, p c = false) :
    (cs ++ rest).takeWhile p = cs ∧ (cs ++ rest).dropWhile p = rest := by
  rw [List.takeWhile_append_of_pos h, List.dropWhile_append_of_pos h]
  cases rest with
  | nil => simp
  | cons c cs => simp [hrest c rfl]

/-! ## Exponents and fractions -/

/-- Neither a fraction nor more digits stand where an exponent does. -/
theorem of_head?_exponent : ∀ c ∈ (exponent cs).head?, c.isDigit = false ∧ c ≠ '.' := by
  intro c hc
  cases cs with
  | nil => cases hc
  | cons e cs =>
    rw [exponent] at hc
    split at hc
    · rename_i h
      obtain rfl : e = c := Option.some.inj hc
      simp only [Bool.and_eq_true, Bool.or_eq_true, beq_iff_eq] at h
      rcases h.1 with rfl | rfl <;> decide
    · cases hc

theorem fraction_cases (cs : List Char) :
    fraction cs = [] ∨ ∃ ds, IsDigits ds ∧ fraction cs = '.' :: ds := by
  unfold fraction
  split
  · split
    · exact .inl rfl
    · rename_i h
      exact .inr ⟨_, isDigits_digits fun hnil => h (by rw [hnil]; rfl), rfl⟩
  · exact .inl rfl

theorem isDigit_of_head?_fraction (cs rest : List Char) :
    ∀ c ∈ (fraction cs ++ exponent rest).head?, c.isDigit = false := by
  rcases fraction_cases cs with h | ⟨ds, -, h⟩
  · rw [h]
    exact fun c hc => (of_head?_exponent c hc).1
  · rw [h]
    rintro c ⟨rfl⟩
    rfl

/-- An exponent is what is left behind a fraction. -/
theorem behind_fraction (cs rest : List Char) :
    (if (fraction cs ++ exponent rest).head? = some '.' then
      (fraction cs ++ exponent rest).tail.dropWhile Char.isDigit
      else fraction cs ++ exponent rest) = exponent rest := by
  rcases fraction_cases cs with h | ⟨ds, hds, h⟩
  · rw [h, List.nil_append]
    exact if_neg fun hpoint => (of_head?_exponent _ hpoint).2 rfl
  · rw [h]
    exact (if_pos rfl).trans
      (takeWhile_append hds.isDigit fun c hc => (of_head?_exponent c hc).1).2

theorem exists_exponent?_exponent (cs : List Char) :
    ∃ n, Decimal.exponent? (exponent cs) = some n := by
  cases cs with
  | nil => exact ⟨0, rfl⟩
  | cons e cs =>
    rw [exponent]
    split
    · rename_i h
      simp only [Bool.and_eq_true, Bool.not_eq_true', List.isEmpty_eq_false_iff] at h
      have hdigits := isDigits_digits h.2
      obtain ⟨negative, hsplit⟩ := exists_splitSign cs hdigits []
      rw [List.append_nil] at hsplit
      have hall := List.all_eq_true.mpr hdigits.isDigit
      have hne := List.isEmpty_eq_false_iff.mpr hdigits.ne_nil
      simp only [Decimal.exponent?, hsplit, h.1, hall, hne, Bool.not_false, Bool.and_true, if_true,
        Option.some.injEq, exists_eq']
    · exact ⟨0, rfl⟩

/-- The text of an unsigned numeral has a decimal value. -/
theorem exists_ofDigits? (negative : Bool) (h : IsDigits ds) (cs rest : List Char) :
    ∃ d, Decimal.ofDigits? negative (ds ++ (fraction cs ++ exponent rest)) = some d := by
  obtain ⟨htake, hdrop⟩ := takeWhile_append h.isDigit (isDigit_of_head?_fraction cs rest)
  have hne : ds.isEmpty = false := List.isEmpty_eq_false_iff.mpr h.ne_nil
  obtain ⟨n, hn⟩ := exists_exponent?_exponent rest
  simp only [Decimal.ofDigits?, htake, hdrop, behind_fraction, hne, hn, Bool.false_and, if_false,
    Bool.false_eq_true, Option.map_some, Option.some.injEq, exists_eq']

/-! ## The text of a numeral -/

theorem toLower_of_isDigit {c : Char} (h : c.isDigit = true) : c.toLower = c := by
  have hhigh : c.toNat ≤ 57 := (Char.isDigit_iff_toNat.mp h).2
  refine dif_neg fun hupper => ?_
  have hlow : 65 ≤ c.toNat := hupper.1
  omega

theorem isDigits_of_numeralAhead {signAllowed : Bool} (h : numeralAhead signAllowed cs = true) :
    IsDigits (digits (cs.drop (sign cs).length)) := by
  refine isDigits_digits ?_
  cases cs with
  | nil => simp [numeralAhead] at h
  | cons c cs =>
    by_cases hc : c.isDigit = true
    · have hs : sign (c :: cs) = [] := by
        unfold sign
        split <;> simp_all
      simp [hs, digits, hc]
    · simp only [numeralAhead, hc, Bool.false_or, Bool.and_eq_true, Bool.or_eq_true,
        beq_iff_eq] at h
      obtain ⟨⟨-, hsign⟩, hdigit⟩ := h
      cases cs with
      | nil => simp at hdigit
      | cons d cs =>
        have hd : d.isDigit = true := by simpa using hdigit
        rcases hsign with rfl | rfl <;> simp [sign, digits, hd]

/-- A numeral is the text of a number. -/
theorem isText_numeral {signAllowed : Bool} (h : numeralAhead signAllowed cs = true) :
    Binary64.IsText (String.ofList (numeral cs)) := by
  have hdigits := isDigits_of_numeralAhead h
  generalize hwhole : digits (cs.drop (sign cs).length) = whole at hdigits
  have hnumeral : numeral cs = sign cs ++ (whole ++
      (fraction (cs.drop ((sign cs).length + whole.length)) ++
        exponent (cs.drop ((sign cs).length + whole.length +
          (fraction (cs.drop ((sign cs).length + whole.length))).length)))) := by
    simp only [numeral, hwhole, List.append_assoc]
  generalize cs.drop ((sign cs).length + whole.length) = point at hnumeral
  generalize cs.drop ((sign cs).length + whole.length + (fraction point).length) = power at hnumeral
  obtain ⟨negative, hsplit⟩ := exists_splitSign cs hdigits (fraction point ++ exponent power)
  obtain ⟨d, hd⟩ := exists_ofDigits? negative hdigits point power
  obtain ⟨c, more, hcons, hc⟩ := hdigits.exists_cons
  have hne : (String.ofList (numeral cs)).isEmpty = false := by
    rw [hnumeral, hcons]
    simp [String.isEmpty_eq_false_iff]
  -- a numeral is no word, for a digit stands behind its sign
  have hnan : String.ofList ((whole ++ (fraction point ++ exponent power)).map Char.toLower) ≠
      "nan" := by
    rw [hcons]
    intro hword
    have hlower : c.toLower = 'n' := by
      have hchars := congrArg String.toList hword
      rw [String.toList_ofList] at hchars
      exact (List.cons.inj hchars).1
    rw [toLower_of_isDigit hc] at hlower
    rw [hlower] at hc
    cases hc
  rw [Binary64.IsText, Binary64.parse, if_neg (by rw [hne]; exact Bool.false_ne_true), String.toList_ofList,
    hnumeral, hsplit]
  simp only [hnan, if_false, hd]
  split
  · exact ⟨_, rfl, Binary64.isNaN_ofMagnitude negative (Nat.le_refl _)⟩
  · exact ⟨_, rfl, d.isNaN_toBinary64⟩

end Lexeme

/-! ## Tokens -/

/-- If the token stands for a number, its text is the text of one. -/
def Token.Numeric (t : Token) : Prop := t.kind = .number → Binary64.IsText t.text

theorem Token.numeric_of_ne {t : Token} (h : t.kind ≠ .number) : t.Numeric := fun hk => absurd hk h

namespace Lexer

variable {lx next : Lexer} {template : TemplateReader} {t : Token}

theorem numeric_of_tokenAt {c : Char} (h : lx.tokenAt template c = .ok t next) : t.Numeric := by
  simp only [tokenAt] at h
  split at h
  · exact Token.numeric_of_ne (by simp [kind_of_quotedToken h])
  split at h
  · exact Token.numeric_of_ne (by simp [kind_of_heredocToken h])
  split at h
  · rename_i hnumeral
    simp only [plainToken, finish, Scan.ok.injEq] at h
    obtain ⟨rfl, -⟩ := h
    intro _
    rw [Lexeme.inline_numeral.take]
    exact Lexeme.isText_numeral hnumeral
  split at h
  · have hk := (rest_of_finish h).2
    refine Token.numeric_of_ne fun hnumber => ?_
    have hword := kind_of_wordKind (Lexeme.word lx.rest)
    rw [← hk, hnumber] at hword
    simp at hword
  split at h
  · rename_i hfixed
    exact Token.numeric_of_ne (by rw [(rest_of_finish h).2]; exact (not_literal_of_fixed? hfixed).2.2)
  · cases h

theorem numeric_of_next (h : lx.next = .ok t next) : t.Numeric := by
  simp only [Lexer.next, token] at h
  split at h
  · cases h
  split at h
  · exact Token.numeric_of_ne (by simp [(rest_of_finish h).2])
  · exact numeric_of_tokenAt h

theorem numeric_of_mem_stream (lx : Lexer) : ∀ t ∈ lx.stream.tokens, t.Numeric := by
  fun_induction Lexer.stream lx with
  | case1 | case2 => simp
  | case3 lx t next hn hk more =>
    rename_i ih
    intro u hu
    rcases List.mem_cons.mp hu with rfl | hmem
    · exact numeric_of_next hn
    · exact ih u hmem

end Lexer

end Hcl
