import Hcl.Proofs.Lexer.Numerals

/-!
# Numerals are as long as they can be

What a numeral is, apart from how one is read: a sign or none, digits, a fraction or none and an
exponent or none. Of all numerals that a text begins with, the longest is read.
-/

namespace Hcl.Lexeme

variable {cs ds more f e : List Char}

/-! ## What a numeral is -/

inductive IsSign : List Char → Prop where
  | none : IsSign []
  | minus : IsSign ['-']
  | plus : IsSign ['+']

inductive IsFraction : List Char → Prop where
  | none : IsFraction []
  | some {ds : List Char} : IsDigits ds → IsFraction ('.' :: ds)

inductive IsExponent : List Char → Prop where
  | none : IsExponent []
  | some {e : Char} {s ds : List Char} : e = 'e' ∨ e = 'E' → IsSign s → IsDigits ds →
      IsExponent (e :: (s ++ ds))

inductive IsNumeral : List Char → Prop where
  | mk {s ds f e : List Char} : IsSign s → IsDigits ds → IsFraction f → IsExponent e →
      IsNumeral (s ++ (ds ++ (f ++ e)))

/-- Of the texts that `P` holds of, `text` is the longest one that `cs` begins with. -/
structure IsLongest (P : List Char → Prop) (cs text : List Char) : Prop where
  holds : P text
  front : text <+: cs
  longest : ∀ {other}, P other → other <+: cs → other.length ≤ text.length

/-- Whether a numeral begins here, behind a token of the kind `last`: a digit, or a sign with a
digit behind it, unless the token may end an operand. -/
inductive BeginsNumeral (last : Option TokenKind) : List Char → Prop where
  | digit {d : Char} {cs : List Char} : d.isDigit = true → BeginsNumeral last (d :: cs)
  | sign {c d : Char} {cs : List Char} : c = '-' ∨ c = '+' → d.isDigit = true →
      (∀ kind ∈ last, kind.endsOperand = false) → BeginsNumeral last (c :: d :: cs)

theorem BeginsNumeral.head {last : Option TokenKind} {c : Char}
    (h : BeginsNumeral last (c :: cs)) : c.isDigit = true ∨ c = '-' ∨ c = '+' := by
  cases h with
  | digit hd => exact .inl hd
  | sign hc => exact .inr hc

theorem numeralAhead_iff {last : Option TokenKind} :
    numeralAhead (!last.any TokenKind.endsOperand) cs = true ↔ BeginsNumeral last cs := by
  have hlast : (!last.any TokenKind.endsOperand) = true ↔
      ∀ kind ∈ last, kind.endsOperand = false := by
    cases last <;> simp
  constructor
  · intro h
    cases cs with
    | nil => cases h
    | cons c cs =>
      rw [numeralAhead, Bool.or_eq_true, Bool.and_eq_true, Bool.and_eq_true, hlast] at h
      rcases h with hdigit | ⟨⟨hnone, hc⟩, hdigit⟩
      · exact .digit hdigit
      · cases cs with
        | nil => cases hdigit
        | cons d cs => exact .sign (by simpa using hc) hdigit hnone
  · intro h
    cases h with
    | digit hd => simp [numeralAhead, hd]
    | sign hc hd hnone => simp [numeralAhead, hd, hc, hlast.mpr hnone]

/-! ## The parts that are read -/

theorem isSign_sign (cs : List Char) : IsSign (sign cs) := by
  unfold sign
  split
  · exact .minus
  · exact .plus
  · exact .none

theorem isFraction_fraction (cs : List Char) : IsFraction (fraction cs) := by
  rcases fraction_cases cs with h | ⟨ds, hds, h⟩
  · exact h ▸ .none
  · exact h ▸ .some hds

theorem isExponent_exponent (cs : List Char) : IsExponent (exponent cs) := by
  cases cs with
  | nil => exact .none
  | cons e cs =>
    rw [exponent]
    split
    · rename_i h
      simp only [Bool.and_eq_true, Bool.or_eq_true, beq_iff_eq, Bool.not_eq_true',
        List.isEmpty_eq_false_iff] at h
      exact .some h.1 (isSign_sign cs) (isDigits_digits h.2)
    · exact .none

/-! ## None is longer -/

/-- In front of a digit the sign is the only one there can be. -/
theorem IsSign.eq_sign {s : List Char} (hs : IsSign s) (hds : IsDigits ds)
    (h : s ++ (ds ++ more) <+: cs) : s = sign cs := by
  obtain ⟨d, more', rfl, hd⟩ := hds.exists_cons
  obtain ⟨rest, rfl⟩ := h
  cases hs with
  | none =>
    rw [List.nil_append, List.cons_append, List.cons_append]
    unfold sign
    split <;> simp_all
  | minus | plus => rfl

/-- Digits that are not the last of a numeral are all there are. -/
theorem IsDigits.eq_or_prefix (hds : IsDigits ds) (hmore : ∀ c ∈ more.head?, c.isDigit = false)
    (h : ds ++ more <+: cs) :
    (ds = digits cs ∧ more <+: cs.drop (digits cs).length) ∨ (more = [] ∧ ds <+: digits cs) := by
  obtain ⟨rest, rfl⟩ := h
  cases more with
  | nil =>
    refine .inr ⟨rfl, ?_⟩
    rw [List.append_nil, digits, List.takeWhile_append_of_pos hds.isDigit]
    exact List.prefix_append _ _
  | cons c more =>
    have hrest : ∀ d ∈ (c :: more ++ rest).head?, d.isDigit = false := hmore
    have hdigits : digits (ds ++ (c :: more ++ rest)) = ds :=
      (takeWhile_append hds.isDigit hrest).1
    rw [List.append_assoc, hdigits, List.drop_left]
    exact .inl ⟨rfl, List.prefix_append _ _⟩

theorem IsExponent.length_le (he : IsExponent e) (h : e <+: cs) :
    e.length ≤ (exponent cs).length := by
  cases he with
  | none => exact Nat.zero_le _
  | @some e s ds he hs hds =>
    obtain ⟨rest, rfl⟩ := h
    have hcs : s ++ (ds ++ []) <+: s ++ ds ++ rest := by simp
    have hsign := hs.eq_sign hds hcs
    rw [List.cons_append, exponent, ← hsign, List.append_assoc, List.drop_left]
    have hprefix : ds <+: digits (ds ++ rest) := by
      rw [digits, List.takeWhile_append_of_pos hds.isDigit]
      exact List.prefix_append _ _
    have hne : (digits (ds ++ rest)).isEmpty = false :=
      List.isEmpty_eq_false_iff.mpr fun hnil => hds.ne_nil (by simpa [hnil] using hprefix)
    have hle := hprefix.length_le
    simp only [he, hne, Bool.not_false, Bool.and_true, Bool.or_eq_true, beq_iff_eq, if_true,
      List.length_cons, List.length_append]
    omega

theorem IsExponent.head? (he : IsExponent e) : ∀ c ∈ e.head?, c.isDigit = false ∧ c ≠ '.' := by
  cases he with
  | none => simp
  | some he =>
    rintro c ⟨rfl⟩
    rcases he with rfl | rfl <;> decide

theorem IsFraction.head?_append (hf : IsFraction f) (he : IsExponent e) :
    ∀ c ∈ (f ++ e).head?, c.isDigit = false := by
  cases hf with
  | none => exact fun c hc => (he.head? c hc).1
  | some =>
    rintro c ⟨rfl⟩
    rfl

theorem length_le_of_fraction (hf : IsFraction f) (he : IsExponent e) (h : f ++ e <+: cs) :
    (f ++ e).length ≤ (fraction cs ++ exponent (cs.drop (fraction cs).length)).length := by
  cases hf with
  | none =>
    cases he with
    | none => exact Nat.zero_le _
    | @some c s ds hc hs hds =>
      -- no fraction begins with the letter of an exponent
      have hfraction : fraction cs = [] := by
        obtain ⟨rest, rfl⟩ := h
        rcases hc with rfl | rfl <;> rfl
      rw [hfraction]
      exact (IsExponent.some hc hs hds).length_le h
  | @some ds hds =>
    obtain ⟨c, cs, rfl⟩ : ∃ c cs', cs = c :: cs' := by
      cases cs with
      | nil => simp at h
      | cons c cs => exact ⟨c, cs, rfl⟩
    rw [List.cons_append, List.cons_prefix_cons] at h
    obtain ⟨rfl, h⟩ := h
    have hcase := hds.eq_or_prefix (fun c hc => (he.head? c hc).1) h
    have hne : (digits cs).isEmpty = false := by
      refine List.isEmpty_eq_false_iff.mpr fun hnil => hds.ne_nil ?_
      rcases hcase with ⟨heq, -⟩ | ⟨-, hprefix⟩
      · rw [heq, hnil]
      · simpa [hnil] using hprefix
    simp only [fraction, hne, Bool.false_eq_true, if_false, List.cons_append, List.length_cons,
      List.length_append, List.drop_succ_cons]
    rcases hcase with ⟨rfl, hrest⟩ | ⟨rfl, hprefix⟩
    · have hle := he.length_le hrest
      omega
    · have hle := hprefix.length_le
      simp only [List.length_nil]
      omega

/-- Where a numeral begins, the longest one is read. -/
theorem isLongest_numeral {signAllowed : Bool} (h : numeralAhead signAllowed cs = true) :
    IsLongest IsNumeral cs (numeral cs) where
  holds := by
    have hdigits := isDigits_of_numeralAhead h
    rw [numeral, List.append_assoc, List.append_assoc]
    exact .mk (isSign_sign cs) hdigits (isFraction_fraction _) (isExponent_exponent _)
  front := inline_numeral.front cs
  longest {other} hother hfront := by
    obtain @⟨s, ds, f, e, hs, hds, hf, he⟩ := hother
    have hsign := hs.eq_sign hds hfront
    have hrest : ds ++ (f ++ e) <+: cs.drop (sign cs).length := by
      obtain ⟨rest, hcs⟩ := hfront
      rw [← hsign, ← hcs, List.append_assoc, List.drop_left]
      exact List.prefix_append _ _
    simp only [numeral, hsign, List.length_append, ← List.drop_drop]
    generalize cs.drop (sign cs).length = rest at hrest
    rcases hds.eq_or_prefix (hf.head?_append he) hrest with ⟨rfl, hmore⟩ | ⟨hnil, hprefix⟩
    · have hle := length_le_of_fraction hf he hmore
      simp only [List.length_append] at hle
      omega
    · have hle := hprefix.length_le
      have hlength := congrArg List.length hnil
      simp only [List.length_append, List.length_nil] at hlength
      omega

end Hcl.Lexeme
