import Hcl.Span

/-!
# Carriage returns in front of line breaks

A line ends with a line break, or with a carriage return and a line break. A text of the first form
has one of the second form. Texts that differ in some of their line ends only are related likewise.
-/

namespace Hcl.Text

/-- The text with a carriage return in front of every line break. -/
def withReturns : List Char → List Char
  | [] => []
  | c :: cs => if c = '\n' then '\r' :: '\n' :: withReturns cs else c :: withReturns cs

/-- The same when what stands in front of the text ends with a carriage return. -/
def afterReturn : List Char → List Char
  | [] => []
  | c :: cs => c :: withReturns cs

variable {as bs cs cs' ds : List Char} {c d : Char} {n : Nat}

@[simp] theorem withReturns_nil : withReturns [] = [] := rfl

@[simp] theorem withReturns_newline (cs : List Char) :
    withReturns ('\n' :: cs) = '\r' :: '\n' :: withReturns cs := rfl

theorem withReturns_cons (hc : c ≠ '\n') (cs : List Char) :
    withReturns (c :: cs) = c :: withReturns cs := if_neg hc

theorem withReturns_append (as bs : List Char) :
    withReturns (as ++ bs) = withReturns as ++ withReturns bs := by
  induction as with
  | nil => rfl
  | cons c as ih =>
    by_cases hc : c = '\n'
    · subst hc
      simp [ih]
    · simp [withReturns_cons hc, ih]

theorem withReturns_of_notMem (h : '\n' ∉ cs) : withReturns cs = cs := by
  induction cs with
  | nil => rfl
  | cons c cs ih =>
    rw [List.mem_cons, not_or] at h
    rw [withReturns_cons (Ne.symm h.1), ih h.2]

/-- The second form has as many line breaks. -/
theorem count_withReturns (cs : List Char) : (withReturns cs).count '\n' = cs.count '\n' := by
  induction cs with
  | nil => rfl
  | cons c cs ih =>
    by_cases hc : c = '\n'
    · subst hc
      simp [ih]
    · rw [withReturns_cons hc, List.count_cons_of_ne hc, List.count_cons_of_ne hc, ih]

theorem count_afterReturn (cs : List Char) : (afterReturn cs).count '\n' = cs.count '\n' := by
  cases cs with
  | nil => rfl
  | cons c cs => simp only [afterReturn, List.count_cons, count_withReturns]

theorem take_withReturns (h : '\n' ∉ cs.take n) : (withReturns cs).take n = cs.take n := by
  induction n generalizing cs with
  | zero => rfl
  | succ n ih =>
    cases cs with
    | nil => rfl
    | cons c cs =>
      rw [List.take_succ_cons, List.mem_cons, not_or] at h
      rw [withReturns_cons (Ne.symm h.1), List.take_succ_cons, List.take_succ_cons, ih h.2]

theorem drop_withReturns (h : '\n' ∉ cs.take n) :
    (withReturns cs).drop n = withReturns (cs.drop n) := by
  induction n generalizing cs with
  | zero => rfl
  | succ n ih =>
    cases cs with
    | nil => rfl
    | cons c cs =>
      rw [List.take_succ_cons, List.mem_cons, not_or] at h
      rw [withReturns_cons (Ne.symm h.1), List.drop_succ_cons, List.drop_succ_cons, ih h.2]

/-- What the second form begins with, the first form begins with. -/
theorem exists_of_withReturns (hd : d ≠ '\r') (h : withReturns cs = d :: ds) :
    ∃ es, cs = d :: es ∧ ds = withReturns es := by
  cases cs with
  | nil => cases h
  | cons c cs =>
    by_cases hc : c = '\n'
    · subst hc
      exact absurd (List.cons.inj h).1.symm hd
    · rw [withReturns_cons hc, List.cons.injEq] at h
      obtain ⟨rfl, rfl⟩ := h
      exact ⟨cs, rfl, rfl⟩

/-! ## Texts with other line ends -/

/-- Some line breaks have a carriage return in front of them that they did not have. -/
inductive AddsReturns : List Char → List Char → Prop where
  | nil : AddsReturns [] []
  | cons (c : Char) {cs cs' : List Char} : AddsReturns cs cs' → AddsReturns (c :: cs) (c :: cs')
  | newline {cs cs' : List Char} : AddsReturns cs cs' → AddsReturns ('\n' :: cs) ('\r' :: '\n' :: cs')

namespace AddsReturns

variable {as' bs' : List Char}

theorem refl (cs : List Char) : AddsReturns cs cs := by
  induction cs with
  | nil => exact .nil
  | cons c cs ih => exact .cons c ih

theorem append (h : AddsReturns as as') (h' : AddsReturns bs bs') :
    AddsReturns (as ++ bs) (as' ++ bs') := by
  induction h with
  | nil => exact h'
  | cons c _ ih => exact .cons c ih
  | newline _ ih => exact .newline ih

theorem withReturns (cs : List Char) : AddsReturns cs (withReturns cs) := by
  induction cs with
  | nil => exact .nil
  | cons c cs ih =>
    by_cases hc : c = '\n'
    · subst hc
      exact .newline ih
    · rw [withReturns_cons hc]
      exact .cons c ih

/-- Without carriage returns they are equal. -/
theorem filter_eq (h : AddsReturns cs cs') :
    cs'.filter (· != '\r') = cs.filter (· != '\r') := by
  induction h with
  | nil => rfl
  | cons c _ ih => rw [List.filter_cons, List.filter_cons, ih]
  | newline _ ih => simpa using ih

end AddsReturns

end Hcl.Text
