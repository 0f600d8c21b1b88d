import Mathlib.Algebra.Ring.Nat
import Hcl.Binary64.Shortest

/-!
# Every number has digits

A point of a grid that is fine enough rounds to a number, and the grids that are looked at get fine
enough. So the shortest digits are found for every finite number that is not zero, and they are not
zero either.
-/

namespace Hcl.Binary64

variable {r : Rounding} {n : Nat} {e : Int}

/-! ## One grid -/

/-- A grid is fine enough if its points are not farther apart than the multiples of the power of two
that the values are measured in. -/
def Rounding.Fits (r : Rounding) (exponent : Int) : Prop :=
  10 ^ exponent.toNat * 2 ^ (-r.power).toNat ≤ 10 ^ (-exponent).toNat * 2 ^ r.power.toNat

/-- Of two points one that fits is taken, and none only if neither does. -/
theorem choice_eq_some {P Q C : Prop} [Decidable P] [Decidable Q] [Decidable C] {below above : Nat}
    (h : (if P ∧ Q then if C then some below else some above
      else if P then some below else if Q then some above else none) = some n) :
    (P ∧ n = below) ∨ n = above := by
  by_cases hP : P <;> by_cases hQ : Q <;> by_cases hC : C <;> simp_all [eq_comm]

theorem exists_choice {P Q C : Prop} [Decidable P] [Decidable Q] [Decidable C] (below above : Nat)
    (h : P) : ∃ n, (if P ∧ Q then if C then some below else some above
      else if P then some below else if Q then some above else none) = some n := by
  by_cases hQ : Q <;> by_cases hC : C <;> simp [h, hQ, hC]

theorem gridPoint?_ne_zero (hlow : 0 < r.low) (h : gridPoint? r e = some n) : n ≠ 0 := by
  have ha : 0 < 10 ^ (-e).toNat <<< r.power.toNat := by
    rw [Nat.shiftLeft_eq]
    exact Nat.mul_pos (Nat.pow_pos (by decide)) (Nat.two_pow_pos _)
  have hpos := Nat.mul_pos hlow ha
  rcases choice_eq_some h with ⟨hfits, hn⟩ | hn
  · -- zero does not fit
    intro hzero
    rw [← hn, hzero, Nat.zero_mul] at hfits
    simp only [Nat.pow_eq] at hfits
    split at hfits <;> omega
  · exact hn ▸ Nat.succ_ne_zero _

theorem exists_gridPoint? (hvalue : r.low < r.value) (h : r.Fits e) :
    ∃ n, gridPoint? r e = some n := by
  refine exists_choice _ _ ?_
  have hb : 0 < 10 ^ e.toNat <<< (-r.power).toNat := by
    rw [Nat.shiftLeft_eq]
    exact Nat.mul_pos (Nat.pow_pos (by decide)) (Nat.two_pow_pos _)
  have hab : 10 ^ e.toNat <<< (-r.power).toNat ≤ 10 ^ (-e).toNat <<< r.power.toNat := by
    rw [Nat.shiftLeft_eq, Nat.shiftLeft_eq]
    exact h
  simp only [Nat.pow_eq]
  generalize 10 ^ (-e).toNat <<< r.power.toNat = a at hab
  generalize 10 ^ e.toNat <<< (-r.power).toNat = b at hab hb
  -- the point below the number is less than a multiple away from it
  have hbelow : r.low * a < r.value * a / b * b := by
    have hmod := Nat.div_add_mod' (r.value * a) b
    have hlt := Nat.mod_lt (r.value * a) hb
    have hle := Nat.mul_le_mul_right a (Nat.succ_le_of_lt hvalue)
    rw [Nat.succ_mul] at hle
    omega
  split <;> omega

/-! ## The grids that are looked at -/

/-- If the last grid has a point, then one that has is found. -/
theorem digits_firstPoint_ne_zero (hlow : 0 < r.low) {fuel : Nat} {exponent : Int}
    (h : ∃ n, gridPoint? r (exponent - fuel) = some n) :
    (firstPoint r (fuel + 1) exponent).digits ≠ 0 := by
  induction fuel generalizing exponent with
  | zero =>
    obtain ⟨n, hn⟩ := h
    rw [Int.natCast_zero, Int.sub_zero] at hn
    simp only [firstPoint, hn]
    exact gridPoint?_ne_zero hlow hn
  | succ fuel ih =>
    rw [firstPoint]
    split
    · exact gridPoint?_ne_zero hlow ‹_›
    · exact ih (by rwa [Int.sub_sub, Int.add_comm 1])

theorem ten_pow_le_two_pow {e p : Nat} (h : 10 * (e + 2) ≤ 3 * p) : 10 ^ e ≤ 2 ^ p :=
  calc 10 ^ e ≤ 10 ^ (3 * ((e + 2) / 3)) := Nat.pow_le_pow_right (by decide) (by omega)
    _ = (10 ^ 3) ^ ((e + 2) / 3) := Nat.pow_mul ..
    _ ≤ (2 ^ 10) ^ ((e + 2) / 3) := Nat.pow_le_pow_left (by decide) _
    _ = 2 ^ (10 * ((e + 2) / 3)) := (Nat.pow_mul ..).symm
    _ ≤ 2 ^ p := Nat.pow_le_pow_right (by decide) (by omega)

theorem two_pow_le_ten_pow {e p : Nat} (hp : p ≤ 1100) (h : 30103 * p + 200000 ≤ 100000 * e) :
    2 ^ p ≤ 10 ^ e := by
  have hsmall : ∀ r < 93, 2 ^ r ≤ 10 ^ (r * 30103 / 100000 + 1) := by decide
  calc 2 ^ p = 2 ^ (93 * (p / 93) + p % 93) := by rw [Nat.div_add_mod]
    _ = (2 ^ 93) ^ (p / 93) * 2 ^ (p % 93) := by rw [Nat.pow_add, Nat.pow_mul]
    _ ≤ (10 ^ 28) ^ (p / 93) * 10 ^ (p % 93 * 30103 / 100000 + 1) :=
      Nat.mul_le_mul (Nat.pow_le_pow_left (by decide) _) (hsmall _ (Nat.mod_lt _ (by decide)))
    _ = 10 ^ (28 * (p / 93) + (p % 93 * 30103 / 100000 + 1)) := by
      rw [Nat.pow_add 10 (28 * _), Nat.pow_mul]
    _ ≤ 10 ^ e := Nat.pow_le_pow_right (by decide) (by omega)

/-- The last grids are fine enough, for `30103 / 100000` is close to the logarithm of two. -/
theorem fits_of_le (hpower : -1076 ≤ r.power) (hpower' : r.power ≤ 969)
    (h : 100000 * e ≤ 30103 * r.power - 340000) : r.Fits e := by
  rw [Rounding.Fits]
  rcases Int.lt_or_le r.power 0 with hneg | hpos
  · have hle := two_pow_le_ten_pow (e := (-e).toNat) (p := (-r.power).toNat) (by omega) (by omega)
    rw [Int.toNat_of_nonpos (show e ≤ 0 by omega), Int.toNat_of_nonpos (Int.le_of_lt hneg)]
    simpa using hle
  · rw [Int.toNat_of_nonpos (show -r.power ≤ 0 by omega)]
    rcases Int.lt_or_le e 0 with he | he
    · rw [Int.toNat_of_nonpos (Int.le_of_lt he)]
      exact Nat.mul_pos (Nat.pow_pos (by decide)) (Nat.two_pow_pos _)
    · have hle := ten_pow_le_two_pow (e := e.toNat) (p := r.power.toNat) (by omega)
      rw [Int.toNat_of_nonpos (show -e ≤ 0 by omega)]
      simpa using hle

theorem significand_bounds {magnitude : Nat} (h : magnitude ≠ 0) :
    0 < significand magnitude ∧ significand magnitude < 2 ^ 53 := by
  rw [significand]
  split <;> simp only [fractions] at * <;> omega

theorem power_bounds {magnitude : Nat} (h : magnitude < infinity) :
    -1074 ≤ power magnitude ∧ power magnitude ≤ 971 := by
  rw [infinity] at h
  by_cases hs : magnitude < fractions
  · rw [power, if_pos hs]
    omega
  · rw [power, if_neg hs]
    rw [fractions] at *
    omega

/-- A finite number that is not zero has digits. -/
theorem digits_shortest_ne_zero {magnitude : Nat} (h : magnitude ≠ 0) (hm : magnitude < infinity) :
    (shortest magnitude).digits ≠ 0 := by
  have hsignificand := significand_bounds h
  have hpower := power_bounds hm
  have hvalue : (rounding magnitude).value = 4 * significand magnitude := rfl
  have hr : (rounding magnitude).power = power magnitude - 2 := rfl
  have hlow : 0 < (rounding magnitude).low ∧
      (rounding magnitude).low < (rounding magnitude).value := by
    simp only [rounding]
    split <;> omega
  have hlog : Nat.log2 (rounding magnitude).value < 55 := by
    rw [Nat.log2_lt (by omega)]
    omega
  show (firstPoint _ (21 + 1) _).digits ≠ 0
  refine digits_firstPoint_ne_zero hlow.1 (exists_gridPoint? hlow.2 ?_)
  exact fits_of_le (by omega) (by omega) (by omega)

end Hcl.Binary64
