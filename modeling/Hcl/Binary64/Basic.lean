/-!
# Binary floating point numbers

The numbers of a document are those of the 64-bit binary format: a sign, an exponent of eleven bits
and a fraction of 52 bits. Apart from the sign a pattern of bits is a magnitude, and magnitudes are
numbered in ascending order from zero to infinity.
-/

namespace Hcl

structure Binary64 where
  bits : UInt64
deriving DecidableEq, Repr

namespace Binary64

/-- How many fractions there are. -/
def fractions : Nat := 0x10000000000000

/-- How many magnitudes there are. -/
def magnitudes : Nat := 0x8000000000000000

/-- The number of the magnitude infinity. What is above it is no number. -/
def infinity : Nat := 0x7ff * fractions

/-- The number with the given sign and magnitude. -/
def ofMagnitude (negative : Bool) (magnitude : Nat) : Binary64 :=
  ⟨.ofNat (if negative then magnitudes + magnitude else magnitude)⟩

def notANumber : Binary64 := ofMagnitude false (infinity + fractions / 2)

def isNegative (x : Binary64) : Bool := magnitudes ≤ x.bits.toNat

def magnitude (x : Binary64) : Nat := x.bits.toNat % magnitudes

def isNaN (x : Binary64) : Bool := infinity < x.magnitude

def isFinite (x : Binary64) : Bool := x.magnitude < infinity

/-- The whole number `m` of a finite magnitude `m * 2 ^ q`. -/
def significand (magnitude : Nat) : Nat :=
  if magnitude < fractions then magnitude else fractions + magnitude % fractions

/-- The power `q` of a finite magnitude `m * 2 ^ q`. -/
def power (magnitude : Nat) : Int :=
  if magnitude < fractions then -1074 else (magnitude / fractions : Nat) - 1075

/-! ## Rounding -/

/-- The greatest `e` with `2 ^ e ≤ num / den`, for a positive ratio. -/
def floorLog2 (num den : Nat) : Int :=
  let e : Int := (Nat.log2 num : Int) - Nat.log2 den
  let fits := if 0 ≤ e then den <<< e.toNat ≤ num else den ≤ num <<< (-e).toNat
  if fits then e else e - 1

/-- The nearest whole number to `num / den`; of two the even one. -/
def roundRatio (num den : Nat) : Nat :=
  let q := num / den
  let r := num % den
  if den < 2 * r ∨ (2 * r = den ∧ q % 2 = 1) then q + 1 else q

/-- The magnitude nearest to `num / den`; of two the one with an even significand. -/
def magnitudeOfRatio (num den : Nat) : Nat :=
  if num = 0 then 0
  else
    let q := max (floorLog2 num den - 52) (-1074)
    let m :=
      if 0 ≤ q then roundRatio num (den <<< q.toNat) else roundRatio (num <<< (-q).toNat) den
    min ((q + 1074).toNat * fractions + m) infinity

end Binary64

end Hcl
