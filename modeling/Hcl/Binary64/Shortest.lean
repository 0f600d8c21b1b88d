import Hcl.Binary64.Basic

/-!
# Writing numbers

A number is written with the fewest decimal digits that read back to it, and with those nearest to
it among them. The digits are found on grids of powers of ten, from coarse to fine: the first grid
with a point that rounds to the number has it next to the number, below or above.
-/

namespace Hcl.Binary64

/-- `digits * 10 ^ exponent`. -/
structure Digits where
  digits : Nat
  exponent : Int
deriving DecidableEq, Repr

/-- The values that round to a magnitude, as multiples of `2 ^ power`. -/
structure Rounding where
  low : Nat
  value : Nat
  high : Nat
  /-- whether `low` and `high` round to the magnitude themselves -/
  closed : Bool
  power : Int

/-- The neighbour below is closer where the power of two changes. -/
def rounding (magnitude : Nat) : Rounding :=
  let m := significand magnitude
  let low := if m = fractions ∧ 2 * fractions ≤ magnitude then 4 * m - 1 else 4 * m - 2
  ⟨low, 4 * m, 4 * m + 2, m % 2 = 0, power magnitude - 2⟩

/-- The point of the grid `10 ^ exponent` that is written for a magnitude, if one rounds to it. Of
two equally near points it is the even one. -/
def gridPoint? (r : Rounding) (exponent : Int) : Option Nat :=
  -- `x * 2 ^ power` is the multiple `x * a / b` of `10 ^ exponent`
  let a := Nat.pow 10 (-exponent).toNat <<< r.power.toNat
  let b := Nat.pow 10 exponent.toNat <<< (-r.power).toNat
  let below := r.value * a / b
  let belowFits := if r.closed then r.low * a ≤ below * b else r.low * a < below * b
  let aboveFits := if r.closed then (below + 1) * b ≤ r.high * a else (below + 1) * b < r.high * a
  let toBelow := r.value * a - below * b
  let toAbove := (below + 1) * b - r.value * a
  if belowFits ∧ aboveFits then
    if toBelow < toAbove ∨ (toBelow = toAbove ∧ below % 2 = 0) then some below
    else some (below + 1)
  else if belowFits then some below
  else if aboveFits then some (below + 1)
  else none

/-- Looks for a point on `fuel` grids, from `10 ^ exponent` downwards. -/
def firstPoint (r : Rounding) : (fuel : Nat) → (exponent : Int) → Digits
  | 0, exponent => ⟨0, exponent⟩
  | fuel + 1, exponent =>
    match gridPoint? r exponent with
    | some digits => ⟨digits, exponent⟩
    | none => firstPoint r fuel (exponent - 1)

/-- The shortest digits of a finite magnitude that is not zero. The first grid is coarser than the
number; seventeen digits are always enough. -/
def shortest (magnitude : Nat) : Digits :=
  let r := rounding magnitude
  let log2 : Int := (Nat.log2 r.value : Int) + r.power
  firstPoint r 22 ((log2 + 1) * 30103 / 100000 + 1)

/-! ## Layout -/

/-- Where the point stands. With a value `d.ddd * 10 ^ x`, the point is put in its place if `x` is
in the range, and otherwise an exponent is written. -/
structure Layout where
  leastPlain : Int
  greatestPlain : Int
  /-- whether an exponent that is not negative has a sign -/
  plusSign : Bool
deriving DecidableEq, Repr

def zeros (n : Nat) : String := String.ofList (List.replicate n '0')

/-- Writes digits with the point in its place, and at least one digit on both sides of it. -/
def plainText (d : Digits) : String :=
  let digits := toString d.digits
  let point : Int := digits.length + d.exponent
  if 0 ≤ d.exponent then digits ++ zeros d.exponent.toNat ++ ".0"
  else if 0 < point then
    let (whole, fraction) := digits.toList.splitAt point.toNat
    String.ofList (whole ++ '.' :: fraction)
  else "0." ++ zeros (-point).toNat ++ digits

def scientificText (plusSign : Bool) (d : Digits) : String :=
  let digits := (toString d.digits).toList
  let x : Int := digits.length - 1 + d.exponent
  let fraction := if digits.length ≤ 1 then [] else '.' :: digits.drop 1
  let sign := if x < 0 then ['-'] else if plusSign then ['+'] else []
  String.ofList (digits.take 1 ++ fraction ++ 'e' :: sign) ++ toString x.natAbs

def Layout.text (layout : Layout) (magnitude : Nat) : String :=
  if magnitude = 0 then "0.0"
  else
    let d := shortest magnitude
    let x : Int := (toString d.digits).length - 1 + d.exponent
    if layout.leastPlain ≤ x ∧ x ≤ layout.greatestPlain then plainText d
    else scientificText layout.plusSign d

/-- The text of a finite number; there is none for the others. -/
def text? (layout : Layout) (x : Binary64) : Option String :=
  if x.isFinite then
    let text := layout.text x.magnitude
    some (if x.isNegative then "-" ++ text else text)
  else none

end Hcl.Binary64
