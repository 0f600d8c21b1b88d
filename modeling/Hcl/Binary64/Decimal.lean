import Hcl.Binary64.Basic
import Hcl.Error

/-!
# Reading numerals

The text of a number is an optional sign and then either digits, with a point anywhere among or
around them and an exponent behind them, or the name of infinity or of what is not a number. The
number is the one nearest to the decimal value.
-/

namespace Hcl

/-- The decimal value `digits * 10 ^ exponent` with a sign. -/
structure Decimal where
  negative : Bool
  digits : Nat
  exponent : Int
deriving DecidableEq, Repr

namespace Decimal

/-- The value of decimal digits. -/
def digitsValue (cs : List Char) : Nat :=
  cs.foldl (fun n c => 10 * n + (c.toNat - '0'.toNat)) 0

/-- Splits off a sign, which is positive if there is none. -/
def splitSign : List Char → Bool × List Char
  | '-' :: cs => (true, cs)
  | '+' :: cs => (false, cs)
  | cs => (false, cs)

/-- The exponent at the end of a numeral: nothing, or `e` and digits that may have a sign. -/
def exponent? : List Char → Option Int
  | [] => some 0
  | e :: cs =>
    let (negative, digits) := splitSign cs
    if (e == 'e' || e == 'E') && !digits.isEmpty && digits.all Char.isDigit then
      let n : Int := digitsValue digits
      some (if negative then -n else n)
    else none

/-- Reads an unsigned decimal numeral. -/
def ofDigits? (negative : Bool) (cs : List Char) : Option Decimal :=
  let whole := cs.takeWhile Char.isDigit
  let rest := cs.dropWhile Char.isDigit
  let fraction := if rest.head? = some '.' then rest.tail.takeWhile Char.isDigit else []
  let rest := if rest.head? = some '.' then rest.tail.dropWhile Char.isDigit else rest
  if whole.isEmpty && fraction.isEmpty then none
  else
    (exponent? rest).map fun e =>
      ⟨negative, digitsValue (whole ++ fraction), e - fraction.length⟩

/-- The number nearest to a decimal value. Far beyond both ends of the format the exponent alone
decides. -/
def toBinary64 (d : Decimal) : Binary64 :=
  let magnitude :=
    if d.digits = 0 then 0
    else if 310 ≤ d.exponent then Binary64.infinity
    else if d.exponent + Nat.log2 d.digits + 1 < -330 then 0
    else if 0 ≤ d.exponent then
      Binary64.magnitudeOfRatio (d.digits * Nat.pow 10 d.exponent.toNat) 1
    else Binary64.magnitudeOfRatio d.digits (Nat.pow 10 (-d.exponent).toNat)
  .ofMagnitude d.negative magnitude

end Decimal

namespace Binary64

/-- Reads the text of a number. -/
def parse (text : String) : Except NumeralFault Binary64 :=
  if text.isEmpty then .error .empty
  else
    let (negative, cs) := Decimal.splitSign text.toList
    let word := String.ofList (cs.map Char.toLower)
    if word = "inf" ∨ word = "infinity" then .ok (.ofMagnitude negative infinity)
    else if word = "nan" then .ok notANumber
    else
      match Decimal.ofDigits? negative cs with
      | some d => .ok d.toBinary64
      | none => .error .invalid

end Binary64

end Hcl
