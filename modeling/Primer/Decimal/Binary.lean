/-!
Finite binary64 magnitudes as exact products of a natural number and a power of two, and the
nearest such magnitude to a decimal.
-/

set_option autoImplicit false
set_option relaxedAutoImplicit false

namespace Primer

/-- A decimal magnitude `digits * 10 ^ exponent`. -/
structure Decimal where
  digits : Nat
  exponent : Int
deriving DecidableEq

namespace Decimal

/-- The product of `n` and a power of the base, or `n` alone when the exponent is negative. A
quotient of two such numbers has the power on the side where its exponent is positive. -/
def raise (base n : Nat) (exponent : Int) : Nat :=
  n * Nat.pow base exponent.toNat

/-- The bit in front of the fraction field. -/
def leadingBit : Nat := 0x10000000000000

/-- A finite binary64 magnitude `significand * 2 ^ exponent`. -/
structure Binary where
  significand : Nat
  exponent : Int
  /-- The gap to the magnitude below is half the gap to the magnitude above. -/
  narrowBelow : Bool
deriving DecidableEq

/-- The magnitude behind a biased exponent field and a fraction field. -/
def Binary.ofFields (biased fraction : Nat) : Binary :=
  if biased = 0 then
    ⟨fraction, -1074, false⟩
  else
    ⟨leadingBit + fraction, (biased : Int) - 1075, fraction == 0 && 1 < biased⟩

/-- The natural number that equals the magnitude, if there is one. -/
def Binary.toNat? (x : Binary) : Option Nat :=
  if 0 ≤ x.exponent then
    some (raise 2 x.significand x.exponent)
  else
    let unit := raise 2 1 (-x.exponent)
    if x.significand % unit = 0 then some (x.significand / unit) else none

/-- The quotient rounded to the nearest natural number, a half going to the even neighbour. -/
def roundHalfEven (num den : Nat) : Nat :=
  let floor := num / den
  match compare (2 * (num % den)) den with
  | .lt => floor
  | .gt => floor + 1
  | .eq => floor + floor % 2

/-- The fields of positive infinity, read as one natural number. -/
def infinityField : Nat := 0x7FF * leadingBit

/-- The exponent and fraction fields, as one natural number, of the binary64 magnitude nearest
to `num / den`; a half goes to the even neighbour. -/
def nearestRatio (num den : Nat) : Nat :=
  let estimate : Int := (num.log2 : Int) - (den.log2 : Int) - 53
  let scaled (q : Int) : Nat × Nat := (raise 2 num (-q), raise 2 den q)
  let fits (q : Int) : Bool := (scaled q).1 / (scaled q).2 < 2 * leadingBit
  let exponent := max (-1074) (if fits estimate then estimate else estimate + 1)
  let (n, d) := scaled exponent
  min infinityField ((exponent + 1074).toNat * leadingBit + roundHalfEven n d)

/-- How many decimal digits a natural number takes. -/
def width (n : Nat) : Nat :=
  (Nat.toDigits 10 n).length

/-- The exponent and fraction fields of the binary64 magnitude nearest to a decimal. Decimals
far outside the range are settled by their width, so that no huge power is formed. -/
def nearest (x : Decimal) : Nat :=
  if x.digits = 0 then
    0
  else
    let scale := (width x.digits : Int) + x.exponent
    if 310 < scale then
      infinityField
    else if scale < -330 then
      0
    else
      nearestRatio (raise 10 x.digits x.exponent) (raise 10 1 (-x.exponent))

end Decimal

end Primer
