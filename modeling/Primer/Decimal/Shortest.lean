import Primer.Decimal.Binary

/-!
The shortest decimal of a binary64 magnitude: of all decimals that read back as the magnitude,
one with the fewest digits, of those the nearest, and of two equally near the upper one.
-/

set_option autoImplicit false
set_option relaxedAutoImplicit false

namespace Primer.Decimal

/-- Compare `a * 10 ^ i` with `n * 2 ^ j`, exactly. -/
def compareScaled (a : Nat) (i : Int) (n : Nat) (j : Int) : Ordering :=
  compare (raise 2 (raise 10 a i) (-j)) (raise 10 (raise 2 n j) (-i))

/-- The decimal lies among the reals that round to the magnitude. The interval reaches halfway
to both neighbours, and has its ends exactly when the significand is even. -/
def Binary.readsBack (x : Binary) (d : Decimal) : Bool :=
  let low := if x.narrowBelow then 4 * x.significand - 1 else 4 * x.significand - 2
  let high := 4 * x.significand + 2
  let closed := x.significand % 2 == 0
  let below := compareScaled d.digits d.exponent low (x.exponent - 2)
  let above := compareScaled d.digits d.exponent high (x.exponent - 2)
  (below == .gt || (closed && below == .eq)) && (above == .lt || (closed && above == .eq))

/-- The magnitude over `10 ^ grid`, as a quotient of natural numbers. -/
def Binary.over (x : Binary) (grid : Int) : Nat × Nat :=
  (raise 10 (raise 2 x.significand x.exponent) (-grid), raise 10 (raise 2 1 (-x.exponent)) grid)

/-- The least `k` with the magnitude below `10 ^ k`. The binary logarithm leaves few candidates. -/
def Binary.scale (x : Binary) : Int :=
  let estimate := ((x.significand.log2 : Int) + x.exponent) * 30103 / 100000
  let candidates := [estimate, estimate + 1, estimate + 2]
  let above (k : Int) : Bool := (x.over k).1 < (x.over k).2
  (candidates.find? above).getD (estimate + 3)

/-- The better of the magnitude's two neighbours on the grid of `10 ^ grid`, if one reads back. -/
def Binary.onGrid (x : Binary) (grid : Int) : Option Decimal :=
  let (num, den) := x.over grid
  let lower : Decimal := ⟨num / den, grid⟩
  let upper : Decimal := ⟨num / den + 1, grid⟩
  match x.readsBack lower, x.readsBack upper with
  | true, true => some (if 2 * (num % den) < den then lower else upper)
  | true, false => some lower
  | false, true => some upper
  | false, false => none

/-- The exact decimal of the magnitude. -/
def Binary.exact (x : Binary) : Decimal :=
  if 0 ≤ x.exponent then
    ⟨raise 2 x.significand x.exponent, 0⟩
  else
    ⟨raise 5 x.significand (-x.exponent), x.exponent⟩

/-- Move trailing zeros of the digits into the exponent, at most `fuel` of them. -/
def stripZeros : Nat → Decimal → Decimal
  | 0, d => d
  | fuel + 1, d =>
    if d.digits ≠ 0 ∧ d.digits % 10 = 0 then
      stripZeros fuel ⟨d.digits / 10, d.exponent + 1⟩
    else
      d

/-- The shortest decimal of a magnitude other than zero. Seventeen digits are always enough. -/
def Binary.shortest (x : Binary) : Decimal :=
  let scale := x.scale
  let found := (List.range 17).findSome? fun n => x.onGrid (scale - (n + 1 : Nat))
  let chosen := found.getD x.exact
  stripZeros (width chosen.digits) chosen

end Primer.Decimal
