import Primer.Decimal.Shortest
import Primer.Number
import Primer.Text.Blank

/-!
The written forms of numbers. Programs see `Number.text`, which is always positional; inspection
of a machine shows `Number.inspect`, which keeps a point and goes over to an exponent for very
large and very small magnitudes. `Number.parse?` reads what a person types.
-/

set_option autoImplicit false
set_option relaxedAutoImplicit false

namespace Primer

namespace Decimal

def zeros (count : Nat) : String :=
  String.ofList (List.replicate count '0')

/-- Positional digits: no point after a whole number, a zero before a leading point. -/
def positional (d : Decimal) : String :=
  let shown := Nat.toDigits 10 d.digits
  if 0 ≤ d.exponent then
    String.ofList shown ++ zeros d.exponent.toNat
  else
    let places := (-d.exponent).toNat
    if places < shown.length then
      let whole := shown.length - places
      String.ofList (shown.take whole) ++ "." ++ String.ofList (shown.drop whole)
    else
      "0." ++ zeros (places - shown.length) ++ String.ofList shown

/-- The exponent of the leading digit. -/
def leadingExponent (d : Decimal) : Int :=
  (width d.digits : Int) - 1 + d.exponent

/-- One digit before the point and a power of ten. -/
def scientific (d : Decimal) : String :=
  let mark := "e" ++ toString d.leadingExponent
  match Nat.toDigits 10 d.digits with
  | [] => mark
  | [digit] => String.ofList [digit] ++ mark
  | digit :: more => String.ofList (digit :: '.' :: more) ++ mark

end Decimal

namespace Number

/-- A sign and special values around a layout of positive finite magnitudes. -/
def render (zeroText : String) (layout : Decimal → String) (n : Number) : String :=
  let signed (body : String) : String := if n.isNegative then "-" ++ body else body
  match n.magnitude with
  | .notANumber => "NaN"
  | .infinite => signed "inf"
  | .finite x =>
    if x.significand = 0 then signed zeroText else signed (layout x.shortest)

/-- The text of a number: the fewest digits that read back, written positionally. -/
def text (n : Number) : String :=
  n.render "0" Decimal.positional

/-- The layout of an inspected number: positional with a point for leading exponents from -4 to
15, otherwise with an exponent. -/
def inspectLayout (d : Decimal) : String :=
  if -4 ≤ d.leadingExponent ∧ d.leadingExponent < 16 then
    if 0 ≤ d.exponent then d.positional ++ ".0" else d.positional
  else
    d.scientific

/-- A number as inspection shows it. -/
def inspect (n : Number) : String :=
  n.render "0.0" inspectLayout

/-- The natural number that decimal digits spell. -/
def digitsValue (cs : List Char) : Nat :=
  cs.foldl (fun n c => 10 * n + (c.toNat - '0'.toNat)) 0

/-- An optional sign in front; the flag says whether it is a minus. -/
def splitSign : List Char → Bool × List Char
  | '-' :: rest => (true, rest)
  | '+' :: rest => (false, rest)
  | cs => (false, cs)

/-- The exponent part: nothing, or a mark, an optional sign and at least one digit. -/
def parseExponent? : List Char → Option Int
  | [] => some 0
  | mark :: rest =>
    if mark = 'e' ∨ mark = 'E' then
      let (negative, digits) := splitSign rest
      if digits.isEmpty || !digits.all Char.isDigit then none
      else some (if negative then -(digitsValue digits : Int) else digitsValue digits)
    else
      none

/-- The fraction part after a point, and what follows it. -/
def splitFraction : List Char → List Char × List Char
  | '.' :: rest => (rest.takeWhile Char.isDigit, rest.dropWhile Char.isDigit)
  | cs => ([], cs)

/-- An unsigned decimal: digits with an optional point, at least one digit on either side of
it, and an optional exponent. -/
def parseDecimal? (cs : List Char) : Option Decimal :=
  let whole := cs.takeWhile Char.isDigit
  let (places, rest) := splitFraction (cs.dropWhile Char.isDigit)
  if whole.isEmpty && places.isEmpty then
    none
  else
    (parseExponent? rest).map fun exponent =>
      ⟨digitsValue (whole ++ places), exponent - (places.length : Int)⟩

/-- The number that a text without outer blanks spells: a signed decimal, rounded to nearest, or
a signed `inf`, `infinity` or `nan` in any case. -/
def parse? (cs : List Char) : Option Number :=
  let (negative, body) := splitSign cs
  if Text.sameLetters body "inf".toList || Text.sameLetters body "infinity".toList then
    some (ofSignField negative Decimal.infinityField)
  else if Text.sameLetters body "nan".toList then
    some nan
  else
    (parseDecimal? body).map (ofDecimal negative)

end Number

end Primer
