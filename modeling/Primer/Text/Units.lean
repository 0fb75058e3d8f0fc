/-!
Texts as 16-bit units. A character below `0x10000` is one unit; a larger one is a high surrogate
followed by a low surrogate.
-/

set_option autoImplicit false
set_option relaxedAutoImplicit false

namespace Primer.Text

/-- The units of one character. -/
def charUnits (c : Char) : List UInt16 :=
  let n := c.toNat
  if n < 0x10000 then
    [UInt16.ofNat n]
  else
    let offset := n - 0x10000
    [UInt16.ofNat (0xD800 + offset / 0x400), UInt16.ofNat (0xDC00 + offset % 0x400)]

/-- The units of a text. -/
def units (cs : List Char) : List UInt16 :=
  cs.flatMap charUnits

/-- How many units a text takes. -/
def unitCount (cs : List Char) : Nat :=
  (units cs).length

def isHighSurrogate (u : UInt16) : Bool := 0xD800 ≤ u.toNat && u.toNat < 0xDC00

def isLowSurrogate (u : UInt16) : Bool := 0xDC00 ≤ u.toNat && u.toNat < 0xE000

/-- The character of a surrogate pair. -/
def pairChar (high low : UInt16) : Char :=
  Char.ofNat (0x10000 + (high.toNat - 0xD800) * 0x400 + (low.toNat - 0xDC00))

/-- The text that units spell; a surrogate outside a pair spells none. The first argument holds
the characters read so far, last first. -/
def ofUnitsOnto : List Char → List UInt16 → Option (List Char)
  | done, [] => some done.reverse
  | done, [u] =>
    if isHighSurrogate u || isLowSurrogate u then none
    else some (Char.ofNat u.toNat :: done).reverse
  | done, u :: v :: rest =>
    if isHighSurrogate u then
      if isLowSurrogate v then ofUnitsOnto (pairChar u v :: done) rest else none
    else if isLowSurrogate u then
      none
    else
      ofUnitsOnto (Char.ofNat u.toNat :: done) (v :: rest)

/-- The text that units spell, if every surrogate stands in a pair. -/
def ofUnits? (us : List UInt16) : Option (List Char) :=
  ofUnitsOnto [] us

end Primer.Text
