import Primer.Decimal.Binary

/-!
Numbers of the language: binary64 values, kept by their bit pattern. Two numbers are the same
when their patterns are; `Number.equal` is the comparison that programs see, for which a NaN
differs from itself and both zeros agree.
-/

set_option autoImplicit false
set_option relaxedAutoImplicit false

namespace Primer

/-- A binary64 value by its bit pattern. -/
structure Number where
  bits : UInt64
deriving DecidableEq

namespace Number

def ofFloat (x : Float) : Number := ⟨x.toBits⟩

def toFloat (n : Number) : Float := Float.ofBits n.bits

def zero : Number := ⟨0⟩

def one : Number := ⟨0x3FF0000000000000⟩

def nan : Number := ⟨0x7FF8000000000000⟩

instance : Inhabited Number := ⟨zero⟩

def add (a b : Number) : Number := ofFloat (a.toFloat + b.toFloat)

def sub (a b : Number) : Number := ofFloat (a.toFloat - b.toFloat)

def mul (a b : Number) : Number := ofFloat (a.toFloat * b.toFloat)

def div (a b : Number) : Number := ofFloat (a.toFloat / b.toFloat)

def neg (a : Number) : Number := ofFloat (-a.toFloat)

def less (a b : Number) : Bool := decide (a.toFloat < b.toFloat)

def lessEq (a b : Number) : Bool := decide (a.toFloat ≤ b.toFloat)

/-- Equality as programs see it: no NaN equals anything, and both zeros are equal. -/
def equal (a b : Number) : Bool := a.toFloat == b.toFloat

/-- What a bit pattern stands for, its sign apart. -/
inductive Magnitude where
  | notANumber
  | infinite
  | finite (value : Decimal.Binary)

def isNegative (n : Number) : Bool := n.bits >>> 63 == 1

/-- The exponent field of the pattern. -/
def biasedExponent (n : Number) : Nat := ((n.bits >>> 52) &&& 0x7FF).toNat

/-- The fraction field of the pattern. -/
def fraction (n : Number) : Nat := (n.bits &&& 0xFFFFFFFFFFFFF).toNat

def magnitude (n : Number) : Magnitude :=
  if n.biasedExponent = 0x7FF then
    if n.fraction = 0 then .infinite else .notANumber
  else
    .finite (.ofFields n.biasedExponent n.fraction)

/-- A sign and the exponent and fraction fields below it. -/
def ofSignField (negative : Bool) (field : Nat) : Number :=
  ⟨UInt64.ofNat (field + if negative then 0x8000000000000000 else 0)⟩

/-- The number nearest to a signed decimal. -/
def ofDecimal (negative : Bool) (d : Decimal) : Number :=
  ofSignField negative d.nearest

def ofNat (n : Nat) : Number := ofDecimal false ⟨n, 0⟩

/-- The natural number that equals the number, if there is one. -/
def toNat? (n : Number) : Option Nat :=
  match n.magnitude with
  | .finite x => (x.toNat?).filter fun k => k = 0 ∨ n.isNegative = false
  | _ => none

end Number

end Primer
