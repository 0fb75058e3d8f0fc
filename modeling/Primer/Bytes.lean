/-!
Little-endian fields: a natural number as a fixed count of bytes, lowest first.
-/

set_option autoImplicit false
set_option relaxedAutoImplicit false

namespace Primer.Bytes

/-- The lowest `width` bytes of a natural number, lowest first. -/
def little : Nat → Nat → List UInt8
  | 0, _ => []
  | width + 1, n => UInt8.ofNat n :: little width (n / 256)

/-- The natural number that bytes spell, lowest first. -/
def value : List UInt8 → Nat
  | [] => 0
  | byte :: more => byte.toNat + 256 * value more

@[simp] theorem length_little (width n : Nat) : (little width n).length = width := by
  induction width generalizing n with
  | zero => rfl
  | succ width ih => simp [little, ih]

theorem value_little (width n : Nat) : value (little width n) = n % Nat.pow 256 width := by
  induction width generalizing n with
  | zero => exact (Nat.mod_one n).symm
  | succ width ih =>
    have low : (UInt8.ofNat n).toNat = n % 256 := UInt8.toNat_ofNat'
    have power : Nat.pow 256 (width + 1) = 256 * Nat.pow 256 width := Nat.pow_succ'
    rw [little, value, ih, low, power, Nat.mod_mul]

/-- Two hexadecimal digits at least, after the mark of the base. -/
def hex (byte : UInt8) : String :=
  let digits := Nat.toDigits 16 byte.toNat
  "0x" ++ String.ofList (List.replicate (2 - digits.length) '0' ++ digits)

end Primer.Bytes
