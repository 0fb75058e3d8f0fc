import Primer.Slots
import Primer.Value

/-!
The local slots of the machine: 256 cells, each empty or filled.
-/

set_option autoImplicit false
set_option relaxedAutoImplicit false

namespace Primer

structure Locals where
  cells : Vector (Option Value) slotCount := Vector.replicate slotCount none

namespace Locals

instance : Inhabited Locals := ⟨{}⟩

theorem slot_lt (slot : UInt8) : slot.toNat < slotCount := slot.toNat_lt

def get? (locals : Locals) (slot : UInt8) : Option Value :=
  locals.cells.get ⟨slot.toNat, slot_lt slot⟩

def set (locals : Locals) (slot : UInt8) (value : Value) : Locals :=
  ⟨locals.cells.set slot.toNat (some value) (slot_lt slot)⟩

def free (locals : Locals) (slot : UInt8) : Locals :=
  ⟨locals.cells.set slot.toNat none (slot_lt slot)⟩

/-- The filled slots with their values, in ascending order. -/
def filled (locals : Locals) : List (Nat × Value) :=
  locals.cells.toList.zipIdx.filterMap fun (cell, slot) => cell.map fun value => (slot, value)

end Locals

end Primer
