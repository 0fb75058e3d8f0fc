/-!
Local slots of the machine, handed out by number. Slot 0 holds the result of top-level
statements and is never handed out; slots given back are used again first-in first-out before
fresh ones.
-/

set_option autoImplicit false
set_option relaxedAutoImplicit false

namespace Primer

/-- The slot of the result of top-level statements. -/
def resultSlot : UInt8 := 0

/-- How many slots there are. -/
def slotCount : Nat := 256

/-- The slots from `next` on were never handed out, and those in `freed` were given back. -/
structure SlotPool where
  next : Nat := 1
  freed : List UInt8 := []
deriving DecidableEq

namespace SlotPool

instance : Inhabited SlotPool := ⟨{}⟩

/-- A slot that is not in use, if there is one. -/
def allocate? (pool : SlotPool) : Option (UInt8 × SlotPool) :=
  match pool.freed with
  | slot :: rest => some (slot, { pool with freed := rest })
  | [] =>
    if pool.next < slotCount then
      some (UInt8.ofNat pool.next, { pool with next := pool.next + 1 })
    else
      none

def release (pool : SlotPool) (slot : UInt8) : SlotPool :=
  { pool with freed := pool.freed ++ [slot] }

/-- How many slots are in use, slot 0 among them. -/
def live (pool : SlotPool) : Nat := pool.next - pool.freed.length

end SlotPool

end Primer
