import Primer.Encoding
import Primer.Node

/-!
Fragments of code: instruction lists whose jumps count from the fragment's own start, so that a
fragment can be placed anywhere by shifting it. Calls name final addresses and are not shifted.

The shapes of control flow are functions on fragments: each lays its parts one after another and
computes where the jumps between them lead.
-/

set_option autoImplicit false
set_option relaxedAutoImplicit false

namespace Primer

/-- Move the target of a jump. -/
def Instruction.shift (distance : Nat) : Instruction → Instruction
  | jump target => jump (target + distance)
  | jumpIf target => jumpIf (target + distance)
  | other => other

/-- Instructions whose jumps count from the first of them. -/
abbrev Fragment := List Instruction

namespace Fragment

/-- How many bytes the code takes. -/
def size : Fragment → Nat
  | [] => 0
  | i :: rest => i.size + size rest

def shift (code : Fragment) (distance : Nat) : Fragment :=
  code.map (Instruction.shift distance)

/-- Lay fragments one after another, the first at an offset. -/
def sequenceFrom : Nat → List Fragment → Fragment
  | _, [] => []
  | offset, code :: more => shift code offset ++ sequenceFrom (offset + size code) more

/-- Lay fragments one after another. -/
def sequence (parts : List Fragment) : Fragment := sequenceFrom 0 parts

/-- The bytes of the code. -/
def bytes (code : Fragment) : List UInt8 := code.flatMap Instruction.write

/-- The size of a jump of either kind. -/
def jumpSize : Nat := (Instruction.jump 0).size

/-- The right side is skipped when the left side decides: `and` stops at false, `or` at true. -/
def shortCircuit (op : Logic) (left right : Fragment) : Fragment :=
  let head := match op with
    | .and => left ++ [.invert]
    | .or => left
  let decision : Fragment := [.push (.boolean (op = .or))]
  let start := size head + jumpSize
  let decided := start + size right + jumpSize
  let finish := decided + size decision
  head ++ [.jumpIf decided] ++ shift right start ++ [.jump finish] ++ decision

/-- The condition, and what to do with it when it is false: jump to an address. -/
def unlessGoTo (condition : Fragment) (target : Nat) : Fragment :=
  condition ++ [.invert, .jumpIf target]

/-- The size of `unlessGoTo`. -/
def guardSize (condition : Fragment) : Nat :=
  size condition + size [.invert] + jumpSize

/-- The body is run when the condition is true. -/
def conditional (condition body : Fragment) : Fragment :=
  let start := guardSize condition
  unlessGoTo condition (start + size body) ++ shift body start

/-- One of two bodies is run. -/
def alternative (condition body otherwise : Fragment) : Fragment :=
  let start := guardSize condition
  let second := start + size body + jumpSize
  unlessGoTo condition second ++ shift body start ++ [.jump (second + size otherwise)]
    ++ shift otherwise second

/-- The body is run as long as the condition is true before it. -/
def whileLoop (condition body : Fragment) : Fragment :=
  let start := guardSize condition
  unlessGoTo condition (start + size body + jumpSize) ++ shift body start ++ [.jump 0]

/-- The body is run a number of times: not at all when the count is at most zero, else once and
again as long as the counter plus one is below the count. The count and the counter are kept in
two slots, so that nothing stays on the operand stack while the body runs. -/
def countedLoop (count : Fragment) (threshold counter : UInt8) (body : Fragment) : Fragment :=
  let zero : Instruction := .push (.number .zero)
  let one : Instruction := .push (.number .one)
  let head := count ++ [.dup, zero, .order .lessEq]
  let prepare : Fragment := [.store threshold, zero, .store counter]
  let top := size head + jumpSize + size prepare
  let advance : Fragment :=
    [.load counter, one, .arith .add, .dup, .store counter, .load threshold, .order .less]
  let skip := top + size body + size advance + jumpSize + jumpSize
  let drop : Fragment := [.pop]
  head ++ [.jumpIf skip] ++ prepare ++ shift body top ++ advance
    ++ [.jumpIf top, .jump (skip + size drop)] ++ drop

end Fragment

end Primer
