import Primer.Value

/-!
Instructions of the machine, and the opcodes that their encoded forms start with.
-/

set_option autoImplicit false
set_option relaxedAutoImplicit false

namespace Primer

/-- The arithmetic operators. -/
inductive Arith where
  | add
  | sub
  | mul
  | div
deriving DecidableEq

/-- The comparisons of numbers by size. -/
inductive Order where
  | less
  | lessEq
  | greater
  | greaterEq
deriving DecidableEq

def Arith.apply : Arith → Number → Number → Number
  | add => Number.add
  | sub => Number.sub
  | mul => Number.mul
  | div => Number.div

def Order.apply : Order → Number → Number → Bool
  | less, a, b => a.less b
  | lessEq, a, b => a.lessEq b
  | greater, a, b => b.less a
  | greaterEq, a, b => b.lessEq a

/-- What an instruction does, its operand apart. -/
inductive Opcode where
  | jump
  | jumpIf
  | push
  | pop
  | dup
  | arith (op : Arith)
  | order (op : Order)
  | equal
  | notEqual
  | load
  | store
  | invert
  | negate
  | convert
  | free
  | call
  | ret
  | callHost
  | makeList
  | getItem
  | setItem
deriving DecidableEq

namespace Opcode

/-- All opcodes, in the order of their bytes. -/
def all : Array Opcode :=
  #[jump, jumpIf, push, pop, dup, arith .add, arith .sub, arith .mul, arith .div, order .less,
    order .lessEq, order .greater, order .greaterEq, equal, notEqual, load, store, invert, negate,
    convert, free, call, ret, callHost, makeList, getItem, setItem]

def byte : Opcode → UInt8
  | jump => 0
  | jumpIf => 1
  | push => 2
  | pop => 3
  | dup => 4
  | arith .add => 5
  | arith .sub => 6
  | arith .mul => 7
  | arith .div => 8
  | order .less => 9
  | order .lessEq => 10
  | order .greater => 11
  | order .greaterEq => 12
  | equal => 13
  | notEqual => 14
  | load => 15
  | store => 16
  | invert => 17
  | negate => 18
  | convert => 19
  | free => 20
  | call => 21
  | ret => 22
  | callHost => 23
  | makeList => 24
  | getItem => 25
  | setItem => 26

def ofByte? (byte : UInt8) : Option Opcode := all[byte.toNat]?

theorem ofByte?_byte (op : Opcode) : ofByte? op.byte = some op := by
  cases op with
  | arith op => cases op <;> rfl
  | order op => cases op <;> rfl
  | _ => rfl

def mnemonic : Opcode → String
  | jump => "JUMP"
  | jumpIf => "JUMP_IF"
  | push => "PUSH"
  | pop => "POP"
  | dup => "DUP"
  | arith .add => "ADD"
  | arith .sub => "SUB"
  | arith .mul => "MUL"
  | arith .div => "DIV"
  | order .less => "LESS"
  | order .lessEq => "LESS_EQ"
  | order .greater => "GREATER"
  | order .greaterEq => "GREATER_EQ"
  | equal => "EQUAL"
  | notEqual => "NOT_EQUAL"
  | load => "LOAD"
  | store => "STORE"
  | invert => "INVERT"
  | negate => "NEGATE"
  | convert => "CONVERT"
  | free => "FREE"
  | call => "CALL"
  | ret => "RETURN"
  | callHost => "CALL_EXTERN"
  | makeList => "MAKE_LIST"
  | getItem => "GET_ITEM"
  | setItem => "SET_ITEM"

end Opcode

/-- One instruction with its operand. Addresses are byte offsets. -/
inductive Instruction where
  | jump (target : Nat)
  | jumpIf (target : Nat)
  | push (value : Value)
  | pop
  | dup
  | arith (op : Arith)
  | order (op : Order)
  | equal
  | notEqual
  | load (slot : UInt8)
  | store (slot : UInt8)
  | invert
  | negate
  | convert (target : Ty)
  | free (slot : UInt8)
  | call (target : Nat)
  | ret
  | callHost (name : String)
  | makeList (count : UInt16)
  | getItem (type : Ty)
  | setItem

namespace Instruction

def opcode : Instruction → Opcode
  | jump _ => .jump
  | jumpIf _ => .jumpIf
  | push _ => .push
  | pop => .pop
  | dup => .dup
  | arith op => .arith op
  | order op => .order op
  | equal => .equal
  | notEqual => .notEqual
  | load _ => .load
  | store _ => .store
  | invert => .invert
  | negate => .negate
  | convert _ => .convert
  | free _ => .free
  | call _ => .call
  | ret => .ret
  | callHost _ => .callHost
  | makeList _ => .makeList
  | getItem _ => .getItem
  | setItem => .setItem

/-- The address that control may pass to, other than the next instruction's. -/
def target? : Instruction → Option Nat
  | jump target | jumpIf target | call target => some target
  | _ => none

end Instruction

end Primer
