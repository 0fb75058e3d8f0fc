import Primer.Bytes
import Primer.Instruction
import Primer.Text.Units

/-!
The encoded forms of values and instructions. All fields are little-endian. A value is the tag of
its type and a payload: one byte for a boolean, the bit pattern of a number, a count of 16-bit
units and the units of a string, a count of items and the items of a list. An instruction is the
byte of its opcode and its operand.

`check` says whether a thing has an encoded form and `write` gives the bytes.
-/

set_option autoImplicit false
set_option relaxedAutoImplicit false

namespace Primer

/-- The things whose length is encoded in 16 bits. -/
inductive Sequence where
  | string
  | list
deriving DecidableEq

def Sequence.name : Sequence → String
  | string => "string"
  | list => "list"

/-- Why something has no encoded form. -/
inductive EncodeFault where
  | void
  | tooLong (what : Sequence) (length : Nat)
deriving DecidableEq

namespace EncodeFault

/-- The largest length that fits its field. -/
def maxLength : Nat := 65535

def message : EncodeFault → String
  | void => "cannot encode a void value"
  | tooLong what length =>
    what.name ++ " is too long to encode (" ++ toString length ++ " > " ++ toString maxLength ++ ")"

/-- A length fits its field. -/
def checkLength (what : Sequence) (length : Nat) : Except EncodeFault Unit :=
  if length ≤ maxLength then .ok () else .error (tooLong what length)

end EncodeFault

namespace Value

mutual

/-- The value has an encoded form; otherwise the first reason, from outside in and left to right. -/
def check : Value → Except EncodeFault Unit
  | number _ | boolean _ => .ok ()
  | string s => EncodeFault.checkLength .string (Text.unitCount s.toList)
  | list items => do
    EncodeFault.checkLength .list items.length
    checkItems items
  | void => .error .void

def checkItems : List Value → Except EncodeFault Unit
  | [] => .ok ()
  | item :: items => do
    check item
    checkItems items

end

mutual

/-- The encoded form of a value that passes `check`. -/
def write : Value → List UInt8
  | number n => Ty.number.tag :: Bytes.little 8 n.bits.toNat
  | string s =>
    let units := Text.units s.toList
    Ty.string.tag :: (Bytes.little 2 units.length ++ units.flatMap fun u => Bytes.little 2 u.toNat)
  | boolean b => [Ty.boolean.tag, if b then 1 else 0]
  | list items => Ty.list.tag :: (Bytes.little 2 items.length ++ writeItems items)
  | void => [Ty.void.tag]

def writeItems : List Value → List UInt8
  | [] => []
  | item :: items => write item ++ writeItems items

end

def encode (value : Value) : Except EncodeFault (List UInt8) := do
  value.check
  return value.write

end Value

namespace Instruction

/-- The instruction has an encoded form. -/
def check : Instruction → Except EncodeFault Unit
  | push value => value.check
  | callHost name => (Value.string name).check
  | _ => .ok ()

/-- The operand of an instruction that passes `check`. -/
def writeOperand : Instruction → List UInt8
  | jump target | jumpIf target | call target => Bytes.little 4 target
  | push value => value.write
  | load slot | store slot | free slot => [slot]
  | convert type | getItem type => [type.tag]
  | callHost name => (Value.string name).write
  | makeList count => Bytes.little 2 count.toNat
  | _ => []

/-- The encoded form of an instruction that passes `check`. -/
def write (i : Instruction) : List UInt8 :=
  i.opcode.byte :: i.writeOperand

/-- How many bytes the encoded form takes. -/
def size (i : Instruction) : Nat := i.write.length

def encode (i : Instruction) : Except EncodeFault (List UInt8) := do
  i.check
  return i.write

/-- The encoded forms of instructions, one after another. -/
def encodeAll (instructions : List Instruction) : Except EncodeFault (List UInt8) := do
  instructions.forM check
  return instructions.flatMap write

end Instruction

end Primer
