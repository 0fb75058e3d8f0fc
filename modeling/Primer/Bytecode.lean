import Primer.Encoding

/-!
Bytecode: a buffer of encoded instructions, read from any offset. Decoding says where the next
instruction starts, or what is wrong and where.
-/

set_option autoImplicit false
set_option relaxedAutoImplicit false

namespace Primer

/-- What stops decoding, with the offset it is found at. -/
inductive DecodeFault where
  | invalidOpcode (byte : UInt8) (offset : Nat)
  | invalidTag (byte : UInt8) (offset : Nat)
  | voidValue (offset : Nat)
  | truncated (offset : Nat) (needed : Nat)
  | invalidString (offset : Nat)
  | expectedString (offset : Nat)
  | badTarget (target : Nat) (offset : Nat)
deriving DecidableEq

namespace DecodeFault

def offset : DecodeFault → Nat
  | invalidOpcode _ offset | invalidTag _ offset | voidValue offset | truncated offset _
  | invalidString offset | expectedString offset | badTarget _ offset => offset

def message : DecodeFault → String
  | invalidOpcode byte offset =>
    "invalid opcode byte " ++ Bytes.hex byte ++ " at offset " ++ toString offset
  | invalidTag byte offset =>
    "invalid type tag " ++ Bytes.hex byte ++ " at offset " ++ toString offset
  | voidValue offset => "void value encoded at offset " ++ toString offset
  | truncated offset needed =>
    "truncated operand at offset " ++ toString offset ++ ": need " ++ toString needed ++ " bytes"
  | invalidString offset => "invalid UTF-16 string at offset " ++ toString offset
  | expectedString offset => "expected a string at offset " ++ toString offset
  | badTarget target offset =>
    "jump target " ++ toString target ++ " at offset " ++ toString offset
      ++ " is not an instruction boundary"

end DecodeFault

/-- A buffer of encoded instructions. Compiled code starts with a jump to its entry point, then
has the procedures' code, then the top-level code. -/
structure Bytecode where
  bytes : Array UInt8 := #[]
deriving DecidableEq

/-- Reads from a buffer at an offset that moves forward. -/
abbrev Decoder := StateT Nat (Except DecodeFault)

namespace Bytecode

instance : Inhabited Bytecode := ⟨{}⟩

def ofList (bytes : List UInt8) : Bytecode := ⟨bytes.toArray⟩

def size (code : Bytecode) : Nat := code.bytes.size

/-- The next `width` bytes. -/
def take (code : Bytecode) (width : Nat) : Decoder (List UInt8) := fun offset =>
  if offset + width ≤ code.size then
    .ok ((code.bytes.extract offset (offset + width)).toList, offset + width)
  else
    .error (.truncated offset width)

/-- The next `width` bytes as a little-endian number. -/
def readNat (code : Bytecode) (width : Nat) : Decoder Nat :=
  return Bytes.value (← code.take width)

def readByte (code : Bytecode) : Decoder UInt8 :=
  return UInt8.ofNat (← code.readNat 1)

def readType (code : Bytecode) : Decoder Ty := do
  let offset ← get
  let byte ← code.readByte
  match Ty.ofTag? byte with
  | some type => return type
  | none => throw (.invalidTag byte offset)

/-- Read `count` things after another; those read before are at hand, last first. -/
def readOnto {α : Type} (one : Decoder α) : Nat → List α → Decoder (List α)
  | 0, done => return done.reverse
  | count + 1, done => do
    let next ← one
    readOnto one count (next :: done)

/-- Read `count` things after another. -/
def readMany {α : Type} (one : Decoder α) (count : Nat) : Decoder (List α) :=
  readOnto one count []

/-- Read a value. A value inside a value starts at least three bytes later, so as much fuel as
bytes are left is enough. -/
def readValueWithin (code : Bytecode) : Nat → Decoder Value
  | 0 => do throw (.truncated (← get) 1)
  | fuel + 1 => do
    let offset ← get
    match ← code.readType with
    | .number => return .number ⟨UInt64.ofNat (← code.readNat 8)⟩
    | .boolean => return .boolean ((← code.readByte) == 1)
    | .string => do
      let count ← code.readNat 2
      let units ← readMany (code.readNat 2) count
      match Text.ofUnits? (units.map UInt16.ofNat) with
      | some cs => return .string (String.ofList cs)
      | none => throw (.invalidString offset)
    | .list => do
      let count ← code.readNat 2
      return .list (← readMany (readValueWithin code fuel) count)
    | .void => throw (.voidValue offset)

def readValue (code : Bytecode) : Decoder Value := fun offset =>
  code.readValueWithin (code.size - offset + 1) offset

def readString (code : Bytecode) : Decoder String := do
  let offset ← get
  match ← code.readValue with
  | .string s => return s
  | _ => throw (.expectedString offset)

/-- Read an address. The field is signed and an address is not. -/
def readAddress (code : Bytecode) : Decoder Nat := do
  let offset ← get
  let address ← code.readNat 4
  if address < 0x80000000 then return address else throw (.badTarget address offset)

def readOpcode (code : Bytecode) : Decoder Opcode := do
  let offset ← get
  let byte ← code.readByte
  match Opcode.ofByte? byte with
  | some op => return op
  | none => throw (.invalidOpcode byte offset)

/-- Read the operand of an opcode. -/
def readOperand (code : Bytecode) : Opcode → Decoder Instruction
  | .jump => return .jump (← code.readAddress)
  | .jumpIf => return .jumpIf (← code.readAddress)
  | .push => return .push (← code.readValue)
  | .pop => return .pop
  | .dup => return .dup
  | .arith op => return .arith op
  | .order op => return .order op
  | .equal => return .equal
  | .notEqual => return .notEqual
  | .load => return .load (← code.readByte)
  | .store => return .store (← code.readByte)
  | .invert => return .invert
  | .negate => return .negate
  | .convert => return .convert (← code.readType)
  | .free => return .free (← code.readByte)
  | .call => return .call (← code.readAddress)
  | .ret => return .ret
  | .callHost => return .callHost (← code.readString)
  | .makeList => return .makeList (UInt16.ofNat (← code.readNat 2))
  | .getItem => return .getItem (← code.readType)
  | .setItem => return .setItem

def readInstruction (code : Bytecode) : Decoder Instruction := do
  code.readOperand (← code.readOpcode)

/-- The opcode at an offset, whether or not an instruction starts there. -/
def opcodeAt (code : Bytecode) (offset : Nat) : Except DecodeFault Opcode :=
  Prod.fst <$> code.readOpcode offset

/-- The signed 32-bit field at an offset. -/
def int32At (code : Bytecode) (offset : Nat) : Except DecodeFault Int :=
  (fun found => Int.bmod found.1 0x100000000) <$> code.readNat 4 offset

/-- The value at an offset, and the offset after it. -/
def valueAt (code : Bytecode) (offset : Nat) : Except DecodeFault (Value × Nat) :=
  code.readValue offset

/-- The instruction at an offset, and the offset of the next one. -/
def decodeAt (code : Bytecode) (offset : Nat) : Except DecodeFault (Instruction × Nat) :=
  code.readInstruction offset

/-- Where the jump at the start leads. -/
def entryPoint (code : Bytecode) : Except DecodeFault Nat := do
  match ← code.decodeAt 0 with
  | (.jump target, _) => return target
  | (other, _) => throw (.invalidOpcode other.opcode.byte 0)

/-- Instructions with their offsets, and the fault that ends them, if one does. -/
structure Walk where
  instructions : List (Nat × Instruction) := []
  fault : Option DecodeFault := none

/-- Decode instruction after instruction from an offset to the end or to the first fault. Each
takes a byte at least, so as much fuel as bytes are left is enough. -/
def walkFrom (code : Bytecode) : Nat → Nat → Walk
  | 0, _ => {}
  | fuel + 1, offset =>
    if offset < code.size then
      match code.decodeAt offset with
      | .ok (instruction, next) =>
        let rest := walkFrom code fuel next
        { rest with instructions := (offset, instruction) :: rest.instructions }
      | .error fault => { fault := some fault }
    else
      {}

/-- All instructions in layout order. -/
def walk (code : Bytecode) : Walk :=
  code.walkFrom code.size 0

end Bytecode

end Primer
