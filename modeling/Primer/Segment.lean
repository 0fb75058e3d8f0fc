import Primer.Encoding

/-!
Segments: bytes under construction whose place in the finished buffer is not yet known. An
address written as relocated counts from the segment's start, and placing the segment adds the
place to it. The target of a jump to code that comes later is left open and filled in when the code
has come to there.
-/

set_option autoImplicit false
set_option relaxedAutoImplicit false

namespace Primer

namespace Value

mutual

/-- Write a value behind some bytes, item by item. At the first thing without an encoded form the
writing stops, and what was written before it stays. -/
def emit : Value → Array UInt8 → Array UInt8 × Option EncodeFault
  | list items, bytes =>
    match EncodeFault.checkLength .list items.length with
    | .ok _ => emitItems items (bytes ++ (Ty.list.tag :: Bytes.little 2 items.length))
    | .error fault => (bytes, some fault)
  | value, bytes =>
    match value.check with
    | .ok _ => (bytes ++ value.write, none)
    | .error fault => (bytes, some fault)

def emitItems : List Value → Array UInt8 → Array UInt8 × Option EncodeFault
  | [], bytes => (bytes, none)
  | item :: items, bytes =>
    match emit item bytes with
    | (more, none) => emitItems items more
    | (more, some fault) => (more, some fault)

end

end Value

/-- Bytes, and the offsets of the four-byte fields that move with the segment. -/
@[ext] structure Segment where
  bytes : Array UInt8 := #[]
  relocations : List Nat := []
deriving DecidableEq

namespace Segment

instance : Inhabited Segment := ⟨{}⟩

def size (s : Segment) : Nat := s.bytes.size

def append (s : Segment) (bytes : List UInt8) : Segment :=
  { s with bytes := s.bytes ++ bytes }

def byte (s : Segment) (b : UInt8) : Segment := s.append [b]

def opcode (s : Segment) (op : Opcode) : Segment := s.byte op.byte

def count (s : Segment) (n : UInt16) : Segment := s.append (Bytes.little 2 n.toNat)

def type (s : Segment) (ty : Ty) : Segment := s.byte ty.tag

/-- Append a value's encoded form. What was written of a value without one is cut off again. -/
def emitValue (s : Segment) (v : Value) : Segment × Option EncodeFault :=
  match v.emit s.bytes with
  | (bytes, none) => ({ s with bytes }, none)
  | (bytes, some fault) => ({ s with bytes := bytes.take s.size }, some fault)

/-- The segment with a value's encoded form behind it, if there is one. -/
def value (s : Segment) (v : Value) : Except EncodeFault Segment :=
  match s.emitValue v with
  | (after, none) => .ok after
  | (_, some fault) => .error fault

/-- An address that is final as written. -/
def absolute (s : Segment) (address : Nat) : Segment := s.append (Bytes.little 4 address)

/-- An offset into this segment, to be moved with it. -/
def relocated (s : Segment) (offset : Nat) : Segment :=
  { s.absolute offset with relocations := s.relocations ++ [s.size] }

/-- Leave room for an address; also gives the offset of the room. -/
def reserve (s : Segment) (moves : Bool) : Nat × Segment :=
  (s.size, if moves then s.relocated 0 else s.absolute 0)

/-- Replace bytes from an offset on; those that would fall outside are dropped. -/
def overwrite (bytes : Array UInt8) (offset : Nat) : List UInt8 → Array UInt8
  | [] => bytes
  | b :: more => overwrite (bytes.setIfInBounds offset b) (offset + 1) more

/-- Write an address into a field. -/
def patch (s : Segment) (offset : Nat) (address : Int) : Segment :=
  { s with bytes := overwrite s.bytes offset (Bytes.little 4 (address % 0x100000000).toNat) }

/-- The four-byte field at an offset. -/
def field (bytes : Array UInt8) (offset : Nat) : Nat :=
  Bytes.value (bytes.extract offset (offset + 4)).toList

/-- Add a displacement to the four-byte field at an offset. -/
def move (displacement : Nat) (bytes : Array UInt8) (offset : Nat) : Array UInt8 :=
  overwrite bytes offset (Bytes.little 4 (field bytes offset + displacement))

/-- The segment's bytes behind those of a buffer, with the relocated addresses moved there. -/
def placeAfter (s : Segment) (out : Array UInt8) : Array UInt8 :=
  (s.relocations.map (out.size + ·)).foldl (move out.size) (out ++ s.bytes)

/-- Append the operand of an instruction. An address is final as written. -/
def operand (s : Segment) : Instruction → Segment
  | .jump target | .jumpIf target | .call target => s.absolute target
  | .push v => (s.emitValue v).1
  | .load slot | .store slot | .free slot => s.byte slot
  | .convert ty | .getItem ty => s.type ty
  | .callHost name => (s.emitValue (.string name)).1
  | .makeList n => s.count n
  | _ => s

/-- Append an instruction that does not move with the segment. -/
def instruct (s : Segment) (i : Instruction) : Segment := (s.opcode i.opcode).operand i

/-- The address of the next instruction, in a segment that starts at an address. A segment without
one counts from its own start. -/
def here (s : Segment) (home : Option Nat) : Nat := home.getD 0 + s.size

/-- Append a jump to an address, which moves with a segment whose place is not known. -/
def goTo (s : Segment) (home : Option Nat) (op : Opcode) (target : Nat) : Segment :=
  if home.isNone then (s.opcode op).relocated target else (s.opcode op).absolute target

/-- Append a jump whose target is filled in later; also gives the offset of the field for it. -/
def placeholder (s : Segment) (home : Option Nat) (op : Opcode) : Nat × Segment :=
  (s.opcode op).reserve home.isNone

/-- Let a jump whose target was left open lead to the next instruction. -/
def patchHere (s : Segment) (home : Option Nat) (field : Nat) : Segment :=
  s.patch field (s.here home)

end Segment

end Primer
