import Primer.Bytes
import Primer.Node

/-!
The packed form of programs, in which they are handed over as files. Choices and lengths are
variable-length numbers, seven bits a byte and the lowest first, with the high bit set on all
bytes but the last. Options and booleans are a byte 0 or 1, numbers are their bit pattern, strings
a length and their UTF-8 bytes, sequences a length and their members. Bytes behind a program do
not matter.
-/

set_option autoImplicit false
set_option relaxedAutoImplicit false

namespace Primer

/-- Why bytes are no packed program. -/
inductive PackFault where
  | unexpectedEnd
  | badVarint
  | badBoolean
  | badOption
  | badText
  | badChoice
deriving DecidableEq

def PackFault.message : PackFault → String
  | unexpectedEnd => "Hit the end of buffer, expected more data"
  | badVarint => "Found a varint that didn't terminate. Is the usize too big for this platform?"
  | badBoolean => "Found a bool that wasn't 0 or 1"
  | badOption => "Found an Option discriminant that wasn't 0 or 1"
  | badText => "Tried to parse invalid utf-8"
  | badChoice => "Serde Deserialization Error"

namespace Packed

/-- Seven bits a byte, lowest first; every byte but the last has its high bit set. -/
def varint (n : Nat) : List UInt8 :=
  if n < 128 then [UInt8.ofNat n] else UInt8.ofNat (n % 128 + 128) :: varint (n / 128)

def text (s : String) : List UInt8 :=
  let bytes := s.toUTF8.toList
  varint bytes.length ++ bytes

def option {α : Type} (write : α → List UInt8) : Option α → List UInt8
  | none => [0]
  | some a => 1 :: write a

def typeIndex : Ty → Nat
  | .number => 0
  | .string => 1
  | .boolean => 2
  | .list => 3
  | .void => 4

def type (ty : Ty) : List UInt8 := varint (typeIndex ty)

def binaryIndex : BinaryOp → Nat
  | .arith .add => 0
  | .arith .sub => 1
  | .arith .mul => 2
  | .arith .div => 3
  | .logic .and => 4
  | .logic .or => 5
  | .equal => 6
  | .notEqual => 7
  | .order .less => 8
  | .order .greater => 9
  | .order .lessEq => 10
  | .order .greaterEq => 11

def unaryIndex : UnaryOp → Nat
  | .negate => 0
  | .invert => 1

def param (p : Param) : List UInt8 := text p.name ++ option type p.type

def params (ps : List Param) : List UInt8 := varint ps.length ++ ps.flatMap param

mutual

def value : Value → List UInt8
  | .number n => varint 0 ++ Bytes.little 8 n.bits.toNat
  | .string s => varint 1 ++ text s
  | .boolean b => varint 2 ++ [if b then 1 else 0]
  | .list items => varint 3 ++ varint items.length ++ values items
  | .void => varint 4

def values : List Value → List UInt8
  | [] => []
  | first :: more => value first ++ values more

end

mutual

def node : Node → List UInt8
  | .literal v => varint 0 ++ value v
  | .unary op operand => varint 1 ++ varint (unaryIndex op) ++ node operand
  | .binary op left right => varint 2 ++ node left ++ varint (binaryIndex op) ++ node right
  | .result => varint 3
  | .var name => varint 4 ++ text name
  | .declare name ty start => varint 5 ++ text name ++ option type ty ++ nodeOption start
  | .assign name new => varint 6 ++ text name ++ node new
  | .branch condition body otherwise =>
    varint 7 ++ node condition ++ varint body.length ++ nodes body ++ blockOption otherwise
  | .loop condition body => varint 8 ++ node condition ++ varint body.length ++ nodes body
  | .times count body => varint 9 ++ node count ++ varint body.length ++ nodes body
  | .call name arguments => varint 10 ++ text name ++ varint arguments.length ++ nodes arguments
  | .define name ps returns body =>
    varint 11 ++ text name ++ params ps ++ option type returns ++ varint body.length ++ nodes body
  | .convert operand target => varint 12 ++ node operand ++ type target
  | .giveBack expr => varint 13 ++ nodeOption expr
  | .list items => varint 14 ++ varint items.length ++ nodes items
  | .item index list => varint 15 ++ node index ++ node list
  | .setItem index list new => varint 16 ++ node index ++ node list ++ node new

def nodes : List Node → List UInt8
  | [] => []
  | first :: more => node first ++ nodes more

def nodeOption : Option Node → List UInt8
  | none => [0]
  | some n => 1 :: node n

def blockOption : Option (List Node) → List UInt8
  | none => [0]
  | some block => 1 :: (varint block.length ++ nodes block)

end

/-- The packed form of a program. -/
def program (p : Program) : List UInt8 := varint p.length ++ nodes p

/-- Reads from the front of bytes. -/
abbrev Reader := StateT (List UInt8) (Except PackFault)

namespace Reader

def byte : Reader UInt8 := do
  match ← get with
  | [] => throw .unexpectedEnd
  | b :: rest =>
    set rest
    return b

def take (count : Nat) : Reader (List UInt8) := do
  let bytes ← get
  let front := bytes.take count
  if front.length < count then
    throw .unexpectedEnd
  set (bytes.drop count)
  return front

/-- A variable-length number of a given number of bytes at most. When the number takes all of
them, the last has a bound of its own. -/
def varint (lastBound : Nat) : Nat → Reader Nat
  | 0 => throw .badVarint
  | left + 1 => do
    let b ← byte
    if b.toNat < 128 then
      if left = 0 ∧ lastBound < b.toNat then throw .badVarint else return b.toNat
    else
      return b.toNat - 128 + 128 * (← varint lastBound left)

/-- A 32-bit number, which says which of several things follows. -/
def choice : Reader Nat := varint 15 5

/-- A 64-bit number, which says how many things follow. -/
def length : Reader Nat := varint 1 10

def text : Reader String := do
  let bytes ← take (← length)
  match String.fromUTF8? ⟨bytes.toArray⟩ with
  | some s => return s
  | none => throw .badText

def boolean : Reader Bool := do
  match ← byte with
  | 0 => return false
  | 1 => return true
  | _ => throw .badBoolean

def option {α : Type} (one : Reader α) : Reader (Option α) := do
  match ← byte with
  | 0 => return none
  | 1 => return some (← one)
  | _ => throw .badOption

/-- Read things one after another; those read before are at hand, last first. -/
def manyOnto {α : Type} (one : Reader α) : Nat → List α → Reader (List α)
  | 0, done => return done.reverse
  | count + 1, done => do
    let next ← one
    manyOnto one count (next :: done)

/-- A length, and so many things. -/
def sequence {α : Type} (one : Reader α) : Reader (List α) := do
  manyOnto one (← length) []

def type : Reader Ty := do
  match Ty.all[← choice]? with
  | some ty => return ty
  | none => throw .badChoice

def binaryOps : List BinaryOp :=
  [.arith .add, .arith .sub, .arith .mul, .arith .div, .logic .and, .logic .or, .equal, .notEqual,
    .order .less, .order .greater, .order .lessEq, .order .greaterEq]

def binaryOp : Reader BinaryOp := do
  match binaryOps[← choice]? with
  | some op => return op
  | none => throw .badChoice

def unaryOp : Reader UnaryOp := do
  match ← choice with
  | 0 => return .negate
  | 1 => return .invert
  | _ => throw .badChoice

def param : Reader Param := return ⟨← text, ← option type⟩

/-- A value. What is inside it starts at least a byte later, so as much fuel as bytes are left is
enough. -/
def value : Nat → Reader Value
  | 0 => throw .unexpectedEnd
  | fuel + 1 => do
    match ← choice with
    | 0 => return .number ⟨UInt64.ofNat (Bytes.value (← take 8))⟩
    | 1 => return .string (← text)
    | 2 => return .boolean (← boolean)
    | 3 => return .list (← sequence (value fuel))
    | 4 => return .void
    | _ => throw .badChoice

/-- A node, with fuel as for values. -/
def node : Nat → Reader Node
  | 0 => throw .unexpectedEnd
  | fuel + 1 => do
    let inner := node fuel
    let block := sequence inner
    match ← choice with
    | 0 => return .literal (← value fuel)
    | 1 => return .unary (← unaryOp) (← inner)
    | 2 =>
      let left ← inner
      let op ← binaryOp
      return .binary op left (← inner)
    | 3 => return .result
    | 4 => return .var (← text)
    | 5 => return .declare (← text) (← option type) (← option inner)
    | 6 => return .assign (← text) (← inner)
    | 7 => return .branch (← inner) (← block) (← option block)
    | 8 => return .loop (← inner) (← block)
    | 9 => return .times (← inner) (← block)
    | 10 => return .call (← text) (← block)
    | 11 => return .define (← text) (← sequence param) (← option type) (← block)
    | 12 => return .convert (← inner) (← type)
    | 13 => return .giveBack (← option inner)
    | 14 => return .list (← block)
    | 15 => return .item (← inner) (← inner)
    | 16 => return .setItem (← inner) (← inner) (← inner)
    | _ => throw .badChoice

end Reader

/-- The program that bytes start with. -/
def read (bytes : List UInt8) : Except PackFault Program := do
  let (program, _) ← (Reader.sequence (Reader.node bytes.length)).run bytes
  return program

end Packed

end Primer
