import Primer.Host.Table
import Primer.Machine.Error
import Primer.Machine.Locals

/-!
The machine and its steps. A step is a function on the machine's state alone: where a program
calls the host, the machine stops with a request and goes on when it is given the reply.

Locals and the operand stack outlive the code: loading other code goes back to its start and
keeps the rest.
-/

set_option autoImplicit false
set_option relaxedAutoImplicit false

namespace Primer

/-- The limits of a machine, and whether it verifies what it loads. -/
structure Config where
  maxCallDepth : Nat := 1000
  /-- How many instructions a run may start. It is unbounded, as the count of the steps is. -/
  maxSteps : Option Nat := none
  maxStackSize : Nat := 10000
  verify : Bool := true
deriving DecidableEq

structure Machine where
  config : Config := {}
  code : Bytecode := {}
  /-- The offset of the next instruction. -/
  ip : Nat := 0
  /-- The operand stack, top first. -/
  stack : List Value := []
  /-- The return addresses of the active calls, innermost first. -/
  calls : List Nat := []
  locals : Locals := {}
  /-- How many instructions the current run has started. Both this count and its limit are unbounded
  numbers; numbers of 64 bits would differ from them only after 2 ^ 64 instructions. -/
  steps : Nat := 0

/-- A call of a host procedure that waits for its reply. -/
structure HostCall where
  name : String
  signature : Signature
  arguments : List Value

/-- What keeps an instruction from being carried out. -/
inductive Trouble where
  | fault (fault : Fault)
  | mishap (mishap : Mishap)

/-- Where an instruction leads. -/
inductive Effect where
  | next (machine : Machine)
  | halt (machine : Machine)
  | request (call : HostCall) (machine : Machine)

/-- Where a step leads. -/
inductive Progress where
  | running (machine : Machine)
  | halted (machine : Machine)
  | failed (error : MachineError) (machine : Machine)
  | calling (call : HostCall) (machine : Machine)

namespace Stack

/-- Take a value off a stack. -/
def pop : List Value → Except Trouble (Value × List Value)
  | value :: rest => .ok (value, rest)
  | [] => .error (.fault .underflow)

def popNumber (stack : List Value) : Except Trouble (Number × List Value) := do
  match ← pop stack with
  | (.number n, rest) => return (n, rest)
  | (other, _) => throw (.fault (.wrongType .number other.type))

def popBoolean (stack : List Value) : Except Trouble (Bool × List Value) := do
  match ← pop stack with
  | (.boolean b, rest) => return (b, rest)
  | (other, _) => throw (.fault (.wrongType .boolean other.type))

def popList (stack : List Value) : Except Trouble (List Value × List Value) := do
  match ← pop stack with
  | (.list items, rest) => return (items, rest)
  | (other, _) => throw (.fault (.wrongType .list other.type))

/-- Two values of one type, and whether they are equal. -/
def popSame (stack : List Value) : Except Trouble (Bool × List Value) := do
  let (b, rest) ← pop stack
  let (a, rest) ← pop rest
  if a.type = b.type then
    return (a.equal b, rest)
  else
    throw (.fault (.wrongType a.type b.type))

/-- A number of values, the topmost last. -/
def popMany (count : Nat) (stack : List Value) : Except Trouble (List Value × List Value) :=
  if count ≤ stack.length then
    .ok ((stack.take count).reverse, stack.drop count)
  else
    .error (.fault .underflow)

end Stack

/-- The place in a list that a position stands for; positions count from one. -/
def itemPlace (index : Number) (length : Nat) : Except Trouble Nat :=
  match index.toNat? with
  | some (place + 1) =>
    if place < length then .ok place else .error (.mishap (.noItem index length))
  | _ => .error (.mishap (.noItem index length))

/-- The arguments have the types of the parameters; otherwise the first that does not. -/
def checkArguments : List Value → List Ty → Except Trouble Unit
  | value :: values, expected :: types =>
    if value.type = expected then checkArguments values types
    else .error (.fault (.wrongType expected value.type))
  | _, _ => .ok ()

namespace Machine

instance : Inhabited Machine := ⟨{}⟩

def push (m : Machine) (value : Value) : Machine := { m with stack := value :: m.stack }

/-- Go on at an address. The end of the code is one. -/
def jump (m : Machine) (target : Nat) : Except Trouble Machine :=
  if target ≤ m.code.size then .ok { m with ip := target }
  else .error (.fault (.jumpOutOfRange target))

/-- Carry out an instruction. The machine already points behind it. -/
def execute (hosts : String → Option Signature) (m : Machine) :
    Instruction → Except Trouble Effect
  | .jump target => return .next (← m.jump target)
  | .jumpIf target => do
    let (taken, stack) ← Stack.popBoolean m.stack
    let m := { m with stack }
    if taken then return .next (← m.jump target) else return .next m
  | .push value => return .next (m.push value)
  | .pop => do
    let (_, stack) ← Stack.pop m.stack
    return .next { m with stack }
  | .dup => do
    let (top, _) ← Stack.pop m.stack
    return .next (m.push top)
  | .arith op => do
    let (b, stack) ← Stack.popNumber m.stack
    let (a, stack) ← Stack.popNumber stack
    return .next { m with stack := .number (op.apply a b) :: stack }
  | .order op => do
    let (b, stack) ← Stack.popNumber m.stack
    let (a, stack) ← Stack.popNumber stack
    return .next { m with stack := .boolean (op.apply a b) :: stack }
  | .equal => do
    let (same, stack) ← Stack.popSame m.stack
    return .next { m with stack := .boolean same :: stack }
  | .notEqual => do
    let (same, stack) ← Stack.popSame m.stack
    return .next { m with stack := .boolean (!same) :: stack }
  | .load slot =>
    match m.locals.get? slot with
    | some value => return .next (m.push value)
    | none => throw (.fault (.emptySlot slot))
  | .store slot => do
    let (value, stack) ← Stack.pop m.stack
    return .next { m with stack, locals := m.locals.set slot value }
  | .free slot => return .next { m with locals := m.locals.free slot }
  | .invert => do
    let (b, stack) ← Stack.popBoolean m.stack
    return .next { m with stack := .boolean (!b) :: stack }
  | .negate => do
    let (n, stack) ← Stack.popNumber m.stack
    return .next { m with stack := .number n.neg :: stack }
  | .convert target => do
    let (value, stack) ← Stack.pop m.stack
    if value.type.convertsTo target then
      match value.convert target with
      | .ok converted => return .next { m with stack := converted :: stack }
      | .error failure => throw (.mishap (.conversion failure))
    else
      throw (.fault (.noConversion value.type target))
  | .call target => do
    if m.config.maxCallDepth ≤ m.calls.length then
      throw (.mishap (.callDepth m.config.maxCallDepth))
    return .next (← { m with calls := m.ip :: m.calls }.jump target)
  | .ret =>
    match m.calls with
    | [] => return .halt m
    | address :: calls =>
      if address ≤ m.code.size then return .next { m with ip := address, calls }
      else throw (.fault (.badReturn address))
  | .callHost name => do
    let some signature := hosts name | throw (.fault (.unknownHost name))
    let (arguments, stack) ← Stack.popMany signature.params.length m.stack
    checkArguments arguments signature.params
    return .request ⟨name, signature, arguments⟩ { m with stack }
  | .makeList count => do
    let (items, stack) ← Stack.popMany count.toNat m.stack
    return .next { m with stack := .list items :: stack }
  | .getItem expected => do
    let (index, stack) ← Stack.popNumber m.stack
    let (items, stack) ← Stack.popList stack
    let place ← itemPlace index items.length
    let item := items.getD place .void
    if item.type = expected then
      return .next { m with stack := item :: stack }
    else
      throw (.mishap (.itemType index item.type expected))
  | .setItem => do
    let (value, stack) ← Stack.pop m.stack
    let (index, stack) ← Stack.popNumber stack
    let (items, stack) ← Stack.popList stack
    let place ← itemPlace index items.length
    return .next { m with stack := .list (items.set place value) :: stack }

/-- The machine after a failure: both stacks are given up, the locals are kept. -/
def abandon (m : Machine) : Machine := { m with stack := [], calls := [] }

/-- Fail while an instruction at an offset is carried out. -/
def fail (m : Machine) (offset : Nat) : Trouble → Progress
  | .fault fault => .failed (.fatal fault offset) m.abandon
  | .mishap mishap => .failed (.runtime mishap m.calls.reverse) m.abandon

/-- The limit that is exceeded before the next instruction, if any. -/
def exceeded? (m : Machine) : Option Mishap :=
  match m.config.maxSteps with
  | some limit =>
    if limit < m.steps then some (.stepLimit limit)
    else if m.config.maxStackSize < m.stack.length then some (.stackLimit m.config.maxStackSize)
    else none
  | none =>
    if m.config.maxStackSize < m.stack.length then some (.stackLimit m.config.maxStackSize)
    else none

/-- Take one step: count it, check the limits, decode the instruction and carry it out. A machine
at the end of its code has halted. -/
def step (hosts : String → Option Signature) (before : Machine) : Progress :=
  if before.ip < before.code.size then
    let m := { before with steps := before.steps + 1 }
    match m.exceeded? with
    | some mishap => .failed (.runtime mishap []) m.abandon
    | none =>
      match m.code.decodeAt m.ip with
      | .error fault => .failed (.fatal (.undecodable fault) fault.offset) m.abandon
      | .ok (instruction, next) =>
        let m := { m with ip := next }
        match m.execute hosts instruction with
        | .ok (.next m) => .running m
        | .ok (.halt m) => .halted m
        | .ok (.request call m) => .calling call m
        | .error trouble => m.fail before.ip trouble
  else
    .halted before

/-- Go on after a host call. What a procedure without a result answers is dropped; any other has
to answer with a value of its type. -/
def resume (m : Machine) (call : HostCall) (reply : HostReply) : Progress :=
  let trouble (mishap : Mishap) : Progress :=
    .failed (.runtime mishap m.calls.reverse) m.abandon
  match reply with
  | .error reason => trouble (.hostFailed call.name reason)
  | .ok answer =>
    if call.signature.returns = .void then
      .running m
    else
      match answer with
      | none => trouble (.hostSilent call.name call.signature.returns)
      | some value =>
        if value.type = call.signature.returns then .running (m.push value)
        else trouble (.hostReturned call.name value.type call.signature.returns)

/-- Load code, which has to pass verification if the machine asks for it. -/
def load (m : Machine) (code : Bytecode) : Except MachineError Machine :=
  let loaded := { m with code, ip := 0 }
  if m.config.verify then
    match code.verify with
    | .ok _ => .ok loaded
    | .error fault => .error (.fatal (.rejected fault) fault.offset)
  else
    .ok loaded

/-- Drop all state but the code and the configuration. -/
def reset (m : Machine) : Machine := { config := m.config, code := m.code }

/-- The result of the last top-level statement that had one. -/
def result? (m : Machine) : Option Value := m.locals.get? resultSlot

/-- The machine under inspection, with the table of its host. -/
def inspect {μ : Type → Type} (m : Machine) (hosts : HostTable μ) : String :=
  "VirtualMachine \x7b ip: " ++ toString m.ip ++ ", code_len: " ++ toString m.code.size
    ++ ", stack: [" ++ Value.join ", " (m.stack.reverse.map Value.inspect)
    ++ "], call_stack: [" ++ Value.join ", " (m.calls.reverse.map toString)
    ++ "], externs: " ++ hosts.inspect ++ " \x7d"

end Machine

end Primer
