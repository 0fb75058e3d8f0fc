import Primer.Compiler.Error
import Primer.Fragment
import Primer.Scope
import Primer.Signature
import Primer.Slots

/-!
What the compiler knows from unit to unit, and the steps on it that the compilation of a node is
made of. A procedure whose body is being compiled is a draft: the types of its parameters and
what it gives back may still be open. A finished procedure has all its types.
-/

set_option autoImplicit false
set_option relaxedAutoImplicit false

namespace Primer

/-- A parameter with the slot that its argument is stored in. -/
structure Parameter (type : Type) where
  name : String
  type : type
  slot : UInt8
deriving DecidableEq

/-- A finished procedure. -/
structure Procedure where
  name : String
  address : Nat
  params : List (Parameter Ty)
  returns : Ty
  /-- Where the results of its statements are kept, if any has one. -/
  resultSlot : Option UInt8
deriving DecidableEq

def Procedure.signature (p : Procedure) : Signature :=
  ⟨p.params.map (·.type), p.returns⟩

/-- The entry of a procedure whose body is being compiled. -/
structure Draft where
  name : String
  address : Nat
  params : List (Parameter (Option Ty))
  returns : Option Ty
  /-- The definition says what the procedure gives back. -/
  declared : Bool
  /-- What a call of the procedure to itself was taken to give back. -/
  assumed : Option Ty := none
  resultSlot : Option UInt8 := none
deriving DecidableEq

namespace Draft

/-- The position of the parameter of a name. -/
def index? (draft : Draft) (name : String) : Option Nat :=
  draft.params.findIdx? (·.name = name)

/-- Fix the type of the parameter at a position. -/
def resolve (draft : Draft) (position : Nat) (type : Ty) : Draft :=
  { draft with
    params := draft.params.modify position fun param => { param with type := some type } }

/-- The first parameter whose type is open. -/
def open? (draft : Draft) : Option (Parameter (Option Ty)) :=
  draft.params.find? (·.type.isNone)

/-- The finished procedure; open types are taken as void. -/
def finish (draft : Draft) : Procedure where
  name := draft.name
  address := draft.address
  params := draft.params.map fun p => ⟨p.name, p.type.getD .void, p.slot⟩
  returns := draft.returns.getD .void
  resultSlot := draft.resultSlot

end Draft

/-- The compiler between two units, or in the middle of one. -/
structure Compiler where
  hosts : List (String × Signature) := []
  /-- The finished procedures, in the order of their definitions and of their code. -/
  procedures : List Procedure := []
  /-- The code of the finished procedures, at its final addresses. -/
  library : Fragment := []
  scope : Scope := {}
  slots : SlotPool := {}
  /-- The name of the procedure whose body is being compiled. -/
  current : Option String := none
  /-- The entry of a procedure that is not finished. -/
  pending : Option Draft := none
  /-- The type of the statement before, in the same block. -/
  prior : Ty := .void

/-- The compiler with the signatures of the host's procedures, and nothing defined yet. -/
def Compiler.new (hosts : List (String × Signature)) : Compiler := { hosts }

/-- Compilation changes the compiler or fails. -/
abbrev Compile := StateT Compiler (Except CompileError)

/-- The code of an expression, which leaves its value on the operand stack, and its type if that
is known. The code of a statement has type void and leaves nothing. -/
structure Compiled where
  type : Option Ty
  code : Fragment

namespace Compiler

/-- Where the procedures' code starts: behind the jump to the entry point. -/
def libraryStart : Nat := Fragment.jumpSize

/-- Where the procedures' code ends, and the next procedure or the top-level code starts. -/
def libraryEnd (c : Compiler) : Nat := libraryStart + c.library.size

def procedure? (c : Compiler) (name : String) : Option Procedure :=
  c.procedures.find? (·.name = name)

/-- The entry of an unfinished procedure of a name. -/
def draftOf? (c : Compiler) (name : String) : Option Draft :=
  c.pending.filter (·.name = name)

/-- The entry of the procedure whose body is being compiled. -/
def draft (c : Compiler) : Option Draft :=
  c.current.bind c.draftOf?

/-- Change the entry of the procedure whose body is being compiled. -/
def redraft (c : Compiler) (f : Draft → Draft) : Compiler :=
  match c.draft with
  | some draft => { c with pending := some (f draft) }
  | none => c

/-- The body of the procedure of a name is being compiled. -/
def drafting (c : Compiler) (name : String) : Bool :=
  c.current = some name

/-- The name already belongs to a procedure. -/
def knows (c : Compiler) (name : String) : Bool :=
  (c.draftOf? name).isSome || (c.procedure? name).isSome || (c.hosts.lookup name).isSome

/-- The position of the parameter of a name. -/
def paramIndex? (c : Compiler) (name : String) : Option Nat :=
  c.draft.bind (·.index? name)

/-- The name belongs to a parameter or a variable. -/
def isVisible (c : Compiler) (name : String) : Bool :=
  (c.paramIndex? name).isSome || (c.scope.find? name).isSome

end Compiler

namespace Compile

def modifyDraft (f : Draft → Draft) : Compile Unit :=
  modify (·.redraft f)

/-- One instruction, which must have an encoded form. -/
def emit (i : Instruction) : Compile Fragment :=
  match i.check with
  | .ok _ => return [i]
  | .error fault => throw (.ofEncodeFault fault)

/-- A slot that is not in use. -/
def allocate : Compile UInt8 := do
  let c ← get
  match c.slots.allocate? with
  | some (slot, slots) =>
    set { c with slots }
    return slot
  | none => throw .tooManySlots

/-- A slot for the loop at the current depth. -/
def allocateScratch : Compile UInt8 := do
  let slot ← allocate
  modify fun c => { c with scope := c.scope.addScratch slot }
  return slot

/-- The slot that results of statements are stored in. A procedure gets one when it is first
needed. -/
def resultSlot : Compile UInt8 := do
  let c ← get
  let some name := c.current | return Primer.resultSlot
  let some draft := c.draftOf? name | throw (.internal (.vanished name))
  match draft.resultSlot with
  | some slot => return slot
  | none =>
    let slot ← allocate
    modifyDraft fun draft => { draft with resultSlot := some slot }
    return slot

def enterScope : Compile Unit :=
  modify fun c => { c with scope := c.scope.enter }

/-- Leave the innermost scope: its slots are given back, and the code frees them. -/
def leaveScope : Compile Fragment := do
  let c ← get
  let (slots, scope) := c.scope.leave
  set { c with scope, slots := slots.foldl SlotPool.release c.slots }
  return slots.map Instruction.free

/-- The parameter at a position of the procedure being compiled. -/
def paramAt (position : Nat) : Compile (Parameter (Option Ty)) := do
  match (← get).draft.bind (·.params[position]?) with
  | some param => return param
  | none => throw (.internal (.noParameter position))

/-- The slot of the parameter or variable of a name. -/
def slotOf (name : String) : Compile UInt8 := do
  let c ← get
  match c.paramIndex? name, c.scope.find? name with
  | some position, _ => return (← paramAt position).slot
  | none, some found => return found.slot
  | none, none => throw (.unknownVariable name)

/-- Fix the type of a parameter of the procedure being compiled. -/
def resolveParam (position : Nat) (type : Ty) : Compile Unit :=
  modifyDraft (·.resolve position type)

/-- A call of the procedure to itself relies on what it gives back. -/
def assumeReturn (type : Ty) : Compile Unit := do
  match (← get).draft with
  | none => throw (.internal .recursionOutside)
  | some draft =>
    match draft.assumed with
    | some before =>
      if before ≠ type then
        throw (.typeMismatch (.recursiveCall draft.name) before type)
    | none => pure ()
    modifyDraft fun draft =>
      { draft with assumed := some type, returns := some (draft.returns.getD type) }

/-- Fix the type of an expression whose type was left open. -/
def settle (node : Node) (type : Ty) : Compile Unit := do
  let c ← get
  match node with
  | .var name =>
    match c.paramIndex? name with
    | some position => resolveParam position type
    | none => throw (.internal (.nothingToSettle node.kind))
  | .call name _ =>
    if c.drafting name then assumeReturn type
    else throw (.internal (.nothingToSettle node.kind))
  | _ => throw (.internal (.nothingToSettle node.kind))

/-- The node, whose type was found, must have a type. -/
def expect (node : Node) (found : Option Ty) (want : Ty) (role : Role) : Compile Unit :=
  match found with
  | some type => if type = want then pure () else throw (.typeMismatch role want type)
  | none => settle node want

/-- The code of a node that must have a type. -/
def operand (node : Node) (want : Ty) (role : Role) (compiled : Compile Compiled) :
    Compile Fragment := do
  let ⟨found, code⟩ ← compiled
  expect node found want role
  return code

/-- The type is known, and is not void. -/
def requireValue (found : Option Ty) (role : Role) : Compile Ty :=
  match found with
  | none => throw (.notEnoughInformation role)
  | some .void => throw (.noValue role)
  | some type => return type

/-- The type and code of a node that gives a value, of a given type if there is one. -/
def value (node : Node) (expected : Option Ty) (role : Role) (compiled : Compile Compiled) :
    Compile (Ty × Fragment) := do
  let ⟨found, code⟩ ← compiled
  match expected with
  | some want =>
    expect node found want role
    return (← requireValue (some want) role, code)
  | none => return (← requireValue found role, code)

end Compile

end Primer
