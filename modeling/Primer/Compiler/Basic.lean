import Primer.Bytecode
import Primer.Compiler.State

/-!
Compilation of units. The code of a node is a fragment built from the fragments of its parts;
definitions of procedures add their code to the library instead. Compiled bytecode is a jump over
the library, the library, and the top-level code of the unit, which ends with a return.

A compiler is changed by a unit only when the whole unit compiles.
-/

set_option autoImplicit false
set_option relaxedAutoImplicit false

namespace Primer

/-- What a call refers to. -/
inductive Callee where
  | drafted (draft : Draft)
  | defined (procedure : Procedure)
  | host (name : String) (signature : Signature)

namespace Callee

def name : Callee → String
  | drafted draft => draft.name
  | defined procedure => procedure.name
  | host name _ => name

def arity : Callee → Nat
  | drafted draft => draft.params.length
  | defined procedure => procedure.params.length
  | host _ signature => signature.params.length

/-- The type of the parameter at a position. That of a draft is looked up anew each time, since
an argument before may have settled it. -/
def expected (callee : Callee) (position : Nat) : Compile (Option Ty) := do
  match callee with
  | drafted draft =>
    let now := (← get).draft.getD draft
    return now.params[position]?.bind (·.type)
  | defined procedure => return procedure.params[position]?.map (·.type)
  | host _ signature => return signature.params[position]?

/-- Procedures of the program are looked up before those of the host. -/
def find (name : String) : Compile Callee := do
  let c ← get
  match c.draft.filter (·.name = name), c.procedure? name, c.hosts.lookup name with
  | some draft, _, _ => return drafted draft
  | none, some procedure, _ => return defined procedure
  | none, none, some signature => return host name signature
  | none, none, none => throw (.unknownProcedure name)

end Callee

namespace UnaryOp

/-- The type of the operand, which is also the type of the whole. -/
def type : UnaryOp → Ty
  | negate => .number
  | invert => .boolean

def instruction : UnaryOp → Instruction
  | negate => .negate
  | invert => .invert

def role : UnaryOp → Role
  | negate => .negation
  | invert => .inversion

end UnaryOp

namespace Compile

/-- A reference to a parameter or variable. A parameter whose type is open takes the type that is
wanted here. -/
def reference (name : String) (want : Option Ty) : Compile Compiled := do
  let c ← get
  match c.paramIndex? name, c.scope.find? name with
  | some position, _ =>
    let param ← paramAt position
    match param.type, want with
    | none, some type =>
      resolveParam position type
      return ⟨some type, [.load param.slot]⟩
    | type, _ => return ⟨type, [.load param.slot]⟩
  | none, some found => return ⟨some found.type, [.load found.slot]⟩
  | none, none => throw (.unknownVariable name)

/-- The two sides of an equality must agree on a type; one that is open takes the other's. -/
def agree (op : BinaryOp) (left right : Node) (leftType rightType : Option Ty) :
    Compile Unit :=
  match leftType, rightType with
  | some a, some b => if a = b then pure () else throw (.typeMismatch (.operand op) a b)
  | none, some b => settle left b
  | some a, none => settle right a
  | none, none => throw (.notEnoughInformation (.sidesOf op))

/-- The two sides of an equality. The right side is compiled knowing the type of the left. -/
def sides (op : BinaryOp) (left right : Node) (leftCompiled : Compile Compiled)
    (rightCompiled : Option Ty → Compile Compiled) : Compile Fragment := do
  let ⟨leftType, leftCode⟩ ← leftCompiled
  if leftType = some .void then
    throw (.noValue (.leftOf op))
  let ⟨rightType, rightCode⟩ ← rightCompiled leftType
  if rightType = some .void then
    throw (.noValue (.rightOf op))
  agree op left right leftType rightType
  return Fragment.sequence [leftCode, rightCode]

/-- The call, after the arguments, and the type that it gives. -/
def finishCall (callee : Callee) (arguments : Fragment) (want : Option Ty) :
    Compile Compiled := do
  match callee with
  | .host name signature =>
    return ⟨some signature.returns, arguments ++ (← emit (.callHost name))⟩
  | .defined procedure =>
    return ⟨some procedure.returns, arguments ++ [.call procedure.address]⟩
  | .drafted draft =>
    let code := arguments ++ [.call draft.address]
    match ((← get).draft.getD draft).returns, want with
    | some type, _ => return ⟨some type, code⟩
    | none, some type =>
      assumeReturn type
      return ⟨some type, code⟩
    | none, none => return ⟨none, code⟩

/-- Store the result of a statement, and remember its type. -/
def finishStatement (node : Node) (compiled : Compiled) : Compile Fragment := do
  let type ← match compiled.type with
    | some type => pure type
    | none =>
      -- A procedure that calls itself as a statement gives back nothing.
      if let .call name _ := node then
        if (← get).drafting name then
          assumeReturn .void
          pure Ty.void
        else
          throw (.notEnoughInformation (.statement node.kind))
      else
        throw (.notEnoughInformation (.statement node.kind))
  let stored ← if type = .void then pure [] else do pure [.store (← resultSlot)]
  modify fun c => { c with prior := type }
  return compiled.code ++ stored

/-- Compile a block in a scope of its own. Results do not pass into it or out of it. -/
def block (statements : Compile (List Fragment)) : Compile Fragment := do
  let outer := (← get).prior
  modify fun c => { c with prior := .void }
  enterScope
  let code ← statements
  let frees ← leaveScope
  modify fun c => { c with prior := outer }
  return Fragment.sequence code ++ frees

/-- The first name that occurs twice. -/
def duplicate? : List String → List String → Option String
  | _, [] => none
  | seen, name :: more => if seen.contains name then some name else duplicate? (name :: seen) more

/-- Slots for the parameters of a procedure. -/
def allocateParams : List Param → Compile (List (Parameter (Option Ty)))
  | [] => return []
  | param :: more => do
    let slot ← allocate
    return ⟨param.name, param.type, slot⟩ :: (← allocateParams more)

/-- Start a procedure: its name must be new, and it stands at the top level. Its address may be any
number; that an address of 2 ^ 32 or more is too large is not checked here. -/
def startDraft (name : String) (params : List Param) (returns : Option Ty) : Compile Unit := do
  let c ← get
  if c.current.isSome || 0 < c.scope.depth then
    throw (.invalidPosition .definition)
  if c.knows name then
    throw (.redefinition name)
  if let some twice := duplicate? [] (params.map (·.name)) then
    throw (.alreadyDeclared twice)
  let draft : Draft :=
    { name, address := c.libraryEnd, params := ← allocateParams params, returns
      declared := returns.isSome }
  modify fun c => { c with current := some name, pending := some draft }

/-- Finish a procedure: all its types must be settled, calls to itself must have been right about
what it gives back, and it must give that back on every path. -/
def finishDraft (name : String) (body : List Node) (code : Fragment) : Compile Unit := do
  let c ← get
  let some draft := c.draftOf? name | throw (.internal (.vanished name))
  if let some param := draft.open? then
    throw (.unresolvedParameter name param.name)
  let procedure := draft.finish
  if let some assumed := draft.assumed then
    if assumed ≠ procedure.returns then
      throw (.typeMismatch (.recursiveCall name) assumed procedure.returns)
  let returns := Node.blockReturns body
  if procedure.returns ≠ .void && !returns then
    throw (.missingReturn name procedure.returns)
  -- Arguments are pushed in order, so the last one is on top.
  let stores : Fragment := (procedure.params.map fun p => .store p.slot).reverse
  let whole := Fragment.sequence [stores, code, if returns then [] else [.ret]]
  set { c with
    current := none
    pending := none
    procedures := c.procedures ++ [procedure]
    library := c.library ++ whole.shift procedure.address }

/-- The type that the procedure being compiled gives back, from one of its returns. Without a
declared type, the last return decides. -/
def noteReturn (draft : Draft) (type : Ty) : Compile Unit := do
  if draft.declared then
    if draft.returns ≠ some type then
      throw (.typeMismatch (.returnFrom draft.name) (draft.returns.getD .void) type)
  else
    modifyDraft fun draft => { draft with returns := some type }

mutual

/-- Compile a node. The type that is wanted where it stands, if any, settles what is open. -/
def node : Node → Option Ty → Compile Compiled
  | .literal value, _ => return ⟨some value.type, ← emit (.push value)⟩
  | .unary op operand, _ => do
    let code ← Compile.operand operand op.type op.role (node operand (some op.type))
    return ⟨some op.type, code ++ [op.instruction]⟩
  | .binary (.arith op) left right, _ => do
    let role := Role.operand (.arith op)
    let leftCode ← Compile.operand left .number role (node left (some .number))
    let rightCode ← Compile.operand right .number role (node right (some .number))
    return ⟨some .number, Fragment.sequence [leftCode, rightCode, [.arith op]]⟩
  | .binary (.order op) left right, _ => do
    let role := Role.operand (.order op)
    let leftCode ← Compile.operand left .number role (node left (some .number))
    let rightCode ← Compile.operand right .number role (node right (some .number))
    return ⟨some .boolean, Fragment.sequence [leftCode, rightCode, [.order op]]⟩
  | .binary (.logic op) left right, _ => do
    let role := Role.operand (.logic op)
    let leftCode ← Compile.operand left .boolean role (node left (some .boolean))
    let rightCode ← Compile.operand right .boolean role (node right (some .boolean))
    return ⟨some .boolean, Fragment.shortCircuit op leftCode rightCode⟩
  | .binary .equal left right, _ => do
    let code ← sides .equal left right (node left none) (fun want => node right want)
    return ⟨some .boolean, code ++ [.equal]⟩
  | .binary .notEqual left right, _ => do
    let code ← sides .notEqual left right (node left none) (fun want => node right want)
    return ⟨some .boolean, code ++ [.notEqual]⟩
  | .result, _ => do
    let prior := (← get).prior
    if prior = .void then
      throw .noPriorResult
    return ⟨some prior, [.load (← resultSlot)]⟩
  | .var name, want => reference name want
  | .declare name type value, _ => do
    if (← get).isVisible name then
      throw (.alreadyDeclared name)
    let slot ← allocate
    let (type, code) ← initial name type value
    modify fun c => { c with scope := c.scope.declare name type slot }
    return ⟨some .void, code ++ [.store slot]⟩
  | .assign name value, _ => do
    let c ← get
    let role := Role.newValue name
    match c.paramIndex? name, c.scope.find? name with
    | some position, _ =>
      let param ← paramAt position
      let (type, code) ← Compile.value value param.type role (node value param.type)
      if param.type.isNone then
        resolveParam position type
      return ⟨some .void, code ++ [.store param.slot]⟩
    | none, some target =>
      let (_, code) ← Compile.value value (some target.type) role (node value (some target.type))
      return ⟨some .void, code ++ [.store target.slot]⟩
    | none, none => throw (.unknownVariable name)
  | .branch condition body otherwise, _ => do
    let test ← Compile.operand condition .boolean .ifCondition (node condition (some .boolean))
    let bodyCode ← block (statements body)
    match otherwise with
    | none => return ⟨some .void, Fragment.conditional test bodyCode⟩
    | some other =>
      let otherCode ← block (statements other)
      return ⟨some .void, Fragment.alternative test bodyCode otherCode⟩
  | .loop condition body, _ => do
    let test ← Compile.operand condition .boolean .whileCondition (node condition (some .boolean))
    let bodyCode ← block (statements body)
    return ⟨some .void, Fragment.whileLoop test bodyCode⟩
  | .times count body, _ => do
    enterScope
    let countCode ← Compile.operand count .number .repeatCount (node count (some .number))
    let threshold ← allocateScratch
    let counter ← allocateScratch
    let bodyCode ← block (statements body)
    let frees ← leaveScope
    return ⟨some .void, Fragment.countedLoop countCode threshold counter bodyCode ++ frees⟩
  | .call name args, want => do
    let callee ← Callee.find name
    if callee.arity ≠ args.length then
      throw (.arityMismatch name callee.arity args.length)
    let parts ← arguments callee 0 args
    finishCall callee (Fragment.sequence parts) want
  | .define name params returns body, _ => do
    startDraft name params returns
    let code ← block (statements body)
    finishDraft name body code
    return ⟨some .void, []⟩
  | .convert operand target, _ => do
    let ⟨found, code⟩ ← node operand none
    let source ← requireValue found .converted
    if !source.convertsTo target then
      throw (.invalidConversion source target)
    return ⟨some target, code ++ [.convert target]⟩
  | .giveBack value, _ => do
    let some draft := (← get).draft | throw (.invalidPosition .giveBack)
    let (type, code) ← givenBack draft value
    noteReturn draft type
    return ⟨some .void, code ++ [.ret]⟩
  | .list nodes, _ => do
    match Node.literals? nodes with
    | some values => return ⟨some .list, ← emit (.push (.list values))⟩
    | none =>
      if let .error fault := EncodeFault.checkLength .list nodes.length then
        throw (.ofEncodeFault fault)
      let parts ← items 0 nodes
      return ⟨some .list,
        Fragment.sequence parts ++ [.makeList (UInt16.ofNat nodes.length)]⟩
  | .item index list, want => do
    let listCode ← Compile.operand list .list .indexedList (node list (some .list))
    let indexCode ← Compile.operand index .number .index (node index (some .number))
    let type ← match want with
      | none => throw (.notEnoughInformation .thisItem)
      | some .void => throw (.noValue .someItem)
      | some type => pure type
    return ⟨some type, Fragment.sequence [listCode, indexCode, [.getItem type]]⟩
  | .setItem index list value, _ => do
    let .var name := list | throw (.invalidPosition .setItem)
    let listCode ← Compile.operand list .list (.named name) (node list (some .list))
    let slot ← slotOf name
    let indexCode ← Compile.operand index .number .setIndex (node index (some .number))
    let (_, valueCode) ← Compile.value value none .newItem (node value none)
    return ⟨some .void,
      Fragment.sequence [listCode, indexCode, valueCode, [.setItem, .store slot]]⟩

/-- The value that a variable starts with, and its type. -/
def initial (name : String) (type : Option Ty) : Option Node → Compile (Ty × Fragment)
  | some start => Compile.value start type (.initialValue name) (node start type)
  | none =>
    match type with
    | none => throw (.notEnoughInformation (.named name))
    | some type =>
      match Value.initial? type with
      | none => throw (.noValue (.initialValue name))
      | some start => return (type, ← emit (.push start))

/-- The value that a procedure gives back, and its type. -/
def givenBack (draft : Draft) : Option Node → Compile (Ty × Fragment)
  | none => return (.void, [])
  | some expr => do
    let role := Role.givenBack draft.name
    if draft.declared then
      Compile.value expr draft.returns role (node expr draft.returns)
    else
      -- The type so far only fills in what the expression leaves open.
      let ⟨found, code⟩ ← node expr (draft.returns.filter (· ≠ .void))
      return (← requireValue found role, code)

/-- Compile arguments from a position on. -/
def arguments (callee : Callee) : Nat → List Node → Compile (List Fragment)
  | _, [] => return []
  | position, argument :: more => do
    let expected ← callee.expected position
    let role := Role.argument (position + 1) callee.name
    let (type, code) ← Compile.value argument expected role (node argument expected)
    if expected.isNone then
      resolveParam position type
    return code :: (← arguments callee (position + 1) more)

/-- Compile the items of a list from a position on. -/
def items : Nat → List Node → Compile (List Fragment)
  | _, [] => return []
  | position, first :: more => do
    let (_, code) ← Compile.value first none (.listItem (position + 1)) (node first none)
    return code :: (← items (position + 1) more)

/-- Compile statements, one after another. -/
def statements : List Node → Compile (List Fragment)
  | [] => return []
  | first :: more => do
    let compiled ← node first none
    let code ← finishStatement first compiled
    return code :: (← statements more)

end

end Compile

namespace Compiler

/-- The finished buffer: a jump over the library, the library, and the top-level code. That an entry
point at 2 ^ 31 or beyond is too large for the jump is not checked here: the buffer is made in any
case, and where addresses matter its size is asked to be below 2 ^ 31. -/
def assemble (c : Compiler) (top : Fragment) : Bytecode :=
  .ofList (Fragment.bytes ([.jump c.libraryEnd] ++ c.library ++ top.shift c.libraryEnd))

/-- Compile a unit. The bytecode holds every procedure defined so far and the top-level code of
this unit. -/
def compile (c : Compiler) (program : Program) : Except CompileError (Bytecode × Compiler) := do
  let (parts, after) ← (Compile.statements program).run c
  return (after.assemble (Fragment.sequence parts ++ [.ret]), after)

/-- Make the result unavailable until the next statement that has one. -/
def forgetResult (c : Compiler) : Compiler := { c with prior := .void }

/-- The defined procedures by address. -/
def labels (c : Compiler) : List (Nat × String) :=
  c.procedures.map fun p => (p.address, p.name)

end Compiler

end Primer
