import Primer.Compiler.Basic
import Primer.Machine.Basic

/-!
The meaning of programs without procedures, given by an interpreter of trees. It knows names and
values only: no slots, no stack and no code. Expressions leave the variables as they are and may
call the host; statements change them. A block's variables last as long as the block, and every
statement that has a value leaves it as the result.
-/

set_option autoImplicit false
set_option relaxedAutoImplicit false

namespace Primer

/-- The left side alone decides. -/
def Logic.decides : Logic → Bool → Bool
  | .and, left => !left
  | .or, left => left

/-- The node defines a procedure. -/
def Node.isDefinition : Node → Bool
  | .define .. => true
  | _ => false

/-- The unit defines no procedure. -/
def Program.Procedureless (program : Program) : Prop := ∀ n ∈ program, n.isDefinition = false

instance (program : Program) : Decidable (Program.Procedureless program) :=
  inferInstanceAs (Decidable (∀ n ∈ program, n.isDefinition = false))

namespace Interpreter

/-- Why a unit is not interpreted to its end. -/
inductive Halt where
  | mishap (mishap : Mishap)
  /-- An operation was given something that it does not apply to. -/
  | stuck
  /-- The result was not of the type of the statement before. -/
  | misread
  /-- A loop made as many rounds as it may. -/
  | exhausted

/-- The variables, newest first, and the result. -/
structure Store where
  entries : List (String × Value) := []
  result : Option Value := none

namespace Store

def find? (store : Store) (name : String) : Option Value := store.entries.lookup name

def declare (store : Store) (name : String) (value : Value) : Store :=
  { store with entries := (name, value) :: store.entries }

/-- Change the newest variable of a name. -/
def replace (name : String) (value : Value) : List (String × Value) → List (String × Value)
  | [] => []
  | old :: rest => if old.1 = name then (name, value) :: rest else old :: replace name value rest

def assign (store : Store) (name : String) (value : Value) : Store :=
  { store with entries := replace name value store.entries }

/-- Drop all variables but the oldest. -/
def keep (store : Store) (count : Nat) : Store :=
  { store with entries := store.entries.drop (store.entries.length - count) }

end Store

structure Rules (σ : Type) where
  hosts : HostTable (StateM σ)
  /-- How many rounds a loop may make. -/
  rounds : Nat
  /-- Reading a result that is not of the type of the statement before is refused. -/
  strict : Bool := false

/-- Evaluation of an expression, with a host that has a state. -/
abbrev Evaluate (σ : Type) := ExceptT Halt (StateM σ)

/-- Execution of a statement. -/
abbrev Perform (σ : Type) := ExceptT Halt (StateT Store (StateM σ))

variable {σ α β : Type}

namespace Evaluate

variable {first : Evaluate σ α} {next : α → Evaluate σ β} {w w' : σ}

theorem bind_ok {a : α} (done : first w = (.ok a, w')) : (first >>= next) w = next a w' := by
  show (ExceptT.bindCont next (first w).1) (first w).2 = _
  rw [done]
  rfl

theorem bind_error {halt : Halt} (done : first w = (.error halt, w')) :
    (first >>= next) w = (.error halt, w') := by
  show (ExceptT.bindCont next (first w).1) (first w).2 = _
  rw [done]
  rfl

end Evaluate

namespace Perform

variable {first : Perform σ α} {next : α → Perform σ β} {store store' : Store} {w w' : σ}

theorem bind_ok {a : α} (done : first store w = ((.ok a, store'), w')) :
    (first >>= next) store w = next a store' w' := by
  show (ExceptT.bindCont next (first store w).1.1) (first store w).1.2 (first store w).2 = _
  rw [done]
  rfl

theorem bind_error {halt : Halt} (done : first store w = ((.error halt, store'), w')) :
    (first >>= next) store w = ((.error halt, store'), w') := by
  show (ExceptT.bindCont next (first store w).1.1) (first store w).1.2 (first store w).2 = _
  rw [done]
  rfl

end Perform

def conclude (outcome : Except Halt α) : Evaluate σ α := fun w => (outcome, w)

/-- What has to be there. -/
def known : Option α → Except Halt α
  | some a => .ok a
  | none => .error .stuck

@[simp] theorem known_some (a : α) : known (some a) = .ok a := rfl

@[simp] theorem conclude_ok_bind (a : α) (next : α → Evaluate σ β) :
    (conclude (.ok a) >>= next) = next a := rfl

/-- The place in a list that a position stands for; positions count from one. -/
def place (index : Number) (items : List Value) : Except Halt Nat :=
  match index.toNat? with
  | some (k + 1) =>
    if k < items.length then .ok k else .error (.mishap (.noItem index items.length))
  | _ => .error (.mishap (.noItem index items.length))

def unaryValue : UnaryOp → Option Value → Except Halt (Option Value)
  | .negate, some (.number n) => .ok (some (.number n.neg))
  | .invert, some (.boolean b) => .ok (some (.boolean !b))
  | _, _ => .error .stuck

def arithValue (op : Arith) : Option Value → Option Value → Except Halt (Option Value)
  | some (.number a), some (.number b) => .ok (some (.number (op.apply a b)))
  | _, _ => .error .stuck

def orderValue (op : Order) : Option Value → Option Value → Except Halt (Option Value)
  | some (.number a), some (.number b) => .ok (some (.boolean (op.apply a b)))
  | _, _ => .error .stuck

/-- Values of one type are compared. -/
def comparedValue (op : BinaryOp) : Option Value → Option Value → Except Halt (Option Value)
  | some a, some b =>
    if a.type = b.type then .ok (some (.boolean (if op = .equal then a.equal b else !a.equal b)))
    else .error .stuck
  | _, _ => .error .stuck

def convertedValue (target : Ty) : Option Value → Except Halt (Option Value)
  | some value =>
    if value.type.convertsTo target then
      match value.convert target with
      | .ok converted => .ok (some converted)
      | .error failure => .error (.mishap (.conversion failure))
    else
      .error .stuck
  | none => .error .stuck

/-- An item has to have the type that is wanted where it stands. -/
def itemValue (want : Option Ty) : Option Value → Option Value → Except Halt (Option Value)
  | some (.list items), some (.number index) => do
    let want ← known want
    let item := items.getD (← place index items) .void
    if item.type = want then .ok (some item)
    else .error (.mishap (.itemType index item.type want))
  | _, _ => .error .stuck

/-- A list with one item changed. -/
def changedList : Value → Option Value → Option Value → Except Halt Value
  | .list items, some (.number index), some value => do
    return .list (items.set (← place index items) value)
  | _, _, _ => .error .stuck

def resultValue (strict : Bool) (prior : Ty) : Option Value → Except Halt (Option Value)
  | some value => if strict && value.type ≠ prior then .error .misread else .ok (some value)
  | none => .error .stuck

/-- What the host's answer stands for. -/
def answerValue (name : String) (returns : Ty) : HostReply → Except Halt (Option Value)
  | .error reason => .error (.mishap (.hostFailed name reason))
  | .ok answer =>
    if returns = .void then
      .ok none
    else
      match answer with
      | none => .error (.mishap (.hostSilent name returns))
      | some value =>
        if value.type = returns then .ok (some value)
        else .error (.mishap (.hostReturned name value.type returns))

/-- Call a host procedure with arguments of the types of its parameters. -/
def callHost (hosts : HostTable (StateM σ)) (name : String) (signature : Signature)
    (arguments : List Value) : Evaluate σ (Option Value) := fun w =>
  if arguments.map Value.type = signature.params then
    let (reply, w) := (hosts.call? name arguments).getD (pure (.ok none)) w
    (answerValue name signature.returns reply, w)
  else
    (.error .stuck, w)

/-- The type of an expression. Variables have the type of their value. -/
def typeOf (hosts : HostTable (StateM σ)) (store : Store) (prior : Ty) : Node → Ty
  | .literal value => value.type
  | .unary op _ => op.type
  | .binary (.arith _) _ _ => .number
  | .binary .. => .boolean
  | .result => prior
  | .var name => ((store.find? name).map Value.type).getD .void
  | .call name _ => ((hosts.signature? name).map (·.returns)).getD .void
  | .convert _ target => target
  | .list _ => .list
  | _ => .void

mutual

/-- Evaluate an expression, wanted to have a type, after a statement of a type. A call may give
nothing. -/
def evaluate (rules : Rules σ) (store : Store) (prior : Ty) :
    Node → Option Ty → Evaluate σ (Option Value)
  | .literal value, _ => return some value
  | .unary op operand, _ => do
    let a ← evaluate rules store prior operand (some op.type)
    conclude (unaryValue op a)
  | .binary (.arith op) left right, _ => do
    let a ← evaluate rules store prior left (some .number)
    let b ← evaluate rules store prior right (some .number)
    conclude (arithValue op a b)
  | .binary (.order op) left right, _ => do
    let a ← evaluate rules store prior left (some .number)
    let b ← evaluate rules store prior right (some .number)
    conclude (orderValue op a b)
  | .binary (.logic op) left right, _ => do
    match ← evaluate rules store prior left (some .boolean) with
    | some (.boolean a) =>
      if op.decides a then return some (.boolean a)
      else evaluate rules store prior right (some .boolean)
    | _ => throw .stuck
  | .binary .equal left right, _ => do
    let a ← evaluate rules store prior left none
    let b ← evaluate rules store prior right (some (typeOf rules.hosts store prior left))
    conclude (comparedValue .equal a b)
  | .binary .notEqual left right, _ => do
    let a ← evaluate rules store prior left none
    let b ← evaluate rules store prior right (some (typeOf rules.hosts store prior left))
    conclude (comparedValue .notEqual a b)
  | .result, _ => conclude (resultValue rules.strict prior store.result)
  | .var name, _ => conclude (some <$> known (store.find? name))
  | .call name args, _ =>
    match rules.hosts.signature? name with
    | none => throw .stuck
    | some signature => do
      let given ← evaluateArguments rules store prior signature.params 0 args
      callHost rules.hosts name signature given
  | .convert operand target, _ => do
    let a ← evaluate rules store prior operand none
    conclude (convertedValue target a)
  | .list nodes, _ => return some (.list (← evaluateItems rules store prior nodes))
  | .item index list, want => do
    let a ← evaluate rules store prior list (some .list)
    let b ← evaluate rules store prior index (some .number)
    conclude (itemValue want a b)
  | _, _ => throw .stuck

/-- Evaluate arguments from a position on. -/
def evaluateArguments (rules : Rules σ) (store : Store) (prior : Ty) (params : List Ty) :
    Nat → List Node → Evaluate σ (List Value)
  | _, [] => return []
  | position, first :: more => do
    let a ← evaluate rules store prior first params[position]?
    let a ← conclude (known a)
    return a :: (← evaluateArguments rules store prior params (position + 1) more)

/-- Evaluate the items of a list. -/
def evaluateItems (rules : Rules σ) (store : Store) (prior : Ty) :
    List Node → Evaluate σ (List Value)
  | [] => return []
  | first :: more => do
    let a ← evaluate rules store prior first none
    let a ← conclude (known a)
    return a :: (← evaluateItems rules store prior more)

end

/-- Evaluate an expression that has to give a value. -/
def required (rules : Rules σ) (store : Store) (prior : Ty) (n : Node) (want : Option Ty) :
    Evaluate σ Value := do
  conclude (known (← evaluate rules store prior n want))

/-- Evaluate a condition. -/
def condition (rules : Rules σ) (store : Store) (prior : Ty) (test : Node) : Evaluate σ Bool := do
  match ← evaluate rules store prior test (some .boolean) with
  | some (.boolean b) => return b
  | _ => throw .stuck

/-- Evaluate the count of a loop. -/
def amount (rules : Rules σ) (store : Store) (prior : Ty) (count : Node) : Evaluate σ Number := do
  match ← evaluate rules store prior count (some .number) with
  | some (.number n) => return n
  | _ => throw .stuck

/-- Evaluate in the current store. -/
def observe (look : Store → Evaluate σ α) : Perform σ α := fun store w =>
  let (outcome, w) := look store w
  ((outcome, store), w)

/-- The value that a variable starts with when none is given. -/
def defaultValue (type : Option Ty) : Except Halt Value := do
  known (Value.initial? (← known type))

/-- Test and go round again as long as the test succeeds. -/
def whileDo (test : Store → Evaluate σ Bool) (body : Perform σ Unit) : Nat → Perform σ Unit
  | 0 => throw .exhausted
  | rounds + 1 => do
    if ← observe test then
      body
      whileDo test body rounds

/-- Go round, and again as long as the counter plus one is below the count. -/
def repeatDo (count : Number) (body : Perform σ Unit) : Nat → Number → Perform σ Unit
  | 0, _ => throw .exhausted
  | rounds + 1, counter => do
    body
    if (counter.add .one).less count then
      repeatDo count body rounds (counter.add .one)

/-- What is declared inside is gone afterwards. -/
def inBlock (body : Perform σ Ty) : Perform σ Unit := do
  let outer := (← get).entries.length
  let _ ← body
  modify (·.keep outer)

mutual

/-- Execute a statement, after one of a type. -/
def perform (rules : Rules σ) (prior : Ty) : Node → Perform σ Unit
  | .declare name type none => do
    let start ← observe fun _ => conclude (defaultValue type)
    modify (·.declare name start)
  | .declare name type (some start) => do
    let start ← observe fun store => required rules store prior start type
    modify (·.declare name start)
  | .assign name new => do
    let old ← observe fun store => conclude (known (store.find? name))
    let new ← observe fun store => required rules store prior new (some old.type)
    modify (·.assign name new)
  | .branch test body otherwise => do
    if ← observe fun store => condition rules store prior test then
      inBlock (performAll rules .void body)
    else
      match otherwise with
      | none => return ()
      | some other => inBlock (performAll rules .void other)
  | .loop test body =>
    whileDo (fun store => condition rules store prior test) (inBlock (performAll rules .void body))
      rules.rounds
  | .times count body => do
    let count ← observe fun store => amount rules store prior count
    if count.lessEq .zero then
      return ()
    else
      repeatDo count (inBlock (performAll rules .void body)) rules.rounds .zero
  | .setItem index (.var name) new => do
    let old ← observe fun store => conclude (known (store.find? name))
    let index ← observe fun store => evaluate rules store prior index (some .number)
    let new ← observe fun store => evaluate rules store prior new none
    let changed ← observe fun _ => conclude (changedList old index new)
    modify (·.assign name changed)
  | n => do
    match ← observe fun store => evaluate rules store prior n none with
    | some result => modify ({ · with result := some result })
    | none => return ()

/-- Execute statements one after another; also gives the type of the last. -/
def performAll (rules : Rules σ) : Ty → List Node → Perform σ Ty
  | prior, [] => return prior
  | prior, first :: more => do
    let type := typeOf rules.hosts (← get) prior first
    perform rules prior first
    performAll rules type more

end

/-- What lasts from unit to unit: the store, and the type of the last statement. -/
structure Memory where
  store : Store := {}
  prior : Ty := .void

/-- Execute a unit. One that does not come to its end withdraws the variables that it declared, and
leaves no result to be read. -/
def unit (rules : Rules σ) (program : Program) (memory : Memory) :
    StateM σ (Except Halt Unit × Memory) := fun w =>
  match performAll rules memory.prior program memory.store w with
  | ((.ok prior, store), w) => ((.ok (), ⟨store, prior⟩), w)
  | ((.error halt, store), w) =>
    ((.error halt, ⟨store.keep memory.store.entries.length, .void⟩), w)

end Interpreter

end Primer
