import Primer.Proofs.Compilation.Unit

/-!
Which errors are the user's. A unit is refused with a diagnostic, or because it holds a void value,
which has no encoded form: the other faults that the compiler guards against are never met. What is
left open by a node can be settled where it is settled, since the node is a parameter or a call of
the procedure being compiled, and the procedure being compiled stays until it is finished.
-/

set_option autoImplicit false
set_option relaxedAutoImplicit false

namespace Primer

namespace Value

mutual

/-- There is a void in the value, at some depth. -/
def holdsVoid : Value → Bool
  | void => true
  | list items => anyHoldsVoid items
  | _ => false

def anyHoldsVoid : List Value → Bool
  | [] => false
  | item :: more => item.holdsVoid || anyHoldsVoid more

end

theorem checkLength_ne_void (what : Sequence) (length : Nat) :
    EncodeFault.checkLength what length ≠ .error .void := by
  unfold EncodeFault.checkLength
  split <;> simp

mutual

/-- Only what holds a void fails to be encoded for that reason. -/
theorem holdsVoid_of_check {value : Value} (failed : value.check = .error .void) :
    value.holdsVoid = true := by
  cases value with
  | number | boolean => cases failed
  | void => rfl
  | string text => exact absurd failed (checkLength_ne_void _ _)
  | list items =>
    unfold check at failed
    cases short : EncodeFault.checkLength .list items.length with
    | error fault =>
      rw [short] at failed
      cases failed
      exact absurd short (checkLength_ne_void _ _)
    | ok passed =>
      rw [short] at failed
      exact anyHoldsVoid_of_check failed

theorem anyHoldsVoid_of_check {items : List Value} (failed : checkItems items = .error .void) :
    anyHoldsVoid items = true := by
  cases items with
  | nil => cases failed
  | cons item more =>
    unfold checkItems at failed
    rw [anyHoldsVoid, Bool.or_eq_true]
    cases first : item.check with
    | error fault =>
      rw [first] at failed
      cases failed
      exact .inl (holdsVoid_of_check first)
    | ok passed =>
      rw [first] at failed
      exact .inr (anyHoldsVoid_of_check failed)

end

end Value

namespace Node

mutual

/-- There is a void among the literals of the node, at some depth. -/
def holdsVoid : Node → Bool
  | literal value => value.holdsVoid
  | result | var _ => false
  | unary _ a | assign _ a | convert a _ => a.holdsVoid
  | binary _ a b | item a b => a.holdsVoid || b.holdsVoid
  | setItem a b value => a.holdsVoid || b.holdsVoid || value.holdsVoid
  | declare _ _ value | giveBack value => optionHoldsVoid value
  | branch test body other => test.holdsVoid || anyHoldsVoid body || otherHoldsVoid other
  | loop test body | times test body => test.holdsVoid || anyHoldsVoid body
  | call _ nodes | list nodes | define _ _ _ nodes => anyHoldsVoid nodes

def optionHoldsVoid : Option Node → Bool
  | none => false
  | some n => n.holdsVoid

def anyHoldsVoid : List Node → Bool
  | [] => false
  | n :: more => n.holdsVoid || anyHoldsVoid more

def otherHoldsVoid : Option (List Node) → Bool
  | none => false
  | some nodes => anyHoldsVoid nodes

end

theorem anyHoldsVoid_eq (nodes : List Node) : anyHoldsVoid nodes = nodes.any holdsVoid := by
  induction nodes with
  | nil => rfl
  | cons n more ih => rw [anyHoldsVoid, List.any_cons, ih]

theorem otherHoldsVoid_eq (other : Option (List Node)) :
    otherHoldsVoid other = other.any (·.any holdsVoid) := by
  cases other with
  | none => rfl
  | some nodes => exact anyHoldsVoid_eq nodes

@[simp] theorem holdsVoid_item (index list : Node) :
    (item index list).holdsVoid = (index.holdsVoid || list.holdsVoid) := rfl

@[simp] theorem holdsVoid_setItem (index list value : Node) :
    (setItem index list value).holdsVoid =
      (index.holdsVoid || list.holdsVoid || value.holdsVoid) := rfl

@[simp] theorem holdsVoid_branch (test : Node) (body : List Node) (other : Option (List Node)) :
    (branch test body other).holdsVoid =
      (test.holdsVoid || body.any holdsVoid || other.any (·.any holdsVoid)) := by
  rw [← anyHoldsVoid_eq, ← otherHoldsVoid_eq]
  rfl

@[simp] theorem holdsVoid_loop (test : Node) (body : List Node) :
    (loop test body).holdsVoid = (test.holdsVoid || body.any holdsVoid) :=
  congrArg (test.holdsVoid || ·) (anyHoldsVoid_eq body)

@[simp] theorem holdsVoid_times (count : Node) (body : List Node) :
    (times count body).holdsVoid = (count.holdsVoid || body.any holdsVoid) :=
  congrArg (count.holdsVoid || ·) (anyHoldsVoid_eq body)

@[simp] theorem holdsVoid_call (name : String) (args : List Node) :
    (call name args).holdsVoid = args.any holdsVoid := anyHoldsVoid_eq args

@[simp] theorem holdsVoid_list (nodes : List Node) :
    (list nodes).holdsVoid = nodes.any holdsVoid := anyHoldsVoid_eq nodes

@[simp] theorem holdsVoid_define (name : String) (params : List Param) (returns : Option Ty)
    (body : List Node) : (define name params returns body).holdsVoid = body.any holdsVoid :=
  anyHoldsVoid_eq body

/-- A list of literals holds a void when one of its values does. -/
theorem any_holdsVoid_of_literals {nodes : List Node} {values : List Value}
    (all : literals? nodes = some values) (void : Value.anyHoldsVoid values = true) :
    nodes.any holdsVoid = true := by
  induction nodes generalizing values with
  | nil =>
    cases all
    cases void
  | cons n more ih =>
    cases n with
    | literal value =>
      obtain ⟨rest, found, rfl⟩ := Option.map_eq_some_iff.mp all
      rw [Value.anyHoldsVoid, Bool.or_eq_true] at void
      rw [List.any_cons, Bool.or_eq_true]
      exact void.imp id (ih found)
    | _ => cases all

end Node

namespace Compiler

/-- What the node leaves open is known to the compiler: it is a parameter, or a call of the
procedure being compiled. -/
def Settleable (c : Compiler) : Node → Prop
  | .var name => (c.param? name).isSome
  | .call name _ => c.drafting name
  | _ => False

theorem Grows.drafting {c c' : Compiler} (grows : c.Grows c') {name : String}
    (drafting : c.drafting name) : c'.drafting name := by
  rw [Compiler.drafting, grows.current]
  exact drafting

theorem Grows.settleable {c c' : Compiler} (grows : c.Grows c') {n : Node}
    (settleable : c.Settleable n) : c'.Settleable n := by
  cases n with
  | var name =>
    obtain ⟨⟨position, param⟩, found⟩ := Option.isSome_iff_exists.mp settleable
    obtain ⟨other, later⟩ := grows.param? found
    exact Option.isSome_iff_exists.mpr ⟨_, later⟩
  | call name args => exact grows.drafting settleable
  | _ => exact settleable.elim

/-- The scope is tidy, and the procedure whose body is being compiled has its entry. -/
structure Tracked (c : Compiler) : Prop where
  tidy : c.scope.Tidy
  entry : ∀ name, c.current = some name → (c.draftOf? name).isSome

theorem Tracked.inside {c : Compiler} (tracked : c.Tracked) {name : String}
    (drafting : c.drafting name) : c.draft.isSome := by
  have current := of_decide_eq_true drafting
  rw [draft_of_current current]
  exact tracked.entry name current

/-- Only the scope matters apart from the procedure being compiled. -/
theorem Tracked.moved {c c' : Compiler} (tracked : c.Tracked) (tidy : c'.scope.Tidy)
    (current : c'.current = c.current) (pending : c'.pending = c.pending) : c'.Tracked := by
  refine ⟨tidy, fun name same => ?_⟩
  rw [draftOf?, pending]
  exact tracked.entry name (current ▸ same)

theorem Grows.tracked {c c' : Compiler} (grows : c.Grows c') (tracked : c.Tracked) :
    c'.Tracked := by
  refine ⟨grows.tidy tracked.tidy, fun name current => ?_⟩
  have before := tracked.entry name (grows.current.symm.trans current)
  rw [← draft_of_current (grows.current.symm.trans current), ← grows.draft.isSome_eq] at before
  rw [← draft_of_current current]
  exact before

end Compiler

open Compile Compiler

theorem Yields.tracked {task : Task} {c c' : Compiler} {x : Compiled}
    (derivation : Yields task c x c') (tracked : c.Tracked) : c'.Tracked :=
  (derivation.grows tracked.tidy).tracked tracked

/-- A node leaves its type open only when it can be settled later. -/
theorem Yields.settleable {n : Node} {want : Option Ty} {c c' : Compiler} {x : Compiled}
    (derivation : Yields (.node n want) c x c') (tidy : c.scope.Tidy) (isOpen : x.type = none) :
    c'.Settleable n := by
  have grows := derivation.grows tidy
  cases derivation with
  | var found =>
    rcases reference_ok found with ⟨position, param, isParam, -, -⟩ | ⟨target, -, -, rfl, -⟩
    · obtain ⟨other, later⟩ := grows.param? isParam
      exact Option.isSome_iff_exists.mpr ⟨_, later⟩
    · cases isOpen
  | @call name args _ _ callee _ _ _ _ called _ _ finished =>
    unfold finishCall at finished
    cases callee with
    | host name signature =>
      obtain ⟨code, between, -, last⟩ := bind_eq_ok.mp finished
      simp only [pure_eq_ok, Prod.mk.injEq] at last
      rw [last.1] at isOpen
      cases isOpen
    | defined procedure =>
      simp only [pure_eq_ok, Prod.mk.injEq] at finished
      rw [finished.1] at isOpen
      cases isOpen
    | drafted draft =>
      obtain ⟨inside, named⟩ := (find_ok called).1
      refine grows.drafting (decide_eq_true ?_)
      rw [(draft_eq_some.mp inside).1, named]
  | _ => cases isOpen

namespace Compile

/-- When the work fails with an internal error, it is that a void would be inlined, and there is a
reason for it. -/
def Blames {α : Type} (work : Compile α) (c : Compiler) (reason : Prop) : Prop :=
  ∀ fault, work c = .error (.internal fault) → fault = .voidInlined ∧ reason

section Steps

variable {α β : Type} {c : Compiler} {reason other : Prop}

theorem Blames.mono {work : Compile α} (blames : Blames work c other) (implies : other → reason) :
    Blames work c reason :=
  fun fault failed => (blames fault failed).imp_right implies

theorem blames_pure (a : α) : Blames (pure a) c reason := by
  intro fault failed
  cases failed

theorem blames_throw {error : CompileError} (user : error.isInternal = false) :
    Blames (throw error : Compile α) c reason := by
  intro fault failed
  cases failed
  cases user

theorem Blames.bind {first : Compile α} {next : α → Compile β} (here : Blames first c reason)
    (later : ∀ a d, first c = .ok (a, d) → Blames (next a) d reason) :
    Blames (first >>= next) c reason := by
  intro fault failed
  rcases bind_eq_error.mp failed with fails | ⟨a, between, done, fails⟩
  · exact here fault fails
  · exact later a between done fault fails

/-- Work that looks at the state first. -/
theorem Blames.get {next : Compiler → Compile β} (here : Blames (next c) c reason) :
    Blames (get >>= next) c reason :=
  here

/-- Nothing comes after an error. -/
theorem blames_throw_bind {error : CompileError} (user : error.isInternal = false)
    (next : α → Compile β) : Blames ((throw error : Compile α) >>= next) c reason :=
  (blames_throw user).bind nofun

/-- Work that ends by putting a result together. -/
theorem Blames.map {first : Compile α} (here : Blames first c reason) (made : α → β) :
    Blames (do return made (← first)) c reason :=
  here.bind fun _ _ _ => blames_pure _

theorem blames_modify (f : Compiler → Compiler) : Blames (modify f : Compile PUnit) c reason := by
  intro fault failed
  cases failed

theorem blames_set (after : Compiler) : Blames (set after : Compile PUnit) c reason := by
  intro fault failed
  cases failed

theorem blames_emit {i : Instruction} (void : i.check = .error .void → reason) :
    Blames (emit i) c reason := by
  intro fault failed
  unfold emit at failed
  cases passes : i.check with
  | ok passed =>
    rw [passes] at failed
    cases failed
  | error cause =>
    rw [passes] at failed
    cases cause with
    | void =>
      cases failed
      exact ⟨rfl, void passes⟩
    | tooLong what length => cases failed

theorem blames_push (value : Value) (void : value.holdsVoid = true → reason) :
    Blames (emit (.push value)) c reason :=
  blames_emit fun failed => void (Value.holdsVoid_of_check failed)

theorem blames_allocate : Blames allocate c reason := by
  refine .get ?_
  split
  · exact (blames_set _).map _
  · exact blames_throw rfl

theorem blames_allocateScratch : Blames allocateScratch c reason :=
  blames_allocate.bind fun _ _ _ => (blames_modify _).map _

/-- The procedure whose body is being compiled has not vanished. -/
theorem blames_resultSlot (tracked : c.Tracked) : Blames resultSlot c reason := by
  refine .get ?_
  cases current : c.current with
  | none => exact blames_pure _
  | some name =>
    obtain ⟨draft, entry⟩ := Option.isSome_iff_exists.mp (tracked.entry name current)
    dsimp only
    rw [entry]
    dsimp only
    split
    · exact blames_pure _
    · exact blames_allocate.bind fun _ _ _ => (blames_modify _).map _

/-- There is a parameter at the position that a name was found at. -/
theorem blames_paramAt {name : String} {position : Nat}
    (index : c.paramIndex? name = some position) : Blames (paramAt position) c reason := by
  intro fault failed
  cases isParam : c.param? name with
  | none =>
    rw [paramIndex?_eq_none.mpr isParam] at index
    cases index
  | some place =>
    rw [paramIndex?_of_param isParam] at index
    cases index
    rw [paramAt_of_param isParam] at failed
    cases failed

theorem blames_slotOf (name : String) : Blames (slotOf name) c reason := by
  refine .get ?_
  split
  · rename_i index
    exact (blames_paramAt index).map _
  · exact blames_pure _
  · exact blames_throw rfl

theorem blames_resolveParam (position : Nat) (type : Ty) :
    Blames (resolveParam position type) c reason :=
  blames_modify _

/-- Only outside of procedures is there nothing to assume. -/
theorem blames_assumeReturn (type : Ty) (inside : c.draft.isSome) :
    Blames (assumeReturn type) c reason := by
  refine .get ?_
  split
  · rename_i outside
    rw [outside] at inside
    cases inside
  · split
    · split
      · exact blames_throw_bind rfl _
      · exact blames_modify _
    · exact blames_modify _

theorem blames_settle {n : Node} (type : Ty) (tracked : c.Tracked) (settleable : c.Settleable n) :
    Blames (settle n type) c reason := by
  intro fault failed
  simp only [settle, get_bind] at failed
  cases n with
  | var name =>
    obtain ⟨⟨position, param⟩, found⟩ := Option.isSome_iff_exists.mp settleable
    simp only [paramIndex?_of_param found] at failed
    exact blames_resolveParam _ _ fault failed
  | call name args =>
    have drafting : c.drafting name = true := settleable
    simp only [drafting, if_true] at failed
    exact blames_assumeReturn _ (tracked.inside drafting) fault failed
  | _ => exact settleable.elim

theorem blames_requireValue (found : Option Ty) (role : Role) :
    Blames (requireValue found role) c reason := by
  unfold requireValue
  split
  · exact blames_throw rfl
  · exact blames_throw rfl
  · exact blames_pure _

theorem blames_reference (name : String) (want : Option Ty) :
    Blames (reference name want) c reason := by
  refine .get ?_
  split
  · rename_i index
    refine (blames_paramAt index).bind fun param d _ => ?_
    split
    · exact (blames_resolveParam _ _).map _
    · exact blames_pure _
  · exact blames_pure _
  · exact blames_throw rfl

theorem blames_expected (callee : Callee) (position : Nat) :
    Blames (callee.expected position) c reason := by
  intro fault failed
  unfold Callee.expected at failed
  cases callee <;> cases failed

theorem blames_find (name : String) : Blames (Callee.find name) c reason := by
  refine .get ?_
  split
  · exact blames_pure _
  · exact blames_pure _
  · exact blames_pure _
  · exact blames_throw rfl

theorem blames_noteReturn (draft : Draft) (type : Ty) :
    Blames (noteReturn draft type) c reason := by
  unfold noteReturn
  split
  · split
    · exact blames_throw rfl
    · exact blames_pure _
  · exact blames_modify _

/-- A call of the procedure being compiled is finished while it is being compiled. -/
theorem blames_finishCall {callee : Callee} (arguments : Fragment) (want : Option Ty)
    (inside : ∀ draft, callee = .drafted draft → c.draft.isSome) :
    Blames (finishCall callee arguments want) c reason := by
  unfold finishCall
  cases callee with
  | host name signature =>
    have short : (Instruction.callHost name).check ≠ .error .void := Value.checkLength_ne_void _ _
    exact (blames_emit fun void => absurd void short).map _
  | defined procedure => exact blames_pure _
  | drafted draft =>
    refine .get ?_
    split
    · exact blames_pure _
    · exact (blames_assumeReturn _ (inside draft rfl)).map _
    · exact blames_pure _

theorem blames_allocateParams (params : List Param) : Blames (allocateParams params) c reason := by
  induction params generalizing c with
  | nil => exact blames_pure _
  | cons param more ih => exact blames_allocate.bind fun _ _ _ => ih.map _

theorem blames_startDraft (name : String) (params : List Param) (returns : Option Ty) :
    Blames (startDraft name params returns) c reason := by
  refine .get ?_
  by_cases misplaced : c.current.isSome || 0 < c.scope.depth
  · rw [if_pos misplaced]
    exact blames_throw_bind rfl _
  · rw [if_neg misplaced]
    by_cases known : c.knows name
    · rw [if_pos known]
      exact blames_throw_bind rfl _
    · rw [if_neg known]
      split
      · exact blames_throw_bind rfl _
      · exact (blames_allocateParams _).bind fun _ _ _ => blames_modify _

/-- What is finished has not vanished. -/
theorem blames_finishDraft (name : String) (body : List Node) (code : Fragment)
    (inside : (c.draftOf? name).isSome) : Blames (finishDraft name body code) c reason := by
  have last (p : Bool) {error : CompileError} (user : error.isInternal = false) (after : Compiler) :
      Blames (if p then throw error >>= fun _ : PUnit => set after else (set after : Compile PUnit))
      c
        reason := by
    split
    · exact blames_throw_bind user _
    · exact blames_set _
  refine .get ?_
  dsimp only
  split
  · split
    · exact blames_throw_bind rfl _
    · split
      · split
        · exact blames_throw_bind rfl _
        · exact last _ rfl _
      · exact last _ rfl _
  · rename_i outside
    obtain ⟨draft, inside⟩ := Option.isSome_iff_exists.mp inside
    exact absurd inside (outside draft)

theorem blames_finishStatement (n : Node) (x : Compiled) (tracked : c.Tracked) :
    Blames (finishStatement n x) c reason := by
  have stored (type : Ty) {d : Compiler} (tracked : d.Tracked) : Blames (do
      let stored ← if type = .void then pure [] else do pure [Instruction.store (← resultSlot)]
      modify fun c => { c with prior := type }
      return x.code ++ stored) d reason := by
    simp only [pure_bind]
    split
    · exact (blames_modify _).map _
    · exact (blames_resultSlot tracked).bind fun _ _ _ => (blames_modify _).map _
  unfold finishStatement
  cases x.type with
  | some type => exact stored type tracked
  | none =>
    cases n with
    | call name args =>
      refine .get ?_
      split
      · rename_i drafting
        exact (blames_assumeReturn _ (tracked.inside drafting)).bind fun _ _ assumed =>
          stored .void ((assumeReturn_ok assumed).steady.grows.tracked tracked)
      · exact blames_throw_bind rfl _
    | _ => exact blames_throw_bind rfl _

end Steps

/-- An internal error on the node is that there is a void in it. -/
def Answers (n : Node) : Prop :=
  ∀ ⦃want : Option Ty⦄ ⦃c : Compiler⦄, c.Tracked → Blames (node n want) c (n.holdsVoid = true)

/-- An internal error on the statements is that there is a void in them. -/
def AllAnswer (nodes : List Node) : Prop :=
  ∀ ⦃c : Compiler⦄, c.Tracked → Blames (statements nodes) c (nodes.any Node.holdsVoid = true)

section Nodes

variable {c : Compiler} {reason : Prop}

theorem blames_expect {n : Node} {found : Option Ty} (want : Ty) (role : Role) (tracked : c.Tracked)
    (settleable : found = none → c.Settleable n) : Blames (expect n found want role) c reason := by
  unfold expect
  split
  · split
    · exact blames_pure _
    · exact blames_throw rfl
  · exact blames_settle _ tracked (settleable rfl)

theorem Answers.operand {n : Node} (answers : Answers n) (want : Ty) (role : Role)
    (tracked : c.Tracked) :
    Blames (Compile.operand n want role (node n (some want))) c (n.holdsVoid = true) :=
  (answers tracked).bind fun _ _ compiled =>
    (blames_expect want role ((derived n compiled).tracked tracked)
      ((derived n compiled).settleable tracked.tidy)).map _

theorem Answers.value {n : Node} (answers : Answers n) (expected : Option Ty) (role : Role)
    (tracked : c.Tracked) :
    Blames (Compile.value n expected role (node n expected)) c (n.holdsVoid = true) := by
  refine (answers tracked).bind fun x d compiled => ?_
  cases expected with
  | some want =>
    exact (blames_expect want role ((derived n compiled).tracked tracked)
      ((derived n compiled).settleable tracked.tidy)).bind fun _ _ _ =>
        (blames_requireValue _ _).map _
  | none => exact (blames_requireValue _ _).map _

theorem AllAnswer.block {nodes : List Node} (answer : AllAnswer nodes) (tracked : c.Tracked) :
    Blames (Compile.block (statements nodes)) c (nodes.any Node.holdsVoid = true) := by
  intro fault failed
  simp only [Compile.block, get_bind, modify_bind, enterScope] at failed
  rcases bind_eq_error.mp failed with fails | ⟨parts, between, -, rest⟩
  · have entered : c.entered.Tracked := tracked.moved tracked.tidy.enter rfl rfl
    exact answer entered fault fails
  · cases rest

/-- Two operands of one type, one after the other. -/
theorem Answers.both {a b : Node} (left : Answers a) (right : Answers b) (type : Ty) (role : Role)
    (made : Fragment → Fragment → Compiled) (tracked : c.Tracked) :
    Blames (do
      let first ← Compile.operand a type role (node a (some type))
      let second ← Compile.operand b type role (node b (some type))
      return made first second) c ((a.holdsVoid || b.holdsVoid) = true) := by
  refine ((left.operand type role tracked).mono (by simp +contextual)).bind fun code d first => ?_
  have tracked₁ := ((derived a).operand first).tracked tracked
  exact ((right.operand type role tracked₁).mono (by simp +contextual)).map _

theorem answers_unary (op : UnaryOp) {a : Node} (operand : Answers a) : Answers (.unary op a) :=
  fun _ _ tracked => (operand.operand op.type op.role tracked).map _

theorem answers_arith (op : Arith) {a b : Node} (left : Answers a) (right : Answers b) :
    Answers (.binary (.arith op) a b) :=
  fun _ _ tracked => left.both right .number _ _ tracked

theorem answers_order (op : Order) {a b : Node} (left : Answers a) (right : Answers b) :
    Answers (.binary (.order op) a b) :=
  fun _ _ tracked => left.both right .number _ _ tracked

theorem answers_logic (op : Logic) {a b : Node} (left : Answers a) (right : Answers b) :
    Answers (.binary (.logic op) a b) :=
  fun _ _ tracked => left.both right .boolean _ _ tracked

theorem blames_agree {a b : Node} (op : BinaryOp) {leftType rightType : Option Ty}
    (tracked : c.Tracked) (left : leftType = none → c.Settleable a)
    (right : rightType = none → c.Settleable b) :
    Blames (agree op a b leftType rightType) c reason := by
  unfold agree
  split
  · split
    · exact blames_pure _
    · exact blames_throw rfl
  · exact blames_settle _ tracked (left rfl)
  · exact blames_settle _ tracked (right rfl)
  · exact blames_throw rfl

/-- What the left side leaves open can still be settled when the right side is compiled. -/
theorem Answers.sides {a b : Node} (left : Answers a) (right : Answers b) (op : BinaryOp)
    (tracked : c.Tracked) :
    Blames (Compile.sides op a b (node a none) (fun type => node b type)) c
      ((a.holdsVoid || b.holdsVoid) = true) := by
  refine ((left tracked).mono (by simp +contextual)).bind fun x c₁ first => ?_
  have leftDerived := derived a first
  have tracked₁ := leftDerived.tracked tracked
  dsimp only
  split
  · exact blames_throw_bind rfl _
  refine ((right tracked₁).mono (by simp +contextual)).bind fun y c₂ second => ?_
  have rightDerived := derived b second
  split
  · exact blames_throw_bind rfl _
  refine (blames_agree op (rightDerived.tracked tracked₁) (fun isOpen => ?_)
    (rightDerived.settleable tracked₁.tidy)).map _
  exact (rightDerived.grows tracked₁.tidy).settleable (leftDerived.settleable tracked.tidy isOpen)

theorem answers_equal {a b : Node} (left : Answers a) (right : Answers b) :
    Answers (.binary .equal a b) :=
  fun _ _ tracked => (left.sides right .equal tracked).map _

theorem answers_notEqual {a b : Node} (left : Answers a) (right : Answers b) :
    Answers (.binary .notEqual a b) :=
  fun _ _ tracked => (left.sides right .notEqual tracked).map _

theorem answers_result : Answers .result := by
  intro want c tracked
  refine .get ?_
  dsimp only
  split
  · exact blames_throw_bind rfl _
  · exact (blames_resultSlot tracked).map _

theorem answers_assign (name : String) {a : Node} (value : Answers a) :
    Answers (.assign name a) := by
  intro want c tracked
  refine .get ?_
  dsimp only
  split
  · rename_i index
    refine (blames_paramAt index).bind fun param d there => ?_
    obtain rfl := paramAt_ok there
    refine (value.value _ _ tracked).bind fun found d _ => ?_
    split
    · exact (blames_resolveParam _ _).map _
    · exact blames_pure _
  · exact (value.value _ _ tracked).map _
  · exact blames_throw rfl

theorem answers_branch {test : Node} {body : List Node} {other : Option (List Node)}
    (condition : Answers test) (inner : AllAnswer body)
    (otherwise : ∀ nodes, other = some nodes → AllAnswer nodes) :
    Answers (.branch test body other) := by
  intro want c tracked
  rw [Node.holdsVoid_branch, node]
  refine ((condition.operand _ _ tracked).mono (by simp +contextual)).bind fun code c₁ first => ?_
  have tracked₁ := ((derived test).operand first).tracked tracked
  refine ((inner.block tracked₁).mono (by simp +contextual)).bind fun code c₂ second => ?_
  have tracked₂ := ((statements_yields fun n _ => derived n).block second).tracked tracked₁
  cases other with
  | none => exact blames_pure _
  | some nodes =>
    exact (((otherwise nodes rfl).block tracked₂).mono (by simp +contextual)).map _

theorem answers_loop {test : Node} {body : List Node} (condition : Answers test)
    (inner : AllAnswer body) : Answers (.loop test body) := by
  intro want c tracked
  rw [Node.holdsVoid_loop]
  refine ((condition.operand _ _ tracked).mono (by simp +contextual)).bind fun code c₁ first => ?_
  have tracked₁ := ((derived test).operand first).tracked tracked
  exact ((inner.block tracked₁).mono (by simp +contextual)).map _

theorem answers_times {count : Node} {body : List Node} (amount : Answers count)
    (inner : AllAnswer body) : Answers (.times count body) := by
  intro want c tracked
  rw [Node.holdsVoid_times]
  intro fault failed
  simp only [node, enterScope, modify_bind] at failed
  revert fault
  have entered : { c with scope := c.scope.enter }.Tracked :=
    tracked.moved tracked.tidy.enter rfl rfl
  refine ((amount.operand _ _ entered).mono (by simp +contextual)).bind fun code c₁ first => ?_
  have tracked₁ := ((derived count).operand first).tracked entered
  refine blames_allocateScratch.bind fun threshold c₂ second => ?_
  refine blames_allocateScratch.bind fun counter c₃ third => ?_
  have tracked₂ : c₃.Tracked := by
    obtain ⟨slots, -, rfl⟩ := allocateScratch_ok second
    obtain ⟨slots', -, rfl⟩ := allocateScratch_ok third
    exact tracked₁.moved ((tracked₁.tidy.addScratch threshold).addScratch counter) rfl rfl
  refine ((inner.block tracked₂).mono (by simp +contextual)).bind fun _ _ _ _ failed => ?_
  cases failed

theorem answers_define (name : String) (params : List Param) (returns : Option Ty)
    {body : List Node} (inner : AllAnswer body) : Answers (.define name params returns body) := by
  intro want c tracked
  rw [Node.holdsVoid_define]
  refine (blames_startDraft _ _ _).bind fun _ c₁ started => ?_
  obtain ⟨-, -, -, parameters, slots, -, -, begun⟩ := startDraft_ok started
  have tracked₁ : c₁.Tracked := by
    rw [begun]
    refine ⟨tracked.tidy, fun current same => ?_⟩
    cases same
    simp [draftOf?]
  refine (inner.block tracked₁).bind fun code c₂ compiled => ?_
  have inside := (statements_yields fun n _ => derived n).block compiled
  refine (blames_finishDraft _ _ _ ((inside.tracked tracked₁).entry name ?_)).map _
  rw [(inside.grows tracked₁.tidy).current, begun]

theorem answers_convert {a : Node} (target : Ty) (value : Answers a) :
    Answers (.convert a target) := by
  intro want c tracked
  refine (value tracked).bind fun x c₁ _ => ?_
  refine (blames_requireValue _ _).bind fun source c₂ _ => ?_
  dsimp only
  split
  · exact blames_throw_bind rfl _
  · exact blames_pure _

theorem answers_item {index list : Node} (place : Answers index) (items : Answers list) :
    Answers (.item index list) := by
  intro want c tracked
  refine ((items.operand _ _ tracked).mono (by simp +contextual)).bind fun code c₁ first => ?_
  have tracked₁ := ((derived list).operand first).tracked tracked
  refine ((place.operand _ _ tracked₁).mono (by simp +contextual)).bind fun code c₂ _ => ?_
  dsimp only
  split
  · exact blames_throw_bind rfl _
  · exact blames_throw_bind rfl _
  · exact blames_pure _

theorem answers_setItem {index list a : Node} (place : Answers index) (items : Answers list)
    (value : Answers a) : Answers (.setItem index list a) := by
  intro want c tracked
  cases list with
  | var name =>
    refine ((items.operand _ _ tracked).mono (by simp +contextual)).bind fun code c₁ first => ?_
    have tracked₁ := ((derived (.var name)).operand first).tracked tracked
    refine (blames_slotOf name).bind fun slot d located => ?_
    obtain ⟨-, rfl⟩ := slotOf_ok located
    refine ((place.operand _ _ tracked₁).mono (by simp +contextual)).bind fun code c₂ second => ?_
    have tracked₂ := ((derived index).operand second).tracked tracked₁
    exact ((value.value _ _ tracked₂).mono (by simp +contextual)).map _
  | _ => exact blames_throw rfl

theorem answers_declare {name : String} {type : Option Ty} {start : Option Node}
    (inner : ∀ n, start = some n → Answers n) : Answers (.declare name type start) := by
  intro want c tracked
  refine .get ?_
  dsimp only
  split
  · exact blames_throw_bind rfl _
  refine blames_allocate.bind fun slot c₁ allocated => ?_
  obtain ⟨slots, -, rfl⟩ := allocate_ok allocated
  refine Blames.bind ?_ fun _ _ _ => (blames_modify _).map _
  cases start with
  | some start => exact (inner start rfl).value _ _ (tracked.moved tracked.tidy rfl rfl)
  | none =>
    cases type with
    | none => exact blames_throw rfl
    | some type =>
      cases type with
      | void => exact blames_throw rfl
      | _ => exact (blames_push _ nofun).map _

theorem answers_giveBack {value : Option Node} (inner : ∀ n, value = some n → Answers n) :
    Answers (.giveBack value) := by
  intro want c tracked
  refine .get ?_
  dsimp only
  split
  · rename_i draft _
    refine Blames.bind ?_ fun _ _ _ => (blames_noteReturn _ _).map _
    cases value with
    | none => exact blames_pure _
    | some expr =>
      rw [givenBack]
      split
      · exact (inner expr rfl).value _ _ tracked
      · exact (inner expr rfl tracked).bind fun _ _ _ => (blames_requireValue _ _).map _
  · exact blames_throw rfl

theorem blames_arguments {callee : Callee} {nodes : List Node} (inner : ∀ n ∈ nodes, Answers n)
    (position : Nat) (tracked : c.Tracked) :
    Blames (arguments callee position nodes) c (nodes.any Node.holdsVoid = true) := by
  induction nodes generalizing position c with
  | nil => exact blames_pure _
  | cons a more ih =>
    obtain ⟨first, rest⟩ := List.forall_mem_cons.mp inner
    rw [List.any_cons]
    refine (blames_expected _ _).bind fun expected d wanted => ?_
    obtain rfl := expected_ok wanted
    refine ((first.value _ _ tracked).mono (by simp +contextual)).bind fun found c₁ compiled => ?_
    have tracked₁ := ((derived a).value compiled).tracked tracked
    have tail {c₂ : Compiler} (retyped : c₁.Retyped c₂) : Blames (do
        return found.2 :: (← arguments callee (position + 1) more)) c₂
          ((a.holdsVoid || more.any Node.holdsVoid) = true) :=
      ((ih rest (position + 1) (retyped.steady.grows.tracked tracked₁)).mono
        (by simp +contextual)).map _
    dsimp only
    split
    · exact (blames_resolveParam _ _).bind fun _ _ resolved => tail (resolveParam_ok resolved)
    · exact tail (.refl _)

theorem blames_items {nodes : List Node} (inner : ∀ n ∈ nodes, Answers n) (position : Nat)
    (tracked : c.Tracked) : Blames (items position nodes) c (nodes.any Node.holdsVoid = true) := by
  induction nodes generalizing position c with
  | nil => exact blames_pure _
  | cons a more ih =>
    obtain ⟨first, rest⟩ := List.forall_mem_cons.mp inner
    rw [List.any_cons]
    refine ((first.value _ _ tracked).mono (by simp +contextual)).bind fun found c₁ compiled => ?_
    have tracked₁ := ((derived a).value compiled).tracked tracked
    exact ((ih rest (position + 1) tracked₁).mono (by simp +contextual)).map _

theorem statements_answer {nodes : List Node} (inner : ∀ n ∈ nodes, Answers n) :
    AllAnswer nodes := by
  induction nodes with
  | nil => exact fun _ _ => blames_pure _
  | cons n more ih =>
    intro c tracked
    obtain ⟨first, rest⟩ := List.forall_mem_cons.mp inner
    rw [List.any_cons]
    refine ((first tracked).mono (by simp +contextual)).bind fun x c₁ compiled => ?_
    have tracked₁ := (derived n compiled).tracked tracked
    refine (blames_finishStatement _ _ tracked₁).bind fun code c₂ finished => ?_
    have tracked₂ := (finishStatement_steady finished).grows.of_prior.tracked tracked₁
    exact ((ih rest tracked₂).mono (by simp +contextual)).map _

/-- A call of the procedure being compiled is finished before the procedure is. -/
theorem answers_call {name : String} {args : List Node} (inner : ∀ n ∈ args, Answers n) :
    Answers (.call name args) := by
  intro want c tracked
  rw [Node.holdsVoid_call]
  refine (blames_find name).bind fun callee d called => ?_
  obtain ⟨found, rfl⟩ := find_ok called
  dsimp only
  split
  · exact blames_throw_bind rfl _
  refine (blames_arguments inner 0 tracked).bind fun parts c₁ compiled => ?_
  refine blames_finishCall _ _ fun draft drafted => ?_
  have grows := (arguments_yields (fun n _ => derived n) compiled).grows tracked.tidy
  subst drafted
  rw [grows.draft.isSome_eq, found.1]
  rfl

theorem answers_list {nodes : List Node} (inner : ∀ n ∈ nodes, Answers n) :
    Answers (.list nodes) := by
  intro want c tracked
  rw [Node.holdsVoid_list, node]
  split
  · rename_i values all
    refine (blames_push (.list values) fun void => ?_).map _
    exact Node.any_holdsVoid_of_literals all void
  · split
    · rename_i fault short
      refine blames_throw_bind ?_ _
      cases fault with
      | void => exact absurd short (Value.checkLength_ne_void _ _)
      | tooLong what length => rfl
    · exact (blames_items inner 0 tracked).map _

end Nodes

/-- An internal error on a node is that there is a void in it, whatever the node. -/
theorem answers (n : Node) : Answers n := by
  match n with
  | .literal value => exact fun _ _ _ => (blames_push _ id).map _
  | .unary op a => exact answers_unary op (answers a)
  | .binary (.arith op) a b => exact answers_arith op (answers a) (answers b)
  | .binary (.order op) a b => exact answers_order op (answers a) (answers b)
  | .binary (.logic op) a b => exact answers_logic op (answers a) (answers b)
  | .binary .equal a b => exact answers_equal (answers a) (answers b)
  | .binary .notEqual a b => exact answers_notEqual (answers a) (answers b)
  | .result => exact answers_result
  | .var name => exact fun want _ _ => blames_reference name want
  | .declare name type start => exact answers_declare fun n _ => answers n
  | .assign name a => exact answers_assign name (answers a)
  | .branch test body none =>
    have inner : ∀ n ∈ body, Answers n := fun n member => by
      have smaller := List.sizeOf_lt_of_mem member
      exact answers n
    exact answers_branch (answers test) (statements_answer inner) nofun
  | .branch test body (some other) =>
    have otherwise := statements_answer fun n (_ : n ∈ other) => answers n
    exact answers_branch (answers test) (statements_answer fun n _ => answers n)
      fun nodes same => Option.some.inj same ▸ otherwise
  | .loop test body => exact answers_loop (answers test) (statements_answer fun n _ => answers n)
  | .times count body =>
    exact answers_times (answers count) (statements_answer fun n _ => answers n)
  | .call name args => exact answers_call fun n _ => answers n
  | .define name params returns body =>
    exact answers_define name params returns (statements_answer fun n _ => answers n)
  | .convert a target => exact answers_convert target (answers a)
  | .giveBack value => exact answers_giveBack fun n _ => answers n
  | .list nodes => exact answers_list fun n _ => answers n
  | .item index list => exact answers_item (answers index) (answers list)
  | .setItem index list a => exact answers_setItem (answers index) (answers list) (answers a)
termination_by sizeOf n

end Compile

namespace Compiler

theorem Ready.tracked {c : Compiler} (ready : c.Ready) : c.Tracked := by
  refine ⟨ready.tidy, fun name current => ?_⟩
  rw [ready.current] at current
  cases current

/-- The only internal error on a unit is that there is a void in it. -/
theorem Ready.internal_void {c : Compiler} (ready : c.Ready) {program : Program}
    {fault : InternalFault} (failed : c.compile program = .error (.internal fault)) :
    fault = .voidInlined ∧ program.any Node.holdsVoid = true := by
  unfold Compiler.compile at failed
  cases compiled : (Compile.statements program).run c with
  | error error =>
    rw [compiled] at failed
    cases failed
    exact statements_answer (fun n _ => answers n) ready.tracked fault compiled
  | ok found =>
    rw [compiled] at failed
    cases failed

/-- A unit without void values compiles, or it is refused with a diagnostic: in no state between
units does it meet a fault of the compiler itself. -/
theorem Reached.compile_diagnosed {hosts : List (String × Signature)} {c : Compiler}
    (reached : Reached hosts c) {program : Program}
    (voidless : program.any Node.holdsVoid = false) :
    (∃ code after, c.compile program = .ok (code, after)) ∨
      ∃ error, c.compile program = .error error ∧ error.isInternal = false := by
  cases compiled : c.compile program with
  | ok found => exact .inl ⟨found.1, found.2, rfl⟩
  | error error =>
    refine .inr ⟨error, rfl, ?_⟩
    cases error with
    | internal fault =>
      have void := (reached.ready.internal_void compiled).2
      rw [voidless] at void
      cases void
    | _ => rfl

/-- Behind a procedure that calls itself, one whose parameter stays open is refused with a
diagnostic. -/
theorem compile_diagnosed_open :
    let earlier : Program := [.define "count" [⟨"n", none⟩] none
      [.branch (.binary .equal (.var "n") (.literal (.number .zero)))
        [.giveBack (some (.var "n"))] none,
        .giveBack (some (.call "count"
          [.binary (.arith .sub) (.var "n") (.literal (.number .one))]))]]
    let program : Program := [.define "same" [⟨"x", none⟩] none
      [.list [.literal (.list [.list []]), .var "x"]]]
    (((new []).after [earlier]).procedure? "count").isSome = true ∧
      program.any Node.holdsVoid = false ∧
      ∃ error, ((new []).after [earlier]).compile program = .error error ∧
        error.isInternal = false := by
  intro earlier program
  have voidless : program.any Node.holdsVoid = false := by decide
  have refused : (((new []).after [earlier]).compile program).toOption.isNone = true := by
    decide +kernel
  refine ⟨by decide +kernel, voidless, ?_⟩
  rcases (Reached.new.after [earlier]).compile_diagnosed voidless with
    ⟨code, after, done⟩ | diagnosed
  · rw [done] at refused
    cases refused
  · exact diagnosed

end Compiler

end Primer
