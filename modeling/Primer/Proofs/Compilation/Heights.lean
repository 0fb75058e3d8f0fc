import Primer.Proofs.Annotation
import Primer.Proofs.Compilation.Settling
import Primer.Proofs.Compilation.Shelf

/-!
Heights of the operand stack. Every instruction takes a number of values off the stack and puts a
number of values on it; calls do so as their procedures are declared. Compiled code is annotated
with heights: an expression raises the stack by its value, a statement leaves it as it was, and
where a procedure returns there is just what it gives back.
-/

set_option autoImplicit false
set_option relaxedAutoImplicit false

namespace Primer

/-- How many values there are of what has the type. -/
def Ty.height : Ty → Nat
  | .void => 0
  | _ => 1

theorem Ty.height_of_ne_void {type : Ty} (filled : type ≠ .void) : type.height = 1 := by
  cases type <;> first | rfl | exact absurd rfl filled

/-- How many values the code leaves. What has an open type is a value. -/
def Compiled.height (x : Compiled) : Nat := x.type.elim 1 Ty.height

theorem Compiled.height_of_type {x : Compiled} {type : Ty} (typed : x.type = some type) :
    x.height = type.height := by
  rw [height, typed]
  rfl

theorem Compiled.height_of_value {x : Compiled} (filled : x.type ≠ some .void) : x.height = 1 := by
  cases typed : x.type with
  | none => rw [height, typed]; rfl
  | some type =>
    rw [height_of_type typed]
    exact Ty.height_of_ne_void fun same => filled (typed.trans (congrArg some same))

/-- How many values an instruction takes and gives, unless that is up to a procedure. -/
def Instruction.exchange? : Instruction → Option (Nat × Nat)
  | jump _ | free _ => some (0, 0)
  | jumpIf _ | pop | store _ => some (1, 0)
  | push _ | load _ => some (0, 1)
  | dup => some (1, 2)
  | arith _ | order _ | equal | notEqual | getItem _ => some (2, 1)
  | invert | negate | convert _ => some (1, 1)
  | makeList count => some (count.toNat, 1)
  | setItem => some (3, 1)
  | call _ | callHost _ | ret => none

/-- The procedure can be called: no argument is void. -/
def Procedure.Callable (p : Procedure) : Prop := ∀ param ∈ p.params, param.type ≠ .void

/-- How many values procedures take and give: those at an address, those of the host, and the one
that the code belongs to. -/
structure Trade where
  procedures : Nat → Nat → Nat → Prop
  hosts : String → Nat → Nat → Prop
  back : Nat

namespace Trade

/-- An instruction takes and gives numbers of values. -/
inductive Moves (t : Trade) : Instruction → Nat → Nat → Prop
  | plain {i : Instruction} {takes gives : Nat} (fixed : i.exchange? = some (takes, gives)) :
      Moves t i takes gives
  | call {target takes gives : Nat} (known : t.procedures target takes gives) :
      Moves t (.call target) takes gives
  | host {name : String} {takes gives : Nat} (known : t.hosts name takes gives) :
      Moves t (.callHost name) takes gives

theorem Moves.shift {t : Trade} {i : Instruction} {takes gives : Nat}
    (moves : t.Moves i takes gives) (distance : Nat) : t.Moves (i.shift distance) takes gives := by
  cases moves with
  | plain fixed => cases i <;> exact .plain fixed
  | call known => exact .call known
  | host known => exact .host known

/-- The heights of the stack before and after instructions. -/
def heights (t : Trade) : Discipline Nat where
  changes i a b := ∃ takes gives, t.Moves i takes gives ∧ takes ≤ a ∧ b + takes = a + gives
  returns a := a = t.back
  shifts := fun distance ⟨takes, gives, moves, enough, sum⟩ =>
    ⟨takes, gives, moves.shift distance, enough, sum⟩

variable {t : Trade}

theorem Moves.changes {i : Instruction} {takes gives : Nat} (moves : t.Moves i takes gives)
    (base : Nat) : t.heights.changes i (base + takes) (base + gives) :=
  ⟨takes, gives, moves, Nat.le_add_left _ _, by omega⟩

theorem changes_plain {i : Instruction} {takes gives base a b : Nat}
    (fixed : i.exchange? = some (takes, gives)) (before : a = base + takes)
    (after : b = base + gives) : t.heights.changes i a b :=
  before ▸ after ▸ (Moves.plain fixed).changes base

/-- What is traded agrees with what is known before and after a task: the procedures that can be
called, those of the host, and the one that is being compiled, whose type has to be declared. -/
structure Knows (t : Trade) (c c' : Compiler) : Prop where
  defined : ∀ p ∈ c'.procedures, p.Callable →
    t.procedures p.address p.params.length p.returns.height
  hosts : ∀ name signature, c.hosts.lookup name = some signature →
    t.hosts name signature.params.length signature.returns.height
  drafted : ∀ draft, c.draft = some draft → draft.declared ∧ ∃ type, draft.returns = some type ∧
    t.procedures draft.address draft.params.length type.height ∧ type.height = t.back
  filled : c.Filled
  proper : c.scope.Proper

theorem Knows.first {c c₁ c' : Compiler} (knows : t.Knows c c') (grows : c₁.Grows c') :
    t.Knows c c₁ :=
  ⟨fun p member => knows.defined p (grows.procedures.subset member), knows.hosts, knows.drafted,
    knows.filled, knows.proper⟩

theorem Knows.rest {c c₁ c' : Compiler} (knows : t.Knows c c') (grows : c.Grows c₁)
    (filled : c₁.Filled) (proper : c₁.scope.Proper) : t.Knows c₁ c' := by
  refine ⟨knows.defined, grows.hosts ▸ knows.hosts, fun later still => ?_, filled, proper⟩
  have kept := grows.draft
  rw [still] at kept
  cases inside : c.draft with
  | none => rw [inside] at kept; exact kept.elim
  | some draft =>
    rw [inside] at kept
    obtain ⟨declared, type, returns, takes, back⟩ := knows.drafted draft inside
    have same := congrArg List.length kept.params
    rw [List.length_map, List.length_map] at same
    refine ⟨kept.declared.trans declared, type, kept.returns declared type returns, ?_, back⟩
    rw [kept.address, same]
    exact takes

/-- What is known stays known after a task. -/
theorem Knows.after {task : Task} {x : Compiled} {c c₁ c' : Compiler} (knows : t.Knows c c')
    (first : Yields task c x c₁) (tidy : c.scope.Tidy) (wants : task.WantsValue) : t.Knows c₁ c' :=
  knows.rest (first.grows tidy) (first.filled wants knows.filled)
    (first.variables tidy wants knows.proper)

end Trade

namespace Compile

variable {c c' : Compiler}

theorem noteReturn_declared {draft : Draft} {type : Ty}
    (done : noteReturn draft type c = .ok ((), c')) (declared : draft.declared) :
    draft.returns = some type := by
  apply Decidable.byContradiction
  intro other
  simp [noteReturn, declared, other] at done

end Compile

/-- What the procedure is known to give back. -/
def Callee.returns? (c : Compiler) : Callee → Option Ty
  | .host _ signature => some signature.returns
  | .defined procedure => some procedure.returns
  | .drafted draft => (c.draft.getD draft).returns

open Compile

/-- A call has the type that its procedure gives back, once that is known. -/
theorem Compile.finishCall_type {callee : Callee} {arguments : Fragment} {want : Option Ty}
    {out : Compiled} {c c' : Compiler} {type : Ty}
    (done : finishCall callee arguments want c = .ok (out, c'))
    (known : callee.returns? c = some type) : out.type = some type := by
  unfold finishCall at done
  cases callee with
  | host name signature =>
    obtain ⟨code, between, -, last⟩ := bind_eq_ok.mp done
    simp only [pure_eq_ok, Prod.mk.injEq] at last
    rw [last.1]
    exact known
  | defined procedure =>
    simp only [pure_eq_ok, Prod.mk.injEq] at done
    rw [done.1]
    exact known
  | drafted draft =>
    have known : (c.draft.getD draft).returns = some type := known
    simp only [get_bind, known, pure_eq_ok, Prod.mk.injEq] at done
    rw [done.1]

/-- What is passed to a parameter is not void. -/
theorem Yields.arguments_filled {p : Procedure} {position : Nat} {nodes : List Node}
    {c c' : Compiler} {x : Compiled}
    (derivation : Yields (.arguments (.defined p) position nodes) c x c') :
    ∀ param ∈ (p.params.drop position).take nodes.length, param.type ≠ .void := by
  induction nodes generalizing position c x with
  | nil => simp
  | cons a more ih =>
    cases derivation with
    | moreArguments wanted first typed resolved rest =>
      intro param member
      cases here : p.params[position]? with
      | none => simp [List.drop_eq_nil_of_le (List.getElem?_eq_none_iff.mp here)] at member
      | some passed =>
        have within := (List.getElem?_eq_some_iff.mp here).1
        rw [List.drop_eq_getElem_cons within, List.length_cons, List.take_succ_cons,
          List.mem_cons] at member
        rcases member with rfl | later
        · simp only [Callee.expected, List.getElem?_eq_getElem within, pure_eq_ok,
            Prod.mk.injEq] at wanted
          rw [wanted.1] at first
          cases first with
          | valueOf _ _ filled => exact filled
        · exact ih rest param later

/-- The call of a procedure takes its arguments and gives what it is declared to give back. -/
theorem Callee.Found.moves {t : Trade} {callee : Callee} {name : String} {args : List Node}
    {c c₁ : Compiler} {x : Compiled} (found : callee.Found c name)
    (arity : callee.arity = args.length)
    (given : Yields (.arguments callee 0 args) c x c₁) (knows : t.Knows c c₁) (grows : c.Grows c₁) :
    ∃ type, callee.returns? c₁ = some type ∧
      t.Moves callee.instruction callee.arity type.height := by
  cases callee with
  | host other signature =>
    obtain ⟨rfl, -, -, listed⟩ := found
    exact ⟨_, rfl, .host (knows.hosts _ _ listed)⟩
  | defined procedure =>
    have member := List.mem_of_find?_eq_some found.2
    have callable : procedure.Callable := fun param passed =>
      given.arguments_filled param (by
        rw [List.drop_zero, ← arity]
        exact (List.take_length (l := procedure.params)).symm ▸ passed)
    exact ⟨_, rfl, .call (knows.defined _ (grows.procedures.subset member) callable)⟩
  | drafted draft =>
    obtain ⟨declared, type, returns, takes, -⟩ := knows.drafted draft found.1
    refine ⟨type, ?_, .call takes⟩
    have kept := grows.draft
    rw [found.1] at kept
    cases inside : c₁.draft with
    | none => rw [inside] at kept; exact kept.elim
    | some now =>
      rw [inside] at kept
      rw [Callee.returns?, inside]
      exact kept.returns declared type returns

/-- Where types are declared, the type of a call is known. -/
theorem Yields.call_typed {t : Trade} {name : String} {args : List Node} {want : Option Ty}
    {c c' : Compiler} {x : Compiled} (derivation : Yields (.node (.call name args) want) c x c')
    (tidy : c.scope.Tidy) (knows : t.Knows c c') : x.type ≠ none := by
  cases derivation with
  | call found arity arguments finished =>
    have knows := knows.first (finishCall_ok finished).2.2.retyped.steady.grows
    obtain ⟨type, known, -⟩ := (find_ok found).1.moves arity arguments knows (arguments.grows tidy)
    rw [finishCall_type finished known]
    nofun

namespace Task

/-- How many values the code of a task leaves on the stack. -/
def rise : Task → Compiled → Nat
  | node .., x | givenBack .., x => x.height
  | operand .., _ | value .., _ | initial .., _ => 1
  | arguments _ _ nodes, _ | items _ nodes, _ => nodes.length
  | statements _, _ | block _, _ => 0

/-- The code of a task can stand above a number of values. Statements may return, so that nothing
may be below them. -/
def Bears : Task → Compiled → Nat → Prop
  | node .., x, base | givenBack .., x, base => x.type = some .void → base = 0
  | statements _, _, base | block _, _, base => base = 0
  | _, _, _ => True

end Task

namespace Fragment.Annotated

variable {t : Trade}

/-- Instructions that leave the height as it is. -/
theorem frees {base : Nat} (slots : List UInt8) :
    Annotated t.heights (slots.map Instruction.free) base base := by
  induction slots with
  | nil => exact .nil
  | cons slot more ih =>
    have first : Annotated t.heights [.free slot] base base :=
      single rfl (fun _ => Trade.changes_plain rfl rfl rfl) nofun
    have whole := first.append ih
    rwa [shift_straight fun i member => by
      obtain ⟨slot, -, rfl⟩ := List.mem_map.mp member
      rfl] at whole

theorem append_frees {code : Fragment} {a base : Nat} (left : Annotated t.heights code a base)
    (slots : List UInt8) : Annotated t.heights (code ++ slots.map Instruction.free) a base := by
  have whole := left.append (frees slots)
  rwa [shift_straight fun i member => by
    obtain ⟨slot, -, rfl⟩ := List.mem_map.mp member
    rfl] at whole

/-- An instruction behind code. -/
theorem then_plain {code : Fragment} {start takes gives base a b : Nat}
    (left : Annotated t.heights code start a) (i : Instruction)
    (fixed : i.exchange? = some (takes, gives))
    (straight : i.jump? = none) (before : a = base + takes) (after : b = base + gives) :
    Annotated t.heights (code ++ [i]) start b :=
  left.followed straight (fun _ => Trade.changes_plain fixed before after) fun ret => by
    rw [ret] at fixed
    cases fixed

theorem plain {takes gives base a b : Nat} (i : Instruction)
    (fixed : i.exchange? = some (takes, gives)) (straight : i.jump? = none)
    (before : a = base + takes) (after : b = base + gives) : Annotated t.heights [i] a b :=
  then_plain .nil i fixed straight before after

end Fragment.Annotated

open Fragment.Annotated Trade

theorem UnaryOp.exchange (op : UnaryOp) :
    op.instruction.exchange? = some (1, 1) ∧ op.instruction.jump? = none := by
  cases op <;> exact ⟨rfl, rfl⟩

theorem BinaryOp.comparison_exchange {op : BinaryOp} {i : Instruction}
    (compares : op.comparison? = some i) : i.exchange? = some (2, 1) ∧ i.jump? = none := by
  cases op <;> cases compares <;> exact ⟨rfl, rfl⟩

theorem EncodeFault.toNat_of_checkLength {length : Nat}
    (short : EncodeFault.checkLength .list length = .ok ()) :
    (UInt16.ofNat length).toNat = length := by
  unfold checkLength at short
  split at short
  · rename_i within
    exact UInt16.toNat_ofNat_of_lt' (Nat.lt_succ_of_le within)
  · cases short

theorem Instruction.type_ne_void_of_check {value : Value}
    (passes : (Instruction.push value).check = .ok ()) : value.type ≠ .void := by
  cases value <;> first | exact Ty.noConfusion | cases passes

namespace Fragment.Annotated

variable {t : Trade} {first second third : Fragment}

/-- The shapes of control flow, where a condition is one value and bodies leave nothing. -/
theorem guarded {base : Nat} (condition : Annotated t.heights first base (base + 1))
    (inner : Annotated t.heights second base base) :
    Annotated t.heights (Fragment.conditional first second) base base ∧
      Annotated t.heights (Fragment.whileLoop first second) base base :=
  ⟨condition.conditional inner (changes_plain rfl rfl rfl) fun _ => changes_plain rfl rfl rfl,
    condition.whileLoop inner (changes_plain rfl rfl rfl) (fun _ => changes_plain rfl rfl rfl)
      fun _ => changes_plain rfl rfl rfl⟩

theorem counted {base : Nat} (threshold counter : UInt8)
    (amount : Annotated t.heights first base (base + 1))
    (inner : Annotated t.heights second base base) :
    Annotated t.heights (Fragment.countedLoop first threshold counter second) base base := by
  have tests : Annotated t.heights [.dup, .push (.number .zero), .order .lessEq] (base + 1)
      (base + 2) :=
    ((plain .dup rfl rfl rfl rfl).then_plain (.push (.number .zero)) rfl rfl rfl rfl).then_plain
      (.order .lessEq) rfl rfl rfl rfl
  have prepares : Annotated t.heights [.store threshold, .push (.number .zero), .store counter]
      (base + 1) base :=
    ((plain (.store threshold) rfl rfl rfl rfl).then_plain (.push (.number .zero)) rfl rfl rfl
      rfl).then_plain (.store counter) rfl rfl rfl rfl
  have counts : Annotated t.heights [.load counter, .push (.number .one), .arith .add, .dup,
      .store counter] base (base + 1) :=
    ((((plain (.load counter) rfl rfl rfl rfl).then_plain (.push (.number .one)) rfl rfl rfl
      rfl).then_plain (.arith .add) rfl rfl rfl rfl).then_plain .dup rfl rfl rfl rfl).then_plain
      (.store counter) rfl rfl rfl rfl
  have advances : Annotated t.heights [.load counter, .push (.number .one), .arith .add, .dup,
      .store counter, .load threshold, .order .less] base (base + 1) :=
    (counts.then_plain (.load threshold) rfl rfl rfl rfl).then_plain (.order .less) rfl rfl rfl rfl
  exact amount.countedLoop threshold counter inner tests (fun _ => changes_plain rfl rfl rfl)
    prepares advances (fun _ => changes_plain rfl rfl rfl) (fun _ => changes_plain rfl rfl rfl)
    (changes_plain rfl rfl rfl)

end Fragment.Annotated

/-- The code of every task raises the stack as it should. -/
theorem Yields.levels {task : Task} {c c' : Compiler} {x : Compiled}
    (derivation : Yields task c x c') (tidy : c.scope.Tidy) (wants : task.WantsValue) {t : Trade}
    (knows : t.Knows c c') (base : Nat) (bears : task.Bears x base) :
    x.code.Annotated t.heights base (base + task.rise x) := by
  induction derivation generalizing base with
  | literal passes =>
    rw [Task.rise, Compiled.height_of_type rfl,
      Ty.height_of_ne_void (Instruction.type_ne_void_of_check passes)]
    exact plain _ rfl rfl rfl rfl
  | literals | initialDefault => exact plain _ rfl rfl rfl rfl
  | unary operand inner =>
    obtain ⟨fixed, straight⟩ := UnaryOp.exchange _
    rw [Task.rise, Compiled.height_of_type rfl, Ty.height_of_ne_void (UnaryOp.type_ne_void _)]
    exact (inner tidy (UnaryOp.type_ne_void _) knows base trivial).then_plain _ fixed
      straight rfl rfl
  | arith left right first second | order left right first second =>
    have early := first tidy nofun (knows.first (right.grows (left.tidy tidy))) base trivial
    have late := second (left.tidy tidy) nofun (knows.after left tidy nofun) (base + 1) trivial
    exact early.before (late.before (.before (plain _ rfl rfl rfl rfl) .nil))
  | logic left right first second =>
    have early := first tidy nofun (knows.first (right.grows (left.tidy tidy))) base trivial
    have late := second (left.tidy tidy) nofun (knows.after left tidy nofun) base trivial
    exact early.shortCircuit _ late (changes_plain rfl rfl rfl) (fun _ => changes_plain rfl rfl rfl)
      (fun _ => changes_plain rfl rfl rfl) fun _ => changes_plain rfl rfl rfl
  | comparison compares left leftValue right rightValue agreed first second =>
    obtain ⟨fixed, straight⟩ := BinaryOp.comparison_exchange compares
    have knows := knows.first (agree_ok agreed).steady.grows
    have early := first tidy nofun (knows.first (right.grows (left.tidy tidy))) base
      fun void => absurd void leftValue
    have late := second (left.tidy tidy) leftValue (knows.after left tidy nofun) (base + 1)
      fun void => absurd void rightValue
    rw [Task.rise, Compiled.height_of_value leftValue] at early
    rw [Task.rise, Compiled.height_of_value rightValue] at late
    exact (early.before (late.before .nil)).then_plain _ fixed straight rfl rfl
  | result available =>
    rw [Task.rise, Compiled.height_of_type rfl, Ty.height_of_ne_void available]
    exact plain _ rfl rfl rfl rfl
  | @var name _ c x _ found =>
    obtain ⟨slot, code, filled⟩ : ∃ slot, x.code = [.load slot] ∧ x.type ≠ some .void := by
      rcases reference_ok found with
        ⟨position, param, isParam, code, -⟩ | ⟨target, -, isVariable, rfl, -⟩
      · refine ⟨_, code, ?_⟩
        rcases (reference_param isParam found).2 with ⟨same, -⟩ | ⟨-, type, rfl, same, -⟩
        · rw [same]
          intro void
          exact knows.filled position (void ▸ Compiler.paramTypes_param isParam)
        · rw [same]
          exact wants
      · obtain ⟨before, after, split, -⟩ := List.lookup_eq_some_iff.mp isVariable
        have member : (name, target) ∈ c.scope.bindings := by
          rw [split]
          simp
        exact ⟨_, rfl, fun void => knows.proper.1 _ member (Option.some.inj void)⟩
    rw [code, Task.rise, Compiled.height_of_value filled]
    exact plain _ rfl rfl rfl rfl
  | declare _ allocated _ _ start =>
    obtain ⟨slots, -, rfl⟩ := allocate_ok allocated
    have value :=
      start tidy trivial ⟨knows.defined, knows.hosts, knows.drafted, knows.filled, knows.proper⟩
        base trivial
    exact value.then_plain _ rfl rfl rfl rfl
  | assignParam _ _ _ resolved value =>
    have knows := knows.first (settleOpen_retyped resolved).steady.grows
    exact (value tidy trivial knows base trivial).then_plain _ rfl rfl rfl rfl
  | assignVariable _ _ _ value =>
    exact (value tidy trivial knows base trivial).then_plain _ rfl rfl rfl rfl
  | branch test body condition inner =>
    obtain rfl := bears rfl
    have early := condition tidy nofun (knows.first (body.grows (test.tidy tidy))) 0 trivial
    have late := inner (test.tidy tidy) trivial (knows.after test tidy nofun) 0 rfl
    exact (early.guarded late).1
  | loop test body condition inner =>
    obtain rfl := bears rfl
    have early := condition tidy nofun (knows.first (body.grows (test.tidy tidy))) 0 trivial
    have late := inner (test.tidy tidy) trivial (knows.after test tidy nofun) 0 rfl
    exact (early.guarded late).2
  | alternative test body other condition inner otherwise =>
    obtain rfl := bears rfl
    have tidy₁ := test.tidy tidy
    have tidy₂ := body.tidy tidy₁
    have knows₁ := knows.after test tidy nofun
    have early := condition tidy nofun (knows.first ((body.grows tidy₁).trans (other.grows tidy₂)))
      0 trivial
    have middle := inner tidy₁ trivial (knows₁.first (other.grows tidy₂)) 0 rfl
    have late := otherwise tidy₂ trivial (knows₁.after body tidy₁ trivial) 0 rfl
    exact early.alternative middle late (changes_plain rfl rfl rfl)
      (fun _ => changes_plain rfl rfl rfl) fun _ => changes_plain rfl rfl rfl
  | @times _ _ _ c _ c₁ threshold _ counter _ _ c' count first second body amount inner =>
    obtain rfl := bears rfl
    obtain ⟨slots, -, rfl⟩ := allocateScratch_ok first
    obtain ⟨slots', -, rfl⟩ := allocateScratch_ok second
    have tidy₁ := ((count.tidy tidy.enter).addScratch threshold).addScratch counter
    have knows : t.Knows { c with scope := c.scope.enter } c' :=
      ⟨knows.defined, knows.hosts, knows.drafted, knows.filled, knows.proper⟩
    have grows := body.grows tidy₁
    have early := amount tidy.enter nofun
      ⟨(knows.first grows).defined, knows.hosts, knows.drafted, knows.filled,
        knows.proper⟩ 0 trivial
    have knows₁ := knows.after count tidy.enter nofun
    have late := inner tidy₁ trivial
      ⟨knows₁.defined, knows₁.hosts, knows₁.drafted, knows₁.filled, knows₁.proper⟩ 0 rfl
    exact (counted threshold counter early late).append_frees _
  | call found arity arguments finished given =>
    obtain ⟨code, -, assumes⟩ := finishCall_ok finished
    have knows := knows.first assumes.retyped.steady.grows
    obtain ⟨type, known, moves⟩ :=
      (find_ok found).1.moves arity arguments knows (arguments.grows tidy)
    have early := given tidy trivial knows base trivial
    rw [code, Task.rise, Compiled.height_of_type (finishCall_type finished known)]
    refine early.followed (Callee.instruction_straight _) (fun _ => ?_)
      fun ret => absurd ret (Callee.instruction_ne_ret _)
    rw [Task.rise, ← arity]
    exact moves.changes base
  | define => exact .nil
  | @convert _ target _ _ x source _ inner typed filled converts value =>
    have early := value tidy nofun knows base fun void =>
      absurd (Option.some.inj (typed.symm.trans void)) filled
    have target : target ≠ .void := by
      rintro rfl
      cases source <;> first | exact filled rfl | cases converts
    rw [Task.rise, Compiled.height_of_type typed, Ty.height_of_ne_void filled] at early
    rw [Task.rise, Compiled.height_of_type rfl, Ty.height_of_ne_void target]
    exact early.then_plain _ rfl rfl rfl rfl
  | giveBack inside value typed noted given =>
    obtain rfl := bears rfl
    obtain ⟨declared, type, returns, -, back⟩ := knows.drafted _ inside
    have same := ((value.growth tidy).2 trivial).declared inside
    have early :=
      given tidy trivial (knows.first (noteReturn_ok noted same).steady.grows) 0 fun _ => rfl
    have returned := noteReturn_declared noted declared
    rw [returns, Option.some.injEq] at returned
    subst returned
    refine early.followed rfl nofun fun _ => ?_
    rw [Task.rise, Compiled.height_of_type typed, back, Nat.zero_add]
    rfl
  | list mixed short _ items =>
    have early := items tidy trivial knows base trivial
    exact early.then_plain _ rfl rfl
      (congrArg (base + ·) (EncodeFault.toNat_of_checkLength short).symm) rfl
  | item filled list index items place =>
    have early := items tidy nofun (knows.first (index.grows (list.tidy tidy))) base trivial
    have late := place (list.tidy tidy) nofun (knows.after list tidy nofun) (base + 1) trivial
    rw [Task.rise, Compiled.height_of_type rfl, Ty.height_of_ne_void filled]
    exact early.before (late.before (.before (plain _ rfl rfl rfl rfl) .nil))
  | @setItem _ _ _ _ _ _ _ slot _ _ _ c' list _ index value items place new =>
    have tidy₁ := list.tidy tidy
    have tidy₂ := index.tidy tidy₁
    have knows₁ := knows.after list tidy nofun
    have early := items tidy nofun (knows.first ((index.grows tidy₁).trans (value.grows tidy₂)))
      base trivial
    have middle := place tidy₁ nofun (knows₁.first (value.grows tidy₂)) (base + 1) trivial
    have late := new tidy₂ trivial (knows₁.after index tidy₁ nofun) (base + 2) trivial
    have stores : Fragment.Annotated t.heights [.setItem, .store slot] (base + 3) base :=
      (plain .setItem rfl rfl rfl rfl).then_plain (.store slot) rfl rfl rfl rfl
    exact early.before (middle.before (late.before (stores.before .nil)))
  | operand inner expected level =>
    have filled : _ ≠ _ := expected_value expected wants
    have early := level tidy (fun same => wants (Option.some.inj same))
      (knows.first (expect_ok expected).1.steady.grows) base fun void => absurd void filled
    rwa [Task.rise, Compiled.height_of_value filled] at early
  | valueOf inner expected value level =>
    have filled : _ ≠ _ := expected_value expected value
    have early := level tidy (fun same => value (Option.some.inj same))
      (knows.first (expect_ok expected).1.steady.grows) base fun void => absurd void filled
    rwa [Task.rise, Compiled.height_of_value filled] at early
  | valueFound inner typed filled level =>
    have early := level tidy nofun knows base fun void =>
      absurd (Option.some.inj (typed.symm.trans void)) filled
    rwa [Task.rise, Compiled.height_of_type typed, Ty.height_of_ne_void filled] at early
  | giveFound _ inner typed filled level =>
    have early := level tidy (fun same => by simp [Option.filter_eq_some_iff] at same) knows base
      fun void => absurd (Option.some.inj (typed.symm.trans void)) filled
    rw [Task.rise, Compiled.height_of_type rfl]
    rwa [Task.rise, Compiled.height_of_type typed] at early
  | initialValue inner level => exact level tidy trivial knows base trivial
  | giveDeclared declared inner level =>
    rw [Task.rise, Compiled.height_of_value inner.value_ne_void]
    exact level tidy trivial knows base trivial
  | giveNothing => exact .nil
  | noArguments | noItems | noStatements => exact .nil
  | moreArguments _ argument typed resolved more first rest =>
    have settled := (settleOpen_retyped resolved).steady
    have tidy₁ := settled.tidy (argument.tidy tidy)
    have knows₁ := knows.after argument tidy trivial
    have filled := settleOpen_filled resolved
      (fun void => argument.value_ne_void (typed.trans (congrArg some void))) knows₁.filled
    have early :=
      first tidy trivial (knows.first (settled.grows.trans (more.grows tidy₁))) base trivial
    have late := rest tidy₁ trivial
      (knows₁.rest settled.grows filled (settled.scope ▸ knows₁.proper)) (base + 1) trivial
    rw [Task.rise, List.length_cons, Nat.add_comm _ 1, ← Nat.add_assoc]
    exact early.append late
  | moreItems item more first rest =>
    have tidy₁ := item.tidy tidy
    have early := first tidy trivial (knows.first (more.grows tidy₁)) base trivial
    have late := rest tidy₁ trivial (knows.after item tidy trivial) (base + 1) trivial
    rw [Task.rise, List.length_cons, Nat.add_comm _ 1, ← Nat.add_assoc]
    exact early.append late
  | moreStatements statement finished more first rest =>
    obtain rfl : base = 0 := bears
    have settled := finishStatement_steady finished
    have scope : _ = _ := settled.scope
    have tidy₁ := settled.grows.of_prior.tidy (statement.tidy tidy)
    have knows₁ := knows.after statement tidy nofun
    have early := first tidy nofun (knows.first (settled.grows.of_prior.trans (more.grows tidy₁))) 0
      fun _ => rfl
    have late := rest tidy₁ trivial (knows₁.rest settled.grows.of_prior
      (knows₁.filled.of_eq (finishStatement_paramTypes finished)) (scope ▸ knows₁.proper)) 0 rfl
    refine Fragment.Annotated.append ?_ late
    obtain ⟨type, between, -, ⟨typed, -⟩ | ⟨unknown, -, -, name, args, rfl⟩, rest⟩ :=
      finishStatement_ok finished
    · rw [Task.rise, Compiled.height_of_type typed] at early
      rcases rest with ⟨rfl, rfl, -⟩ | ⟨slot, after, filled, -, rfl, -⟩
      · exact early
      · rw [Ty.height_of_ne_void filled] at early
        exact early.then_plain _ rfl rfl rfl rfl
    · exact absurd unknown (statement.call_typed tidy
        (knows.first (settled.grows.of_prior.trans (more.grows tidy₁))))
  | block inner level =>
    obtain rfl : base = 0 := bears
    have early := level tidy.enter trivial
      ⟨knows.defined, knows.hosts, knows.drafted, knows.filled, knows.proper⟩ 0 rfl
    exact early.append_frees _

namespace Fragment.Annotated

/-- Stores take off one value each. -/
theorem stores {t : Trade} (slots : List UInt8) :
    Annotated t.heights (slots.map Instruction.store) slots.length 0 := by
  induction slots with
  | nil => exact .nil
  | cons slot more ih =>
    have first : Annotated t.heights [.store slot] (more.length + 1) more.length :=
      plain _ rfl rfl rfl rfl
    have whole := first.append ih
    rwa [shift_straight fun i member => by
      obtain ⟨slot, -, rfl⟩ := List.mem_map.mp member
      rfl] at whole

end Fragment.Annotated

namespace Making

/-- When the body of a procedure that can be called starts, no parameter is void. -/
theorem filled (m : Making) (callable : m.draft.finish.Callable) : m.started.Filled := by
  intro i void
  have later := m.compiles.settles m.tidy trivial i .void void
  simp only [Compiler.paramTypes, m.drafted, Option.map_some, Option.getD_some, List.getElem?_map,
    Option.map_eq_some_iff] at later
  obtain ⟨param, here, typed⟩ := later
  have member : (⟨param.name, param.type.getD .void, param.slot⟩ : Parameter Ty) ∈
      m.draft.finish.params :=
    List.mem_map.mpr ⟨param, List.mem_of_getElem? here, rfl⟩
  exact callable _ member (by simp [typed])

/-- What is traded agrees with what is known in the body of a procedure with a declared type, if it
does so for the earlier procedures, the procedure itself and the host. -/
theorem trade_knows (m : Making) {t : Trade} (declared : m.returns.isSome)
    (callable : m.draft.finish.Callable)
    (defined : ∀ p ∈ m.before.procedures, p.Callable →
      t.procedures p.address p.params.length p.returns.height)
    (itself : t.procedures m.draft.finish.address m.draft.finish.params.length
      m.draft.finish.returns.height)
    (hosts : ∀ name signature, m.before.hosts.lookup name = some signature →
      t.hosts name signature.params.length signature.returns.height)
    (back : t.back = m.draft.finish.returns.height) : t.Knows m.started m.ended := by
  obtain ⟨parameters, slots, -, -, started⟩ := m.started_eq
  obtain ⟨draft, inside, kept, -, returns, isDeclared⟩ := m.continues
  obtain ⟨type, same⟩ := Option.isSome_iff_exists.mp declared
  have given : m.draft.finish.returns = type := by
    rw [Draft.finish, kept.returns (isDeclared.trans declared) type (returns.trans same)]
    rfl
  have count : draft.params.length = m.draft.finish.params.length := by
    have lengths := congrArg List.length kept.params
    simpa [Draft.finish] using lengths.symm
  refine ⟨m.procedures ▸ defined, by rw [started]; exact hosts, fun other same' => ?_,
    m.filled callable, by rw [started]; exact m.ready.proper⟩
  obtain rfl : draft = other := Option.some.inj (inside.symm.trans same')
  refine ⟨isDeclared.trans declared, type, returns.trans same, ?_, given ▸ back.symm⟩
  rw [count, ← given, ← kept.address]
  exact itself

/-- The code of a procedure takes its arguments off the stack, and leaves what it gives back where
it returns. -/
theorem levels (m : Making) {t : Trade} (knows : t.Knows m.started m.ended)
    (back : t.back = m.draft.finish.returns.height) :
    m.code.Annotated t.heights m.draft.finish.params.length 0 := by
  have body := m.compiles.levels m.tidy trivial knows 0 rfl
  have tail : Fragment.Annotated t.heights
      (if Node.blockReturns m.body then [] else [.ret]) 0 0 := by
    cases falls : Node.blockReturns m.body with
    | true => exact .nil
    | false =>
      refine .single rfl (fun onward => by cases onward) fun _ => ?_
      rcases m.returning with void | returns
      · show 0 = t.back
        rw [back, void]
        rfl
      · rw [falls] at returns
        cases returns
  rw [code, procedureCode_eq]
  have stores := Fragment.Annotated.stores (t := t) (m.draft.finish.params.map (·.slot)).reverse
  rw [List.length_reverse, List.length_map] at stores
  exact stores.before (body.before (tail.before .nil))

end Making

end Primer
