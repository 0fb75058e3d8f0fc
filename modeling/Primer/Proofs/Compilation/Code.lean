import Primer.Proofs.Compilation.Growth
import Primer.Proofs.Flow

/-!
The code that tasks make. Its jumps stay inside it, its instructions have encoded forms, and its
calls name procedures that exist by then. A block whose last statement always returns cannot be left
through its end. The library is the code of the procedures, each at its address.
-/

set_option autoImplicit false
set_option relaxedAutoImplicit false

namespace Primer

namespace Fragment

/-- All instructions other than jumps have a property. -/
def Uses (P : Instruction → Prop) (code : Fragment) : Prop := ∀ i ∈ code.plain, P i

variable {P Q : Instruction → Prop}

@[simp] theorem uses_nil : Uses P [] := by simp [Uses]

@[simp] theorem uses_append {first second : Fragment} :
    Uses P (first ++ second) ↔ Uses P first ∧ Uses P second := by
  simp only [Uses, plain_append, List.forall_mem_append]

@[simp] theorem uses_shift {code : Fragment} {distance : Nat} :
    Uses P (code.shift distance) ↔ Uses P code := by
  simp only [Uses, plain_shift]

theorem uses_single {i : Instruction} (holds : P i) : Uses P [i] := by
  intro j member
  obtain rfl : j = i := by simpa using (mem_plain.mp member).1
  exact holds

theorem uses_of_forall {code : Fragment} (all : ∀ i ∈ code, P i) : Uses P code :=
  fun i member => all i (mem_plain.mp member).1

theorem Uses.imp {code : Fragment} (uses : Uses P code) (weaker : ∀ i, P i → Q i) : Uses Q code :=
  fun i member => weaker i (uses i member)

theorem Uses.followed {code : Fragment} {i : Instruction} (uses : Uses P code) (holds : P i) :
    Uses P (code ++ [i]) :=
  uses_append.mpr ⟨uses, uses_single holds⟩

section Composition

variable {first second third : Fragment} (left : Uses P first) (right : Uses P second)
  (other : Uses P third) (inverts : P .invert)

include left right

theorem Uses.append : Uses P (first ++ shift second (size first)) :=
  uses_append.mpr ⟨left, uses_shift.mpr right⟩

theorem Uses.shortCircuit (op : Logic) (inverts : P .invert)
    (pushes : ∀ b, P (.push (.boolean b))) : Uses P (shortCircuit op first second) := by
  intro i member
  rw [plain_shortCircuit] at member
  simp only [List.mem_append, List.mem_singleton] at member
  rcases member with ((inLeft | decides) | inRight) | rfl
  · exact left i inLeft
  · cases op
    · obtain rfl : i = .invert := by simpa using decides
      exact inverts
    · simp at decides
  · exact right i inRight
  · exact pushes _

include inverts

-- The instructions of a guarded body: those of the condition, the inversion and those of the body.
private theorem Uses.guarded {code : Fragment}
    (made : code.plain = first.plain ++ [Instruction.invert] ++ second.plain) : Uses P code := by
  intro i member
  rw [made] at member
  simp only [List.mem_append, List.mem_singleton] at member
  rcases member with (inLeft | rfl) | inRight
  · exact left i inLeft
  · exact inverts
  · exact right i inRight

theorem Uses.conditional : Uses P (conditional first second) :=
  guarded left right inverts (plain_conditional _ _)

theorem Uses.whileLoop : Uses P (whileLoop first second) :=
  guarded left right inverts (plain_whileLoop _ _)

include other in
theorem Uses.alternative : Uses P (alternative first second third) := by
  intro i member
  rw [plain_alternative, List.mem_append] at member
  rcases member with guarded | inOther
  · exact conditional left right inverts i (by rwa [plain_conditional])
  · exact other i inOther

omit inverts

theorem Uses.countedLoop {threshold counter : UInt8}
    (glue : ∀ i ∈ [.dup, .push (.number .zero), .order .lessEq, .store threshold, .store counter,
      .load counter, .push (.number .one), .arith .add, .load threshold, .order .less, .pop], P i) :
    Uses P (countedLoop first threshold counter second) := by
  intro i member
  rw [plain_countedLoop] at member
  simp only [List.mem_append, List.mem_cons, List.not_mem_nil, or_false] at member
  rcases member with ((inLeft | opens) | inRight) | closes
  · exact left i inLeft
  · exact glue i
      (by simp only [List.mem_cons]; rcases opens with h | h | h | h | h | h <;> simp [h])
  · exact right i inRight
  · exact glue i (by
      simp only [List.mem_cons]
      rcases closes with h | h | h | h | h | h | h | h <;> simp [h])

end Composition

theorem Uses.before {first : Fragment} {more : List Fragment} (left : Uses P first)
    (right : Uses P (sequence more)) : Uses P (sequence (first :: more)) := by
  rw [sequence_cons]
  exact left.append right

end Fragment

/-- The addresses that calls may name: those of the procedures, the one that is being compiled
among them. -/
def Compiler.Callable (c : Compiler) (target : Nat) : Prop :=
  (∃ procedure ∈ c.procedures, procedure.address = target) ∨
    ∃ draft, c.draft = some draft ∧ draft.address = target

theorem Compiler.Grows.callable {before after : Compiler} (grows : before.Grows after)
    {target : Nat} (callable : before.Callable target) : after.Callable target := by
  rcases callable with ⟨procedure, member, same⟩ | ⟨draft, inside, same⟩
  · exact .inl ⟨procedure, grows.procedures.subset member, same⟩
  · have kept := grows.draft
    rw [inside] at kept
    cases still : after.draft with
    | none => rw [still] at kept; exact kept.elim
    | some later =>
      rw [still] at kept
      exact .inr ⟨later, still, kept.address.trans same⟩

/-- The instruction has an encoded form, and if it is a call it may name its target. -/
def Instruction.Fits (callable : Nat → Prop) (i : Instruction) : Prop :=
  i.check = .ok () ∧ ∀ target, i = .call target → callable target

/-- The code can stand in a unit whose calls may name some addresses. -/
structure Fragment.Sound (callable : Nat → Prop) (code : Fragment) : Prop where
  closed : code.Closed
  uses : code.Uses (Instruction.Fits callable)

namespace Fragment.Sound

variable {callable : Nat → Prop} {first second : Fragment}

theorem mono {wider : Nat → Prop} (sound : Sound callable first)
    (wide : ∀ target, callable target → wider target) : Sound wider first :=
  ⟨sound.closed,
    sound.uses.imp fun _ fits => ⟨fits.1, fun target call => wide _ (fits.2 target call)⟩⟩

theorem nil : Sound callable [] := ⟨jumpsTo_nil _, uses_nil⟩

theorem single {i : Instruction} (straight : i.jump? = none) (fits : i.Fits callable) :
    Sound callable [i] :=
  ⟨straight_closed (straight_single straight), uses_single fits⟩

theorem followed {i : Instruction} (sound : Sound callable first) (straight : i.jump? = none)
    (fits : i.Fits callable) : Sound callable (first ++ [i]) :=
  ⟨sound.closed.append_straight (straight_single straight), sound.uses.followed fits⟩

theorem append (left : Sound callable first) (right : Sound callable second) :
    Sound callable (first ++ shift second (size first)) :=
  ⟨left.closed.append_shift right.closed, left.uses.append right.uses⟩

theorem before {more : List Fragment} (left : Sound callable first)
    (right : Sound callable (sequence more)) : Sound callable (sequence (first :: more)) := by
  rw [sequence_cons]
  exact left.append right

theorem frees (slots : List UInt8) : Sound callable (slots.map Instruction.free) := by
  refine ⟨straight_closed fun i member => ?_, uses_of_forall fun i member => ?_⟩ <;>
    obtain ⟨slot, -, rfl⟩ := List.mem_map.mp member
  · rfl
  · exact ⟨rfl, by simp⟩

theorem append_frees (sound : Sound callable first) (slots : List UInt8) :
    Sound callable (first ++ slots.map Instruction.free) :=
  ⟨sound.closed.append_straight fun i member => by
      obtain ⟨slot, -, rfl⟩ := List.mem_map.mp member
      rfl,
    uses_append.mpr ⟨sound.uses, (frees slots).uses⟩⟩

theorem shortCircuit (op : Logic) (left : Sound callable first) (right : Sound callable second) :
    Sound callable (shortCircuit op first second) :=
  ⟨closed_shortCircuit op left.closed right.closed,
    left.uses.shortCircuit right.uses op ⟨rfl, by simp⟩ fun _ => ⟨rfl, by simp⟩⟩

theorem conditional (left : Sound callable first) (right : Sound callable second) :
    Sound callable (conditional first second) :=
  ⟨closed_conditional left.closed right.closed, left.uses.conditional right.uses ⟨rfl, by simp⟩⟩

theorem whileLoop (left : Sound callable first) (right : Sound callable second) :
    Sound callable (whileLoop first second) :=
  ⟨closed_whileLoop left.closed right.closed, left.uses.whileLoop right.uses ⟨rfl, by simp⟩⟩

theorem alternative {third : Fragment} (left : Sound callable first)
    (right : Sound callable second) (other : Sound callable third) :
    Sound callable (alternative first second third) :=
  ⟨closed_alternative left.closed right.closed other.closed,
    left.uses.alternative right.uses other.uses ⟨rfl, by simp⟩⟩

theorem countedLoop (threshold counter : UInt8) (left : Sound callable first)
    (right : Sound callable second) :
    Sound callable (countedLoop first threshold counter second) := by
  refine ⟨closed_countedLoop threshold counter left.closed right.closed,
    left.uses.countedLoop right.uses fun i glue => ?_⟩
  simp only [List.mem_cons, List.not_mem_nil, or_false] at glue
  rcases glue with rfl | rfl | rfl | rfl | rfl | rfl | rfl | rfl | rfl | rfl | rfl <;>
    exact ⟨rfl, by simp⟩

end Fragment.Sound

open Compile

theorem Callee.instruction_straight (callee : Callee) : callee.instruction.jump? = none := by
  cases callee <;> rfl

theorem Callee.instruction_ne_ret (callee : Callee) : callee.instruction ≠ .ret := by
  cases callee <;> nofun

theorem Callee.Found.callable {c : Compiler} {name : String} {callee : Callee}
    (found : callee.Found c name) {target : Nat} (call : callee.instruction = .call target) :
    c.Callable target := by
  cases callee with
  | drafted draft =>
    cases call
    exact .inr ⟨draft, found.1, rfl⟩
  | defined procedure =>
    cases call
    exact .inl ⟨procedure, List.mem_of_find?_eq_some found.2, rfl⟩
  | host name signature => cases call

/-- A statement's code is that of its node, and a store of the result. -/
theorem Compile.finishStatement_code {n : Node} {x : Compiled} {c c' : Compiler} {code : Fragment}
    (done : finishStatement n x c = .ok (code, c')) :
    code = x.code ∨ ∃ slot, code = x.code ++ [Instruction.store slot] := by
  obtain ⟨type, between, -, -, ⟨-, same, -⟩ | ⟨slot, after, -, -, same, -⟩⟩ :=
    finishStatement_ok done
  · exact .inl same
  · exact .inr ⟨slot, same⟩

theorem UnaryOp.instruction_fits (op : UnaryOp) (callable : Nat → Prop) :
    op.instruction.jump? = none ∧ op.instruction.Fits callable := by
  cases op <;> exact ⟨rfl, rfl, by simp [instruction]⟩

theorem BinaryOp.comparison_fits {op : BinaryOp} {i : Instruction}
    (compares : op.comparison? = some i) (callable : Nat → Prop) :
    i.jump? = none ∧ i.Fits callable := by
  cases op <;> cases compares <;> exact ⟨rfl, rfl, by simp⟩

/-- All code that is made is sound. -/
theorem Yields.sound {task : Task} {c c' : Compiler} {x : Compiled}
    (derivation : Yields task c x c') (tidy : c.scope.Tidy) : x.code.Sound c'.Callable := by
  induction derivation with
  | literal passes | literals _ passes | initialDefault _ passes =>
    exact .single rfl ⟨passes, by simp⟩
  | unary _ operand =>
    obtain ⟨straight, fits⟩ := UnaryOp.instruction_fits _ _
    exact (operand tidy).followed straight fits
  | arith left right first second | order left right first second =>
    have early := (first tidy).mono fun _ => (right.grows (left.tidy tidy)).callable
    exact early.before
      ((second (left.tidy tidy)).before (.before (.single rfl ⟨rfl, by simp⟩) .nil))
  | logic left right first second =>
    have early := (first tidy).mono fun _ => (right.grows (left.tidy tidy)).callable
    exact early.shortCircuit _ (second (left.tidy tidy))
  | @comparison _ _ _ _ _ _ _ _ _ _ c' compares left _ right _ agreed first second =>
    obtain ⟨straight, fits⟩ := BinaryOp.comparison_fits compares c'.Callable
    have last := (agree_ok agreed).steady.grows
    have early := (first tidy).mono fun _ known =>
      last.callable ((right.grows (left.tidy tidy)).callable known)
    have late := (second (left.tidy tidy)).mono fun _ => last.callable
    exact (early.before (late.before .nil)).followed straight fits
  | result => exact .single rfl ⟨rfl, by simp⟩
  | var found =>
    rcases reference_ok found with ⟨_, _, _, code, _⟩ | ⟨_, _, _, rfl, _⟩
    · rw [code]
      exact .single rfl ⟨rfl, by simp⟩
    · exact .single rfl ⟨rfl, by simp⟩
  | declare _ allocated _ _ start =>
    obtain ⟨slots, -, rfl⟩ := allocate_ok allocated
    exact (start tidy).followed rfl ⟨rfl, by simp⟩
  | assignParam _ _ _ resolved value =>
    have inner := (value tidy).mono fun _ => (settleOpen_retyped resolved).steady.grows.callable
    exact inner.followed rfl ⟨rfl, by simp⟩
  | assignVariable _ _ _ value => exact (value tidy).followed rfl ⟨rfl, by simp⟩
  | branch test body condition inner =>
    have early := (condition tidy).mono fun _ => (body.grows (test.tidy tidy)).callable
    exact early.conditional (inner (test.tidy tidy))
  | loop test body condition inner =>
    have early := (condition tidy).mono fun _ => (body.grows (test.tidy tidy)).callable
    exact early.whileLoop (inner (test.tidy tidy))
  | alternative test body other condition inner otherwise =>
    have tidy₁ := test.tidy tidy
    have tidy₂ := body.tidy tidy₁
    have early := (condition tidy).mono fun _ known =>
      (other.grows tidy₂).callable ((body.grows tidy₁).callable known)
    have middle := (inner tidy₁).mono fun _ => (other.grows tidy₂).callable
    exact early.alternative middle (otherwise tidy₂)
  | @times _ _ _ _ _ _ threshold _ counter _ _ _ count first second body amount inner =>
    obtain ⟨slots, -, rfl⟩ := allocateScratch_ok first
    obtain ⟨slots', -, rfl⟩ := allocateScratch_ok second
    have tidy₁ := ((count.tidy tidy.enter).addScratch threshold).addScratch counter
    have early := (amount tidy.enter).mono fun _ known => (body.grows tidy₁).callable known
    exact (early.countedLoop _ _ (inner tidy₁)).append_frees _
  | call found _ arguments finished given =>
    obtain ⟨code, passes, assumes⟩ := finishCall_ok finished
    have last := assumes.retyped.steady.grows
    have early := (given tidy).mono fun _ => last.callable
    rw [code]
    refine early.followed (Callee.instruction_straight _) ⟨passes, fun target call => ?_⟩
    exact last.callable ((arguments.grows tidy).callable ((find_ok found).1.callable call))
  | define => exact .nil
  | convert _ _ _ _ value => exact (value tidy).followed rfl ⟨rfl, by simp⟩
  | giveBack inside value _ noted given =>
    have declared := ((value.growth tidy).2 trivial).declared inside
    have inner := (given tidy).mono fun _ => (noteReturn_ok noted declared).steady.grows.callable
    exact inner.followed rfl ⟨rfl, by simp⟩
  | list _ _ _ items => exact (items tidy).followed rfl ⟨rfl, by simp⟩
  | item _ list index items place =>
    have early := (items tidy).mono fun _ => (index.grows (list.tidy tidy)).callable
    exact early.before ((place (list.tidy tidy)).before (.before (.single rfl ⟨rfl, by simp⟩) .nil))
  | @setItem _ _ _ _ _ _ _ slot _ _ _ c' list _ index value items place new =>
    have tidy₁ := list.tidy tidy
    have tidy₂ := index.tidy tidy₁
    have early := (items tidy).mono fun _ known =>
      (value.grows tidy₂).callable ((index.grows tidy₁).callable known)
    have middle := (place tidy₁).mono fun _ => (value.grows tidy₂).callable
    have last : Fragment.Sound c'.Callable [.setItem, .store slot] :=
      Fragment.Sound.followed (.single rfl ⟨rfl, by simp⟩) rfl ⟨rfl, by simp⟩
    exact early.before (middle.before ((new tidy₂).before (last.before .nil)))
  | operand _ expected inner | valueOf _ expected _ inner =>
    exact (inner tidy).mono fun _ => (expect_ok expected).1.steady.grows.callable
  | valueFound _ _ _ inner | giveFound _ _ _ _ inner => exact inner tidy
  | initialValue _ inner | giveDeclared _ _ inner => exact inner tidy
  | giveNothing | noArguments | noItems | noStatements => exact .nil
  | moreArguments _ argument _ resolved more first rest =>
    have settled := (settleOpen_retyped resolved).steady
    have tidy₁ := settled.tidy (argument.tidy tidy)
    have early := (first tidy).mono fun _ known =>
      (more.grows tidy₁).callable (settled.grows.callable known)
    exact early.append (rest tidy₁)
  | moreItems item more first rest =>
    have tidy₁ := item.tidy tidy
    have early := (first tidy).mono fun _ => (more.grows tidy₁).callable
    exact early.append (rest tidy₁)
  | moreStatements statement finished more first rest =>
    have settled := (finishStatement_steady finished).grows.of_prior
    have tidy₁ := settled.tidy (statement.tidy tidy)
    have early := (first tidy).mono fun _ known =>
      (more.grows tidy₁).callable (settled.callable known)
    rcases finishStatement_code finished with rfl | ⟨slot, rfl⟩
    · exact early.append (rest tidy₁)
    · exact (early.followed rfl ⟨rfl, by simp⟩).append (rest tidy₁)
  | block _ inner =>
    exact (inner tidy.enter).append_frees _

theorem Compiler.frees_straight (c : Compiler) : c.frees.Straight := by
  intro i member
  obtain ⟨slot, -, rfl⟩ := List.mem_map.mp member
  rfl

/-- Every path through the statements of the task ends by giving back control. -/
def Task.returns : Task → Bool
  | .node n _ => n.alwaysReturns
  | .statements nodes | .block nodes => Node.blockReturns nodes
  | _ => false

/-- Code that always returns is not left through its end. -/
theorem Yields.sealed {task : Task} {c c' : Compiler} {x : Compiled}
    (derivation : Yields task c x c')
    (tidy : c.scope.Tidy) (returns : task.returns = true) : ¬x.code.Exits := by
  induction derivation with
  | giveBack _ given _ _ _ =>
    intro exits
    exact Fragment.not_exits_ret (Fragment.Exits.of_append_straight (given.sound tidy).closed
      (Fragment.straight_single rfl) exits).2
  | alternative test body other _ inner otherwise =>
    have tidy₁ := test.tidy tidy
    have tidy₂ := body.tidy tidy₁
    rw [Task.returns, Node.alwaysReturns, Bool.and_eq_true] at returns
    exact Fragment.not_exits_alternative (test.sound tidy).closed (body.sound tidy₁).closed
      (other.sound tidy₂).closed (inner tidy₁ returns.1) (otherwise tidy₂ returns.2)
  | @moreStatements n more c x c₁ code c₂ y c' statement finished others first rest =>
    have closed := (statement.sound tidy).closed
    have tidy₁ := (finishStatement_steady finished).grows.of_prior.tidy (statement.tidy tidy)
    have whole : code.Closed := by
      rcases finishStatement_code finished with rfl | ⟨slot, rfl⟩
      · exact closed
      · exact closed.append_straight (Fragment.straight_single rfl)
    intro exits
    obtain ⟨through, beyond⟩ := Fragment.Exits.of_append whole exits
    cases more with
    | cons next more => exact rest tidy₁ returns beyond
    | nil =>
      -- The last statement: what is stored behind it is out of reach.
      apply first tidy returns
      rcases finishStatement_code finished with rfl | ⟨slot, rfl⟩
      · exact through
      · exact (Fragment.Exits.of_append_straight closed (Fragment.straight_single rfl) through).1
  | block statements inner =>
    intro exits
    exact inner tidy.enter returns (Fragment.Exits.of_append_straight
      (statements.sound tidy.enter).closed (Compiler.frees_straight _) exits).1
  | _ => cases returns

end Primer
