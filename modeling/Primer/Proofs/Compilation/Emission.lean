import Mathlib.Data.Set.Basic
import Primer.Proofs.Compilation.Code
import Primer.Proofs.Compilation.Occurrence

/-!
Which part of a task makes an instruction. Most instructions neither change a slot nor call a
procedure. The others come from a declaration, an assignment, a loop, a call, the result of a
statement or the end of a block, and each has a place in the source, with the state that the
compiler is in there.
-/

set_option autoImplicit false
set_option relaxedAutoImplicit false

namespace Primer

/-- The slot whose contents the instruction changes. -/
def Instruction.changes? : Instruction → Option UInt8
  | store slot | free slot => some slot
  | _ => none

theorem Instruction.changes?_shift (i : Instruction) (distance : Nat) :
    (i.shift distance).changes? = i.changes? := by
  cases i <;> rfl

/-- The slots whose contents the instruction determines. -/
def Instruction.sets (i : Instruction) : Set UInt8 := { slot | i.changes? = some slot }

theorem Instruction.sets_shift (i : Instruction) (distance : Nat) :
    (i.shift distance).sets = i.sets := by
  rw [sets, changes?_shift]
  rfl

namespace Task

/-- An instruction that a task makes itself, besides those that its parts make. -/
inductive Emits : Task → Compiler → Instruction → Prop
  | other {task c i} (spares : i.changes? = none) (stays : i.isCall = false) : Emits task c i
  | declare {name type value want c slot c₁} (allocated : Compile.allocate c = .ok (slot, c₁)) :
      Emits (.node (.declare name type value) want) c (.store slot)
  | assign {name a want c slot} (known : Compiler.slot? c name = some slot) :
      Emits (.node (.assign name a) want) c (.store slot)
  | setItem {index name a want c x c₁ slot}
      (items : Yields (.operand (.var name) .list (.named name)) c x c₁)
      (known : c₁.slot? name = some slot) :
      Emits (.node (.setItem index (.var name) a) want) c (.store slot)
  | count {count body want c x c₁ threshold c₂ counter c₃ slot}
      (amount : Yields (.operand count .number .repeatCount) { c with scope := c.scope.enter } x c₁)
      (first : Compile.allocateScratch c₁ = .ok (threshold, c₂))
      (second : Compile.allocateScratch c₂ = .ok (counter, c₃))
      (either : slot = threshold ∨ slot = counter) :
      Emits (.node (.times count body) want) c (.store slot)
  | endCount {count body want c x c₁ threshold c₂ counter c₃ y c' slot}
      (amount : Yields (.operand count .number .repeatCount) { c with scope := c.scope.enter } x c₁)
      (first : Compile.allocateScratch c₁ = .ok (threshold, c₂))
      (second : Compile.allocateScratch c₂ = .ok (counter, c₃))
      (inner : Yields (.block body) c₃ y c')
      (given : slot ∈ c'.scope.leave.1) : Emits (.node (.times count body) want) c (.free slot)
  | call {name args want c callee} (found : Callee.find name c = .ok (callee, c)) :
      Emits (.node (.call name args) want) c callee.instruction
  | result {n more c x c₁ c₂ slot c₃} (first : Yields (.node n none) c x c₁)
      (assumes : Compile.Assumes c₁ c₂) (found : Compile.resultSlot c₂ = .ok (slot, c₃)) :
      Emits (.statements (n :: more)) c (.store slot)
  | endBlock {nodes c x c' slot} (inner : Yields (.statements nodes) c.entered x c')
      (given : slot ∈ c'.scope.leave.1) : Emits (.block nodes) c (.free slot)

/-- An instruction that is made at some place inside the task. -/
def Makes (task : Task) (c : Compiler) (i : Instruction) : Prop :=
  ∃ offset inner d, Occurs task c offset inner d ∧ inner.Emits d i

variable {task inner : Task} {c d : Compiler} {i : Instruction}

theorem Emits.makes (emits : task.Emits c i) : task.Makes c i := ⟨0, task, c, .here, emits⟩

theorem Makes.other (spares : i.changes? = none) (stays : i.isCall = false) : task.Makes c i :=
  (Emits.other spares stays).makes

theorem Makes.within {rest : Nat} (part : Part task c rest inner d) (makes : inner.Makes d i) :
    task.Makes c i := by
  obtain ⟨offset, last, e, occurs, emits⟩ := makes
  exact ⟨_, last, e, (Occurs.of_part part).trans occurs, emits⟩

end Task

open Compile Fragment

namespace Fragment

variable {task inner : Task} {c d : Compiler} {code : Fragment}

theorem Uses.part {rest : Nat} (uses : code.Uses (inner.Makes d))
    (part : Part task c rest inner d) : code.Uses (task.Makes c) :=
  uses.imp fun _ => .within part

theorem uses_frees {slots : List UInt8} (emits : ∀ slot ∈ slots, task.Emits c (.free slot)) :
    Uses (task.Makes c) (slots.map Instruction.free) := by
  refine uses_of_forall fun i member => ?_
  obtain ⟨slot, given, rfl⟩ := List.mem_map.mp member
  exact (emits slot given).makes

end Fragment

theorem BinaryOp.comparison_other {op : BinaryOp} {i : Instruction}
    (compares : op.comparison? = some i) : i.changes? = none ∧ i.isCall = false := by
  cases op <;> cases compares <;> exact ⟨rfl, rfl⟩

/-- Every instruction of the code, but for the jumps, is made at some place inside the task. -/
theorem Yields.makes {task : Task} {c c' : Compiler} {x : Compiled}
    (derivation : Yields task c x c') : x.code.Uses (task.Makes c) := by
  induction derivation with
  | literal | literals | initialDefault | result => exact uses_single (.other rfl rfl)
  | @unary op _ _ _ _ _ _ operand =>
    exact (operand.part .unary).followed (by cases op <;> exact .other rfl rfl)
  | arith left _ first second =>
    exact (first.part .arithLeft).before
      ((second.part (.arithRight left)).before ((uses_single (.other rfl rfl)).before uses_nil))
  | order left _ first second =>
    exact (first.part .orderLeft).before
      ((second.part (.orderRight left)).before ((uses_single (.other rfl rfl)).before uses_nil))
  | logic left _ first second =>
    exact (first.part .logicLeft).shortCircuit (second.part (.logicRight left)) _ (.other rfl rfl)
      fun _ => .other rfl rfl
  | comparison compares left _ right _ _ first second =>
    obtain ⟨spares, stays⟩ := BinaryOp.comparison_other compares
    exact ((first.part (.comparisonLeft compares)).before
      ((second.part (.comparisonRight compares left)).before uses_nil)).followed
      (.other spares stays)
  | var found =>
    rcases reference_ok found with ⟨_, _, _, code, _⟩ | ⟨_, _, _, rfl, _⟩
    · rw [code]
      exact uses_single (.other rfl rfl)
    · exact uses_single (.other rfl rfl)
  | declare _ allocated _ _ start =>
    exact (start.part (.declare allocated)).followed (Task.Emits.declare allocated).makes
  | assignParam isParam _ _ _ value =>
    refine (value.part (.assignParam isParam)).followed (Task.Emits.assign ?_).makes
    simp only [Compiler.slot?, isParam]
  | assignVariable noParam isVariable _ value =>
    refine (value.part (.assignVariable noParam isVariable)).followed (Task.Emits.assign ?_).makes
    simp only [Compiler.slot?, noParam, isVariable]
  | branch test _ condition inner =>
    exact (condition.part .branchTest).conditional (inner.part (.branchBody test)) (.other rfl rfl)
  | alternative test body _ condition inner otherwise =>
    exact (condition.part .branchTest).alternative (inner.part (.branchBody test))
      (otherwise.part (.branchOther test body)) (.other rfl rfl)
  | loop test _ condition inner =>
    exact (condition.part .loopTest).whileLoop (inner.part (.loopBody test)) (.other rfl rfl)
  | times count first second body amount inner =>
    refine uses_append.mpr ⟨(amount.part .timesCount).countedLoop
      (inner.part (.timesBody count first second)) fun i glue => ?_, uses_frees fun slot given =>
        .endCount count first second body given⟩
    simp only [List.mem_cons, List.not_mem_nil, or_false] at glue
    rcases glue with rfl | rfl | rfl | rfl | rfl | rfl | rfl | rfl | rfl | rfl | rfl
    case inr.inr.inr.inl => exact (Task.Emits.count count first second (.inl rfl)).makes
    case inr.inr.inr.inr.inl => exact (Task.Emits.count count first second (.inr rfl)).makes
    all_goals exact .other rfl rfl
  | call found _ _ finished given =>
    rw [(finishCall_ok finished).1]
    exact (given.part (.call found)).followed (Task.Emits.call found).makes
  | define | giveNothing | noArguments | noItems | noStatements => exact uses_nil
  | convert _ _ _ _ value => exact (value.part .convert).followed (.other rfl rfl)
  | giveBack inside _ _ _ given => exact (given.part (.giveBack inside)).followed (.other rfl rfl)
  | list mixed _ _ items => exact (items.part (.list mixed)).followed (.other rfl rfl)
  | item _ list _ items place =>
    exact (items.part .itemList).before
      ((place.part (.itemIndex list)).before ((uses_single (.other rfl rfl)).before uses_nil))
  | setItem list found index _ items place new =>
    refine (items.part .setItemList).before ((place.part (.setItemIndex list)).before
      ((new.part (.setItemValue list index)).before (Uses.before ?_ uses_nil)))
    exact (uses_single (.other rfl rfl)).followed (Task.Emits.setItem list found).makes
  | operand _ _ inner => exact inner.part .operand
  | valueOf _ _ _ inner => exact inner.part .value
  | valueFound _ _ _ inner => exact inner.part .value
  | initialValue _ inner => exact inner.part .initial
  | giveDeclared declared _ inner => exact inner.part (.giveDeclared declared)
  | giveFound undeclared _ _ _ inner => exact inner.part (.giveFound undeclared)
  | moreArguments wanted argument typed resolved _ first rest =>
    exact (first.part (.firstArgument wanted)).append
      (rest.part (.moreArguments wanted argument typed resolved))
  | moreItems item _ first rest =>
    exact (first.part .firstItem).append (rest.part (.moreItems item))
  | moreStatements statement finished _ first rest =>
    refine Uses.append ?_ (rest.part (.moreStatements statement finished))
    obtain ⟨type, between, assumes, -, ⟨-, rfl, -⟩ | ⟨slot, after, -, found, rfl, -⟩⟩ :=
      finishStatement_ok finished
    · exact first.part .firstStatement
    · exact (first.part .firstStatement).followed (Task.Emits.result statement assumes found).makes
  | block statements inner =>
    exact uses_append.mpr ⟨inner.part .block, uses_frees fun slot => .endBlock statements⟩

end Primer
