import Primer.Proofs.Compilation.Lending

/-!
The calls in compiled code and their places in the source. Each call of a procedure in the code of a
task is the last instruction of the code of some call in the source, so that the place behind it is
where the code of that call ends.
-/

set_option autoImplicit false
set_option relaxedAutoImplicit false

namespace Primer

namespace Fragment

/-- All places behind calls of an address have a property. -/
def Sited (callee : Nat) (place : Nat → Prop) (code : Fragment) : Prop :=
  ∀ offset, at? code offset = some (.call callee) → place (offset + (Instruction.call callee).size)

variable {callee : Nat} {place : Nat → Prop} {first second third : Fragment}

theorem sited_plain {code : Fragment} (plain : ∀ i ∈ code, i.isCall = false) :
    Sited callee place code :=
  fun _ found => by cases plain _ (mem_of_at? found)

theorem sited_append : Sited callee place (first ++ second) ↔
    Sited callee place first ∧ Sited callee (fun stop => place (size first + stop)) second := by
  constructor
  · intro sited
    refine ⟨fun offset found => sited offset ?_, fun offset found => ?_⟩
    · have inside := lt_size_of_at? found
      have positive := (Instruction.call callee).size_pos
      rwa [at?_append_left (by omega)]
    · have behind := sited (size first + offset) (by rwa [at?_append_right])
      rwa [Nat.add_assoc] at behind
  · rintro ⟨left, right⟩ offset found
    by_cases inside : offset < size first
    · exact left offset (by rwa [at?_append_left inside] at found)
    · obtain ⟨rest, rfl⟩ := Nat.exists_eq_add_of_le (Nat.not_lt.mp inside)
      rw [at?_append_right] at found
      rw [Nat.add_assoc]
      exact right rest found

theorem sited_shift {distance : Nat} :
    Sited callee place (shift first distance) ↔ Sited callee place first := by
  have same (i : Instruction) : i.shift distance = .call callee ↔ i = .call callee := by
    cases i <;> simp [Instruction.shift]
  simp only [Sited, at?_shift, Option.map_eq_some_iff, same, exists_eq_right]

theorem Sited.append_plain (left : Sited callee place first)
    (plain : ∀ i ∈ second, i.isCall = false) : Sited callee place (first ++ second) :=
  sited_append.mpr ⟨left, sited_plain plain⟩

theorem Sited.followed (left : Sited callee place first) {i : Instruction}
    (plain : i.isCall = false) : Sited callee place (first ++ [i]) :=
  left.append_plain (by simpa using plain)

theorem Sited.append (left : Sited callee place first)
    (right : Sited callee (fun stop => place (size first + stop)) second) :
    Sited callee place (first ++ shift second (size first)) :=
  sited_append.mpr ⟨left, sited_shift.mpr right⟩

theorem Sited.before (left : Sited callee place first) {more : List Fragment}
    (right : Sited callee (fun stop => place (size first + stop)) (sequence more)) :
    Sited callee place (sequence (first :: more)) := by
  rw [sequence_cons]
  exact left.append right

theorem sited_unlessGoTo {target : Nat} :
    Sited callee place (unlessGoTo first target) ↔ Sited callee place first := by
  rw [unlessGoTo, sited_append]
  exact and_iff_left (sited_plain (by simp [Instruction.isCall]))

theorem Sited.conditional (test : Sited callee place first)
    (body : Sited callee (fun stop => place (guardSize first + stop)) second) :
    Sited callee place (conditional first second) := by
  rw [Fragment.conditional, sited_append, sited_unlessGoTo, sited_shift, size_unlessGoTo]
  exact ⟨test, body⟩

theorem Sited.whileLoop (test : Sited callee place first)
    (body : Sited callee (fun stop => place (guardSize first + stop)) second) :
    Sited callee place (whileLoop first second) := by
  rw [Fragment.whileLoop]
  refine Sited.followed ?_ rfl
  rw [sited_append, sited_unlessGoTo, sited_shift, size_unlessGoTo]
  exact ⟨test, body⟩

theorem Sited.alternative (test : Sited callee place first)
    (body : Sited callee (fun stop => place (guardSize first + stop)) second)
    (other : Sited callee (fun stop => place (guardSize first + size second + jumpSize + stop))
      third) :
    Sited callee place (alternative first second third) := by
  simp only [Fragment.alternative, sited_append, sited_unlessGoTo, sited_shift, size_append,
    size_unlessGoTo, size_shift]
  exact ⟨⟨⟨test, body⟩, sited_plain (by simp [Instruction.isCall])⟩, other⟩

theorem Sited.shortCircuit (op : Logic) (left : Sited callee place first)
    (right : Sited callee (fun stop => place (rightStart op first + stop)) second) :
    Sited callee place (shortCircuit op first second) := by
  have head : Sited callee place (deciding op first) := by
    cases op with
    | and => exact left.followed rfl
    | or => exact left
  rw [shortCircuit_eq]
  refine Sited.append_plain (sited_append.mpr ⟨head.followed rfl, ?_⟩)
    (by simp [Instruction.isCall])
  rw [sited_shift, size_append]
  exact right

theorem Sited.countedLoop (threshold counter : UInt8) (count : Sited callee place first)
    (body : Sited callee (fun stop => place (roundStart first threshold counter + stop)) second) :
    Sited callee place (countedLoop first threshold counter second) := by
  simp only [Fragment.countedLoop]
  refine .append_plain (.append_plain (.append_plain (sited_append.mpr ⟨?front, ?round⟩) ?_) ?_) ?_
  case front =>
    refine .append_plain (.append_plain (.append_plain count ?_) ?_) ?_ <;>
      simp [Instruction.isCall]
  case round =>
    simp only [roundStart, counted, size_append] at body
    simp only [sited_shift, size_append]
    exact body
  all_goals simp [Instruction.isCall]

end Fragment

open Compile Fragment

/-- A place in the source inside a task where an address is called: the name that is called there,
the state of the compiler, and where the code of the call ends. -/
structure Task.CallSite (task : Task) (start : Compiler) (address : Nat) (name : String)
    (d : Compiler) (stop : Nat) : Prop where
  site : ∃ offset args want y d', Occurs task start offset (.node (.call name args) want) d ∧
    Yields (.node (.call name args) want) d y d' ∧ stop = offset + y.code.size
  calls : ∃ callee, Callee.find name d = .ok (callee, d) ∧ callee.instruction = .call address

variable {task inner : Task} {c c' d : Compiler} {code : Fragment} {address : Nat}

/-- A call of an address that has its place in the task ends at the offset. -/
def Task.CallEnds (task : Task) (start : Compiler) (address stop : Nat) : Prop :=
  ∃ name d, task.CallSite start address name d stop

theorem Fragment.Sited.part {rest : Nat} (sited : Sited address (inner.CallEnds d address) code)
    (part : Part task c rest inner d) :
    Sited address (fun stop => task.CallEnds c address (rest + stop)) code := by
  intro stop found
  obtain ⟨name, e, ⟨offset, args, want, y, e', occurs, made, same⟩, calls⟩ := sited stop found
  have place := (Occurs.of_part part).trans occurs
  exact ⟨name, e, ⟨rest + offset, args, want, y, e', place, made, by omega⟩, calls⟩

theorem Fragment.Sited.first (sited : Sited address (inner.CallEnds d address) code)
    (part : Part task c 0 inner d) : Sited address (task.CallEnds c address) code := by
  simpa only [Nat.zero_add] using sited.part part

/-- Every call in the code has its place in the source. -/
theorem Yields.sited {x : Compiled} (derivation : Yields task c x c') :
    x.code.Sited address (task.CallEnds c address) := by
  induction derivation with
  | literal | literals | initialDefault | result | define | giveNothing | noArguments | noItems
  | noStatements => exact sited_plain (by simp [Instruction.isCall])
  | @unary op _ _ _ _ _ _ operand => exact (operand.first .unary).followed (by cases op <;> rfl)
  | arith left _ first second =>
    exact (first.first .arithLeft).before
      ((second.part (.arithRight left)).before (sited_plain (by simp [Instruction.isCall])))
  | order left _ first second =>
    exact (first.first .orderLeft).before
      ((second.part (.orderRight left)).before (sited_plain (by simp [Instruction.isCall])))
  | logic left _ first second =>
    exact (first.first .logicLeft).shortCircuit _ (second.part (.logicRight left))
  | comparison compares left _ right _ _ first second =>
    exact ((first.first (.comparisonLeft compares)).before
      ((second.part (.comparisonRight compares left)).before (sited_plain (by simp)))).followed
        (BinaryOp.comparison_other compares).2
  | var found =>
    rcases reference_ok found with ⟨_, _, _, code, _⟩ | ⟨_, _, _, rfl, _⟩
    · rw [code]
      exact sited_plain (by simp [Instruction.isCall])
    · exact sited_plain (by simp [Instruction.isCall])
  | declare _ allocated _ _ start => exact (start.first (.declare allocated)).followed rfl
  | assignParam isParam _ _ _ value => exact (value.first (.assignParam isParam)).followed rfl
  | assignVariable noParam isVariable _ value =>
    exact (value.first (.assignVariable noParam isVariable)).followed rfl
  | branch test _ condition inner =>
    exact (condition.first .branchTest).conditional (inner.part (.branchBody test))
  | alternative test body _ condition inner otherwise =>
    exact (condition.first .branchTest).alternative (inner.part (.branchBody test))
      (otherwise.part (.branchOther test body))
  | loop test _ condition inner =>
    exact (condition.first .loopTest).whileLoop (inner.part (.loopBody test))
  | times count first second body amount inner =>
    exact ((amount.first .timesCount).countedLoop _ _
      (inner.part (.timesBody count first second))).append_plain
        (by simp [Compiler.frees, Instruction.isCall])
  | @call name args want c callee _ _ out c' found arity given finished inner =>
    have code := (finishCall_ok finished).1
    rw [code, sited_append]
    refine ⟨inner.first (.call found), fun offset last => ?_⟩
    have same := List.mem_singleton.mp (mem_of_at? last)
    have fits := lt_size_of_at? last
    have positive := (Instruction.call address).size_pos
    rw [same, size_cons, size_nil] at fits
    obtain rfl : offset = 0 := by omega
    exact ⟨name, c, ⟨0, args, want, out, c', .here, .call found arity given finished,
      by simp [code, ← same]⟩, callee, found, same.symm⟩
  | convert _ _ _ _ value => exact (value.first .convert).followed rfl
  | giveBack inside _ _ _ given => exact (given.first (.giveBack inside)).followed rfl
  | list mixed _ _ items => exact (items.first (.list mixed)).followed rfl
  | item _ list _ items place =>
    exact (items.first .itemList).before
      ((place.part (.itemIndex list)).before (sited_plain (by simp [Instruction.isCall])))
  | setItem list found index _ items place new =>
    refine (items.first .setItemList).before ((place.part (.setItemIndex list)).before
      (.before (fun stop found => ?_) (sited_plain (by simp [Instruction.isCall]))))
    rw [← Nat.add_assoc]
    exact new.part (.setItemValue list index) stop found
  | operand _ _ inner => exact inner.first .operand
  | valueOf _ _ _ inner => exact inner.first .value
  | valueFound _ _ _ inner => exact inner.first .value
  | initialValue _ inner => exact inner.first .initial
  | giveDeclared declared _ inner => exact inner.first (.giveDeclared declared)
  | giveFound undeclared _ _ _ inner => exact inner.first (.giveFound undeclared)
  | moreArguments wanted argument typed resolved _ first rest =>
    exact (first.first (.firstArgument wanted)).append
      (rest.part (.moreArguments wanted argument typed resolved))
  | moreItems item _ first rest =>
    exact (first.first .firstItem).append (rest.part (.moreItems item))
  | moreStatements statement finished _ first rest =>
    refine Sited.append ?_ (rest.part (.moreStatements statement finished))
    rcases finishStatement_code finished with rfl | ⟨slot, rfl⟩
    · exact first.first .firstStatement
    · exact (first.first .firstStatement).followed rfl
  | block statements inner =>
    exact (inner.first .block).append_plain (by simp [Compiler.frees, Instruction.isCall])

/-- Where a name is called, the address is that of a procedure of the name: one that is defined, or
the one that is being compiled. -/
theorem Task.CallSite.named {before : Compiler} {x : Compiled} {name : String} {stop : Nat}
    {others : List UInt8} (site : task.CallSite c address name d stop)
    (derivation : Yields task c x c') (since : before.Since c others) :
    (∃ p ∈ c'.procedures, p.name = name ∧ p.address = address) ∨
      ∃ draft, c'.draft = some draft ∧ draft.name = name ∧ draft.address = address := by
  obtain ⟨⟨offset, args, want, y, d', occurs, -, -⟩, callee, found, same⟩ := site
  have precedes := occurs.precedes derivation since
  have known := (find_ok found).1
  cases callee with
  | drafted draft =>
    obtain ⟨within, named⟩ := known
    have kept := precedes.draft
    rw [within] at kept
    cases inside : c'.draft with
    | none =>
      rw [inside] at kept
      exact kept.elim
    | some later =>
      rw [inside] at kept
      exact .inr ⟨later, rfl, kept.name.trans named,
        kept.address.trans (Instruction.call.inj same)⟩
  | defined p =>
    have named : p.name = name := by simpa using List.find?_some known.2
    exact .inl ⟨p, precedes.procedures.subset (List.mem_of_find?_eq_some known.2), named,
      Instruction.call.inj same⟩
  | host other signature => cases same

end Primer
