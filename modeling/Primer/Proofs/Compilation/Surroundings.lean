import Primer.Proofs.Compilation.Code
import Primer.Proofs.Compilation.Embedding

/-!
What surrounds a part of a task. A task is compiled part after part, and between two parts the
compiler settles a type, hands out a slot or opens a scope. So the work on a task splits at each of
its parts: the code of the part stands in that of the task, what was done before it lies in front of
that code, and what is done later lies behind it.
-/

set_option autoImplicit false
set_option relaxedAutoImplicit false

namespace Primer

open Compile Fragment

/-- A task has one outcome. -/
theorem Yields.unique {task : Task} {c c₁ c₂ : Compiler} {x y : Compiled}
    (one : Yields task c x c₁) (two : Yields task c y c₂) : x = y ∧ c₁ = c₂ := by
  have same := one.run.symm.trans two.run
  cases same
  exact ⟨rfl, rfl⟩

/-- What the compiler does between the parts of a task. -/
inductive Interlude : Compiler → Compiler → Prop
  | lexical {c scope slots prior} : Interlude c { c with scope, slots, prior }
  | agree {op a b first second c c'} (done : Compile.agree op a b first second c = .ok ((), c')) :
      Interlude c c'
  | expect {n found want role c c'} (done : Compile.expect n found want role c = .ok ((), c')) :
      Interlude c c'
  | resolve {isOpen : Bool} {position type c c'}
      (done : (if isOpen then Compile.resolveParam position type else pure ()) c = .ok ((), c')) :
      Interlude c c'
  | call {callee code want x c c'} (done : Compile.finishCall callee code want c = .ok (x, c')) :
      Interlude c c'
  | statement {n x code c c'} (done : Compile.finishStatement n x c = .ok (code, c')) :
      Interlude c c'

namespace Interlude

variable {c c' : Compiler} {slot : UInt8}

theorem allocate (done : Compile.allocate c = .ok (slot, c')) : Interlude c c' := by
  obtain ⟨slots, -, rfl⟩ := allocate_ok done
  exact .lexical

theorem scratch {c₁ : Compiler} {counter : UInt8} (first : allocateScratch c = .ok (slot, c₁))
    (second : allocateScratch c₁ = .ok (counter, c')) : Interlude c c' := by
  obtain ⟨slots, -, rfl⟩ := allocateScratch_ok first
  obtain ⟨slots', -, rfl⟩ := allocateScratch_ok second
  exact .lexical

end Interlude

theorem Compile.allocateScratch_tidy {c c' : Compiler} {slot : UInt8}
    (done : allocateScratch c = .ok (slot, c')) (tidy : c.scope.Tidy) : c'.scope.Tidy := by
  obtain ⟨slots, -, rfl⟩ := allocateScratch_ok done
  exact tidy.addScratch slot

/-- The compiler comes from one state to another in the course of a task: it compiles parts whose
code lies at certain places, given by start and end, and does what is due between them. -/
inductive Task.Proceeds (task : Task) (c : Compiler) (place : Nat → Nat → Prop) :
    Compiler → Compiler → Prop
  | refl (d : Compiler) : Proceeds task c place d d
  | trans {d e f : Compiler} (one : Proceeds task c place d e) (two : Proceeds task c place e f) :
      Proceeds task c place d f
  | between {d e : Compiler} (done : Interlude d e) : Proceeds task c place d e
  | part {rest : Nat} {inner : Task} {d e : Compiler} {y : Compiled}
      (part : Part task c rest inner d)
      (tidy : d.scope.Tidy) (made : Yields inner d y e) (lies : place rest (rest + y.code.size)) :
      Proceeds task c place d e
  | noted {value : Option Node} {want : Option Ty} {draft : Draft} {x : Compiled} {type : Ty}
      {d e : Compiler} (returns : task = .node (.giveBack value) want)
      (inside : c.draft = some draft)
      (tidy : c.scope.Tidy) (given : Yields (.givenBack draft value) c x d)
      (typed : x.type = some type)
      (noted : noteReturn draft type d = .ok ((), e)) (lies : place x.code.size (x.code.size + 1)) :
      Proceeds task c place d e

/-- The work on a task, split at one of its parts. -/
structure Surrounded (task : Task) (c : Compiler) (x : Compiled) (c' : Compiler) (rest : Nat)
    (inner : Task) (d : Compiler) (y : Compiled) (d' : Compiler) : Prop where
  made : Yields inner d y d'
  encloses : x.code.Encloses y.code rest
  before : task.Proceeds c (fun _ stop => stop ≤ rest) c d
  behind : task.Proceeds c (fun start _ => rest + y.code.size ≤ start) d' c'

theorem Compile.finishStatement_size {n : Node} {x : Compiled} {code : Fragment} {c c' : Compiler}
    (done : finishStatement n x c = .ok (code, c')) : x.code.size ≤ code.size := by
  rcases finishStatement_code done with rfl | ⟨slot, rfl⟩
  · exact Nat.le_refl _
  · rw [Fragment.size_append]
    exact Nat.le_add_right _ _

/-- When a task is compiled each of its parts is, and the work splits at the part. -/
theorem Part.surrounded {task inner : Task} {c c' d : Compiler} {x : Compiled} {rest : Nat}
    (part : Part task c rest inner d) (derivation : Yields task c x c') (tidy : c.scope.Tidy) :
    ∃ y d', Surrounded task c x c' rest inner d y d' := by
  have closed {task : Task} {c c' : Compiler} {x : Compiled} (derivation : Yields task c x c')
      (tidy : c.scope.Tidy) : x.code.Closed := (derivation.sound tidy).closed
  cases part with
  | unary => cases derivation with
    | unary operand =>
      exact ⟨_, _, operand, (Encloses.refl _).followed (UnaryOp.instruction_fits _ fun _ => True).1,
        .refl _, .refl _⟩
  | arithLeft => cases derivation with
    | arith left right =>
      exact ⟨_, _, left, encloses_sequence_head _ _, .refl _,
        .part (.arithRight left) (left.tidy tidy) right (by omega)⟩
    | comparison compares => cases compares
  | orderLeft => cases derivation with
    | order left right =>
      exact ⟨_, _, left, encloses_sequence_head _ _, .refl _,
        .part (.orderRight left) (left.tidy tidy) right (by omega)⟩
    | comparison compares => cases compares
  | logicLeft => cases derivation with
    | logic left right =>
      exact ⟨_, _, left, encloses_shortCircuit_left _ _ _, .refl _,
        .part (.logicRight left) (left.tidy tidy) right (by simpa using size_le_rightStart _ _)⟩
    | comparison compares => cases compares
  | arithRight first => cases derivation with
    | arith left right =>
      obtain ⟨rfl, rfl⟩ := first.unique left
      exact ⟨_, _, right, (encloses_sequence_head _ _).sequence_tail (closed left tidy),
        .part .arithLeft tidy left (by omega), .refl _⟩
    | comparison compares => cases compares
  | orderRight first => cases derivation with
    | order left right =>
      obtain ⟨rfl, rfl⟩ := first.unique left
      exact ⟨_, _, right, (encloses_sequence_head _ _).sequence_tail (closed left tidy),
        .part .orderLeft tidy left (by omega), .refl _⟩
    | comparison compares => cases compares
  | logicRight first => cases derivation with
    | logic left right =>
      obtain ⟨rfl, rfl⟩ := first.unique left
      exact ⟨_, _, right, encloses_shortCircuit_right _ (closed left tidy),
        .part .logicLeft tidy left (by simpa using size_le_rightStart _ _), .refl _⟩
    | comparison compares => cases compares
  | comparisonLeft compares => cases derivation with
    | comparison compares' left _ right _ agreed =>
      exact ⟨_, _, left,
        (encloses_sequence_head _ _).followed (BinaryOp.comparison_fits compares' fun _ => True).1,
        .refl _,
        (Task.Proceeds.part (.comparisonRight compares left) (left.tidy tidy) right
          (by omega)).trans (.between (.agree agreed))⟩
    | _ => cases compares
  | comparisonRight compares first => cases derivation with
    | comparison compares' left _ right _ agreed =>
      obtain ⟨rfl, rfl⟩ := first.unique left
      exact ⟨_, _, right, ((encloses_sequence_head _ _).sequence_tail (closed left tidy)).followed
        (BinaryOp.comparison_fits compares' fun _ => True).1,
        .part (.comparisonLeft compares) tidy left (by omega), .between (.agree agreed)⟩
    | _ => cases compares
  | declare allocated => cases derivation with
    | declare _ allocated' start =>
      rw [allocated] at allocated'
      cases allocated'
      exact ⟨_, _, start, (Encloses.refl _).followed rfl, .between (.allocate allocated),
        .between .lexical⟩
  | assignParam isParam => cases derivation with
    | assignParam isParam' value _ resolved =>
      rw [isParam] at isParam'
      cases isParam'
      exact ⟨_, _, value, (Encloses.refl _).followed rfl, .refl _, .between (.resolve resolved)⟩
    | assignVariable noParam => rw [isParam] at noParam; cases noParam
  | assignVariable noParam isVariable => cases derivation with
    | assignParam isParam => rw [isParam] at noParam; cases noParam
    | assignVariable _ isVariable' value =>
      rw [isVariable] at isVariable'
      cases isVariable'
      exact ⟨_, _, value, (Encloses.refl _).followed rfl, .refl _, .refl _⟩
  | branchTest => cases derivation with
    | @branch _ _ _ _ x _ _ _ condition inner =>
      have := size_le_guardSize x.code
      exact ⟨_, _, condition, encloses_conditional_test _ _, .refl _,
        .part (.branchBody condition) (condition.tidy tidy) inner (by omega)⟩
    | @alternative _ _ _ _ _ x _ _ _ _ _ condition inner otherwise =>
      have tidy₁ := condition.tidy tidy
      have := size_le_guardSize x.code
      exact ⟨_, _, condition, encloses_alternative_test _ _ _, .refl _,
        (Task.Proceeds.part (.branchBody condition) tidy₁ inner (by omega)).trans
          (.part (.branchOther condition inner) (inner.tidy tidy₁) otherwise (by omega))⟩
  | @branchBody _ _ _ _ _ x _ test =>
    have := size_le_guardSize x.code
    cases derivation with
    | branch condition inner =>
      obtain ⟨rfl, rfl⟩ := test.unique condition
      exact ⟨_, _, inner, encloses_conditional_body (closed condition tidy),
        .part .branchTest tidy condition (by omega), .refl _⟩
    | alternative condition inner otherwise =>
      obtain ⟨rfl, rfl⟩ := test.unique condition
      exact ⟨_, _, inner, encloses_alternative_body (closed condition tidy),
        .part .branchTest tidy condition (by omega),
        .part (.branchOther condition inner) (inner.tidy (condition.tidy tidy)) otherwise
          (by omega)⟩
  | @branchOther _ _ _ _ _ x _ _ _ test body => cases derivation with
    | alternative condition inner otherwise =>
      obtain ⟨rfl, rfl⟩ := test.unique condition
      obtain ⟨rfl, rfl⟩ := body.unique inner
      have tidy₁ := condition.tidy tidy
      have := size_le_guardSize x.code
      exact ⟨_, _, otherwise,
        encloses_alternative_other (closed condition tidy) (closed inner tidy₁),
        (Task.Proceeds.part .branchTest tidy condition (by omega)).trans
          (.part (.branchBody condition) tidy₁ inner (by omega)), .refl _⟩
  | loopTest => cases derivation with
    | loop condition inner =>
      exact ⟨_, _, condition, encloses_whileLoop_test _ _, .refl _,
        .part (.loopBody condition) (condition.tidy tidy) inner
          (by simpa using size_le_guardSize _)⟩
  | loopBody test => cases derivation with
    | loop condition inner =>
      obtain ⟨rfl, rfl⟩ := test.unique condition
      exact ⟨_, _, inner, encloses_whileLoop_body (closed condition tidy),
        .part .loopTest tidy condition (by simpa using size_le_guardSize _), .refl _⟩
  | timesCount => cases derivation with
    | times amount first second inner =>
      have opened :=
        allocateScratch_tidy second (allocateScratch_tidy first (amount.tidy tidy.enter))
      exact ⟨_, _, amount,
        (encloses_countedLoop_count _ _ _ _).append_straight (Compiler.frees_straight _),
        .between .lexical, ((Task.Proceeds.between (.scratch first second)).trans
          (.part (.timesBody amount first second) opened inner
            (by simpa using size_le_roundStart _ _ _))).trans (.between .lexical)⟩
  | timesBody count begins second => cases derivation with
    | times amount begins' second' inner =>
      obtain ⟨rfl, rfl⟩ := count.unique amount
      rw [begins] at begins'
      cases begins'
      rw [second] at second'
      cases second'
      exact ⟨_, _, inner, (encloses_countedLoop_body (closed amount tidy.enter) _ _).append_straight
        (Compiler.frees_straight _), ((Task.Proceeds.between .lexical).trans
          (.part .timesCount tidy.enter amount (by simpa using size_le_roundStart _ _ _))).trans
          (.between (.scratch begins second)), .between .lexical⟩
  | call found => cases derivation with
    | call found' _ given finished =>
      rw [found] at found'
      cases found'
      have code := (finishCall_ok finished).1
      exact ⟨_, _, given, code ▸ (Encloses.refl _).followed (Callee.instruction_straight _),
        .refl _, .between (.call finished)⟩
  | convert => cases derivation with
    | convert value => exact ⟨_, _, value, (Encloses.refl _).followed rfl, .refl _, .refl _⟩
  | giveBack inside => cases derivation with
    | giveBack inside' given typed noted =>
      rw [inside] at inside'
      cases inside'
      exact ⟨_, _, given, (Encloses.refl _).followed rfl, .refl _,
        .noted rfl inside tidy given typed noted (by omega)⟩
  | list mixed => cases derivation with
    | literals all => rw [mixed] at all; cases all
    | list _ _ items => exact ⟨_, _, items, (Encloses.refl _).followed rfl, .refl _, .refl _⟩
  | itemList => cases derivation with
    | item _ items place =>
      exact ⟨_, _, items, encloses_sequence_head _ _, .refl _,
        .part (.itemIndex items) (items.tidy tidy) place (by omega)⟩
  | itemIndex list => cases derivation with
    | item _ items place =>
      obtain ⟨rfl, rfl⟩ := list.unique items
      exact ⟨_, _, place, (encloses_sequence_head _ _).sequence_tail (closed items tidy),
        .part .itemList tidy items (by omega), .refl _⟩
  | setItemList => cases derivation with
    | setItem items _ place value =>
      have tidy₁ := items.tidy tidy
      exact ⟨_, _, items, encloses_sequence_head _ _, .refl _,
        (Task.Proceeds.part (.setItemIndex items) tidy₁ place (by omega)).trans
          (.part (.setItemValue items place) (place.tidy tidy₁) value (by omega))⟩
  | setItemIndex list => cases derivation with
    | setItem items _ place value =>
      obtain ⟨rfl, rfl⟩ := list.unique items
      exact ⟨_, _, place, (encloses_sequence_head _ _).sequence_tail (closed items tidy),
        .part .setItemList tidy items (by omega),
        .part (.setItemValue items place) (place.tidy (items.tidy tidy)) value (by omega)⟩
  | setItemValue list index => cases derivation with
    | setItem items _ place value =>
      obtain ⟨rfl, rfl⟩ := list.unique items
      obtain ⟨rfl, rfl⟩ := index.unique place
      have tidy₁ := items.tidy tidy
      exact ⟨_, _, value, ((encloses_sequence_head _ _).sequence_tail
        (closed place tidy₁)).sequence_tail (closed items tidy),
        (Task.Proceeds.part .setItemList tidy items (by omega)).trans
          (.part (.setItemIndex items) tidy₁ place (by omega)), .refl _⟩
  | operand => cases derivation with
    | operand inner expected => exact ⟨_, _, inner, .refl _, .refl _, .between (.expect expected)⟩
  | value => cases derivation with
    | valueOf inner expected => exact ⟨_, _, inner, .refl _, .refl _, .between (.expect expected)⟩
    | valueFound inner => exact ⟨_, _, inner, .refl _, .refl _, .refl _⟩
  | initial => cases derivation with
    | initialValue inner => exact ⟨_, _, inner, .refl _, .refl _, .refl _⟩
  | giveDeclared declared => cases derivation with
    | giveDeclared _ inner => exact ⟨_, _, inner, .refl _, .refl _, .refl _⟩
    | giveFound undeclared => rw [declared] at undeclared; cases undeclared
  | giveFound undeclared => cases derivation with
    | giveDeclared declared => rw [declared] at undeclared; cases undeclared
    | giveFound _ inner => exact ⟨_, _, inner, .refl _, .refl _, .refl _⟩
  | firstArgument wanted => cases derivation with
    | moreArguments wanted' first typed resolved rest =>
      rw [wanted] at wanted'
      cases wanted'
      have settled := (settleOpen_retyped resolved).steady.tidy (first.tidy tidy)
      exact ⟨_, _, first, encloses_left _ _, .refl _,
        (Task.Proceeds.between (.resolve resolved)).trans
        (.part (.moreArguments wanted first typed resolved) settled rest (by omega))⟩
  | moreArguments wanted argument typed resolved => cases derivation with
    | moreArguments wanted' first typed' resolved' rest =>
      rw [wanted] at wanted'
      cases wanted'
      obtain ⟨rfl, rfl⟩ := argument.unique first
      rw [typed] at typed'
      cases typed'
      rw [resolved] at resolved'
      cases resolved'
      exact ⟨_, _, rest, encloses_right (closed first tidy) _,
        (Task.Proceeds.part (.firstArgument wanted) tidy first (by omega)).trans
          (.between (.resolve resolved)), .refl _⟩
  | firstItem => cases derivation with
    | moreItems first rest =>
      exact ⟨_, _, first, encloses_left _ _, .refl _,
        .part (.moreItems first) (first.tidy tidy) rest (by omega)⟩
  | moreItems item => cases derivation with
    | moreItems first rest =>
      obtain ⟨rfl, rfl⟩ := item.unique first
      exact ⟨_, _, rest, encloses_right (closed first tidy) _,
        .part .firstItem tidy first (by omega), .refl _⟩
  | firstStatement => cases derivation with
    | moreStatements first finished rest =>
      have settled := (finishStatement_steady finished).grows.of_prior.tidy (first.tidy tidy)
      refine ⟨_, _, first, ?_, .refl _, (Task.Proceeds.between (.statement finished)).trans
        (.part (.moreStatements first finished) settled rest
          (by simpa using finishStatement_size finished))⟩
      rcases finishStatement_code finished with rfl | ⟨slot, rfl⟩
      · exact encloses_left _ _
      · exact (encloses_left _ _).trans ((Encloses.refl _).followed rfl)
  | moreStatements statement finished => cases derivation with
    | moreStatements first finished' rest =>
      obtain ⟨rfl, rfl⟩ := statement.unique first
      rw [finished] at finished'
      cases finished'
      refine ⟨_, _, rest, encloses_right ?_ _, (Task.Proceeds.part .firstStatement tidy first
        (by simpa using finishStatement_size finished)).trans (.between (.statement finished)),
        .refl _⟩
      rcases finishStatement_code finished with rfl | ⟨slot, rfl⟩
      · exact closed first tidy
      · exact (closed first tidy).append_straight (straight_single rfl)
  | block => cases derivation with
    | block inner =>
      exact ⟨_, _, inner, (Encloses.refl _).append_straight (Compiler.frees_straight _),
        .between .lexical, .between .lexical⟩

/-- The code of a part stands at its offset, and is entered through its start only. -/
theorem Part.encloses {task inner : Task} {c c' d d' : Compiler} {x y : Compiled} {rest : Nat}
    (part : Part task c rest inner d) (derivation : Yields task c x c') (tidy : c.scope.Tidy)
    (made : Yields inner d y d') : x.code.Encloses y.code rest := by
  obtain ⟨_, _, surrounded⟩ := part.surrounded derivation tidy
  obtain ⟨rfl, -⟩ := made.unique surrounded.made
  exact surrounded.encloses

end Primer
