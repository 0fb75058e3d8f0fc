import Mathlib.Data.Set.Insert
import Primer.Proofs.Annotation
import Primer.Proofs.Compilation.Emission
import Primer.Proofs.Compilation.Settling
import Primer.Proofs.Compilation.Shelf

/-!
Which slots code reads. At every place in compiled code some slots are known: they were written on
every way that leads there, or belong to variables that were visible before. Only known slots are
read, and a procedure is only called where the variables are known that were visible at its
definition.
-/

set_option autoImplicit false
set_option relaxedAutoImplicit false

namespace Primer

/-- The slots that have to be known when the instruction is carried out: the one that it reads, or
those that a procedure needs when it is called. -/
def Instruction.requires (needs : Nat → Set UInt8) : Instruction → Set UInt8
  | load slot => {slot}
  | call target => needs target
  | _ => ∅

theorem Instruction.requires_shift (needs : Nat → Set UInt8) (i : Instruction) (distance : Nat) :
    (i.shift distance).requires needs = i.requires needs := by
  cases i <;> rfl

/-- The slots that are known before and after instructions. There may be a condition on those that
are known at a return. -/
def reading (needs : Nat → Set UInt8) (final : Set UInt8 → Prop) : Discipline (Set UInt8) where
  changes i a b := i.requires needs ⊆ a ∧ b ⊆ a ∪ i.sets
  returns := final
  shifts := by
    rintro i a b distance ⟨enough, known⟩
    rw [Instruction.requires_shift, Instruction.sets_shift]
    exact ⟨enough, known⟩

variable {needs : Nat → Set UInt8} {final : Set UInt8 → Prop} {a b : Set UInt8}

theorem reading_idle {i : Instruction} (idle : i.requires needs = ∅) (less : b ⊆ a) :
    (reading needs final).changes i a b :=
  ⟨idle ▸ Set.empty_subset a, less.trans Set.subset_union_left⟩

namespace Fragment.Annotated

/-- Where less may be noted at the end, it may be what was noted at the start. -/
theorem ending {A : Type} {d : Discipline A} {code : Fragment} {a b : A}
    (annotated : Annotated d code a b)
    (weaker : ∀ i x, d.changes i x b → d.changes i x a) : Annotated d code a a := by
  obtain ⟨closed, note, rfl, rfl, marks⟩ := annotated
  by_cases empty : size code = 0
  · exact ⟨closed, note, rfl, by rw [empty], marks⟩
  · refine ⟨closed, fun offset => if offset = size code then note 0 else note offset,
      if_neg (Ne.symm empty), if_pos rfl, fun offset i found => ?_⟩
    have within := lt_size_of_at? found
    have positive := i.size_pos
    have notes := marks offset i found
    have becomes : ∀ target, d.changes i (note (0 + offset)) (note target) →
        d.changes i (note (0 + offset)) (if target = size code then note 0 else note target) := by
      intro target changes
      split
      · rename_i ends
        exact weaker i _ (ends ▸ changes)
      · exact changes
    have here :
        (if 0 + offset = size code then note 0 else note (0 + offset)) = note (0 + offset) :=
      if_neg (by omega)
    constructor
    · intro goesOn
      rw [here]
      exact becomes _ (notes.next goesOn)
    · intro target jumps
      rw [here]
      exact becomes _ (notes.jump target jumps)
    · intro ret
      rw [here]
      exact notes.ret ret

variable {first second : Fragment}

/-- The code may be taken to leave what is known as it was. -/
theorem stay (annotated : Annotated (reading needs final) first a b) (more : a ⊆ b) :
    Annotated (reading needs final) first a a :=
  annotated.ending fun _ _ changes => ⟨changes.1, more.trans changes.2⟩

/-- An instruction that reads nothing, behind code. -/
theorem then_idle (left : Annotated (reading needs final) first a b) (i : Instruction)
    (idle : i.requires needs = ∅) (straight : i.jump? = none) (onward : i.goesOn = true) :
    Annotated (reading needs final) (first ++ [i]) a b := by
  refine left.followed straight (fun _ => reading_idle idle Set.Subset.rfl) fun ret => ?_
  rw [ret] at onward
  cases onward

theorem idle (i : Instruction) (idle : i.requires needs = ∅) (straight : i.jump? = none)
    (onward : i.goesOn = true) : Annotated (reading needs final) [i] a a :=
  then_idle .nil i idle straight onward

theorem then_load (left : Annotated (reading needs final) first a b) {slot : UInt8}
    (known : slot ∈ b) : Annotated (reading needs final) (first ++ [Instruction.load slot]) a b :=
  left.followed rfl (fun _ => ⟨Set.singleton_subset_iff.mpr known, Set.subset_union_left⟩) nofun

theorem then_store (left : Annotated (reading needs final) first a b) (slot : UInt8) :
    Annotated (reading needs final) (first ++ [Instruction.store slot]) a
      (b ∪ (Instruction.store slot).sets) :=
  left.followed rfl (fun _ => ⟨Set.empty_subset b, Set.Subset.rfl⟩) nofun

theorem then_frees (left : Annotated (reading needs final) first a b) (slots : List UInt8) :
    Annotated (reading needs final) (first ++ slots.map Instruction.free) a b := by
  induction slots generalizing first with
  | nil => rwa [List.map_nil, List.append_nil]
  | cons slot more ih =>
    rw [List.map_cons, List.append_cons]
    exact ih (left.then_idle (.free slot) rfl rfl rfl)

/-- The shapes of control flow, where neither the condition nor the body makes a slot known. -/
theorem guarded_reading (condition : Annotated (reading needs final) first a a)
    (inner : Annotated (reading needs final) second a a) :
    Annotated (reading needs final) (Fragment.conditional first second) a a ∧
      Annotated (reading needs final) (Fragment.whileLoop first second) a a :=
  ⟨condition.conditional inner (reading_idle rfl Set.Subset.rfl) fun _ =>
    reading_idle rfl Set.Subset.rfl,
    condition.whileLoop inner (reading_idle rfl Set.Subset.rfl)
      (fun _ => reading_idle rfl Set.Subset.rfl) fun _ => reading_idle rfl Set.Subset.rfl⟩

/-- The two slots of a loop are known in its body. -/
theorem counted_reading (threshold counter : UInt8)
    (amount : Annotated (reading needs final) first a a)
    (inner : Annotated (reading needs final) second
      (a ∪ (Instruction.store threshold).sets ∪ (Instruction.store counter).sets)
      (a ∪ (Instruction.store threshold).sets ∪ (Instruction.store counter).sets)) :
    Annotated (reading needs final) (Fragment.countedLoop first threshold counter second) a a := by
  have less : a ⊆ a ∪ (Instruction.store threshold).sets ∪ (Instruction.store counter).sets :=
    Set.subset_union_left.trans Set.subset_union_left
  have threshold_known : threshold ∈
      a ∪ (Instruction.store threshold).sets ∪ (Instruction.store counter).sets := .inl (.inr rfl)
  have counter_known : counter ∈
      a ∪ (Instruction.store threshold).sets ∪ (Instruction.store counter).sets := .inr rfl
  generalize known : a ∪ (Instruction.store threshold).sets ∪ (Instruction.store counter).sets = e
    at less threshold_known counter_known inner
  have tests : Annotated (reading needs final) [.dup, .push (.number .zero), .order .lessEq] a a :=
    ((idle .dup rfl rfl rfl).then_idle (.push (.number .zero)) rfl rfl rfl).then_idle
      (.order .lessEq) rfl rfl rfl
  have prepares : Annotated (reading needs final)
      [.store threshold, .push (.number .zero), .store counter] a e := by
    rw [← known]
    exact (((nil (a := a)).then_store threshold).then_idle (.push (.number .zero)) rfl rfl
      rfl).then_store counter
  have counts :
      Annotated (reading needs final) [.load counter, .push (.number .one), .arith .add, .dup,
      .store counter] e e :=
    (((((nil (a := e)).then_load counter_known).then_idle (.push (.number .one)) rfl rfl
      rfl).then_idle (.arith .add) rfl rfl rfl).then_idle .dup rfl rfl rfl).then_idle
      (.store counter) rfl rfl rfl
  have advances :
      Annotated (reading needs final) [.load counter, .push (.number .one), .arith .add, .dup,
      .store counter, .load threshold, .order .less] e e :=
    (counts.then_load threshold_known).then_idle (.order .less) rfl rfl rfl
  exact amount.countedLoop threshold counter inner tests (fun _ => reading_idle rfl Set.Subset.rfl)
    prepares advances (fun _ => reading_idle rfl Set.Subset.rfl) (fun _ => reading_idle rfl less)
    (reading_idle rfl Set.Subset.rfl)

end Fragment.Annotated

namespace Compiler

/-- The slots of the variables that are visible. -/
def variableSlots (c : Compiler) : Set UInt8 :=
  { slot | ∃ binding ∈ c.scope.bindings, binding.2.slot = slot }

/-- The slot of the results of statements, if there is one by now. -/
def answer? (c : Compiler) : Option UInt8 :=
  match c.draft with
  | none => some resultSlot
  | some draft => draft.resultSlot

/-- The slots that code may read: those of variables and parameters, and that of the result if the
last statement had one. -/
def known (c : Compiler) : Set UInt8 :=
  c.variableSlots ∪ { slot | ∃ draft, c.draft = some draft ∧ slot ∈ draft.params.map (·.slot) } ∪
    { slot | c.prior ≠ .void ∧ c.answer? = some slot }

/-- When the last statement had a result, there is a slot for it. -/
def Backed (c : Compiler) : Prop := c.prior ≠ .void → c.answer?.isSome

theorem variableSlots_subset_known (c : Compiler) : c.variableSlots ⊆ c.known :=
  Set.subset_union_left.trans Set.subset_union_left

/-- What is known is known by what is visible and by the last result. -/
theorem known_subset {c : Compiler} {a : Set UInt8} (visible : c.variableSlots ⊆ a)
    (params : ∀ draft, c.draft = some draft → ∀ slot ∈ draft.params.map (·.slot), slot ∈ a)
    (answer : c.prior ≠ .void → ∀ slot, c.answer? = some slot → slot ∈ a) : c.known ⊆ a := by
  rintro slot ((member | ⟨draft, inside, member⟩) | ⟨filled, given⟩)
  · exact visible member
  · exact params draft inside slot member
  · exact answer filled slot given

theorem param_known {c : Compiler} {name : String} {position : Nat} {param : Parameter (Option Ty)}
    (isParam : c.param? name = some (position, param)) : param.slot ∈ c.known := by
  obtain ⟨draft, inside, found⟩ := Option.bind_eq_some_iff.mp isParam
  exact .inl
    (.inr ⟨draft, inside,
      List.mem_map_of_mem (List.mem_of_getElem? (Draft.find?_eq_some.mp found).2)⟩)

theorem variable_known {c : Compiler} {name : String} {target : Variable}
    (isVariable : c.scope.find? name = some target) : target.slot ∈ c.known := by
  obtain ⟨before, after, split, -⟩ := List.lookup_eq_some_iff.mp isVariable
  exact variableSlots_subset_known c ⟨(name, target), by rw [split]; simp, rfl⟩

variable {c c' : Compiler}

theorem Steady.answer? (steady : c.Steady c') {slot : UInt8} (given : c.answer? = some slot) :
    c'.answer? = some slot := by
  have kept := steady.draft
  unfold Compiler.answer? at given ⊢
  cases before : c.draft with
  | none =>
    rw [before] at kept given
    rw [kept.eq_none]
    exact given
  | some draft =>
    rw [before] at kept given
    cases after : c'.draft with
    | none => rw [after] at kept; exact kept.elim
    | some later =>
      rw [after] at kept
      exact kept.resultSlot slot given

theorem Steady.backed (steady : c.Steady c') (backed : c.Backed) : c'.Backed := by
  intro filled
  rw [steady.prior] at filled
  obtain ⟨slot, given⟩ := Option.isSome_iff_exists.mp (backed filled)
  rw [steady.answer? given]
  rfl

/-- Nothing becomes known when the state keeps its names and has a slot for the result. -/
theorem Steady.known_subset (steady : c.Steady c') (backed : c.Backed) : c'.known ⊆ c.known := by
  refine Compiler.known_subset ?_ ?_ ?_
  · rintro slot ⟨binding, member, same⟩
    rw [steady.scope] at member
    exact variableSlots_subset_known c ⟨binding, member, same⟩
  · intro later after slot member
    have kept := steady.draft
    rw [after] at kept
    cases before : c.draft with
    | none => rw [before] at kept; exact kept.elim
    | some draft =>
      rw [before] at kept
      have slots : later.params.map (·.slot) = draft.params.map (·.slot) := by
        have pairs := congrArg (List.map Prod.snd) kept.params
        rwa [List.map_map, List.map_map] at pairs
      exact .inl (.inr ⟨draft, before, slots ▸ member⟩)
  · intro filled slot given
    rw [steady.prior] at filled
    obtain ⟨other, had⟩ := Option.isSome_iff_exists.mp (backed filled)
    cases (steady.answer? had).symm.trans given
    exact .inr ⟨filled, had⟩

/-- Code may read what is known before a task, and may call what can be called after it. -/
structure Provides (needs : Nat → Set UInt8) (final : Set UInt8 → Prop) (a : Set UInt8)
    (c c' : Compiler) : Prop where
  tidy : c.scope.Tidy
  backed : c.Backed
  known : c.known ⊆ a
  calls : ∀ target, c'.Callable target → needs target ⊆ a
  ends : c.draft.isSome → ∀ b, a ⊆ b → final b

theorem Provides.first {c₁ : Compiler} (provides : Provides needs final a c c')
    (grows : c₁.Grows c') : Provides needs final a c c₁ :=
  { provides with calls := fun target callable => provides.calls target (grows.callable callable) }

theorem Provides.rest {c₁ : Compiler} (provides : Provides needs final a c c')
    (steady : c.Steady c₁) : Provides needs final a c₁ c' where
  tidy := steady.tidy provides.tidy
  backed := steady.backed provides.backed
  known := (steady.known_subset provides.backed).trans provides.known
  calls := provides.calls
  ends := fun inside => provides.ends (steady.draft.isSome_eq ▸ inside)

theorem Provides.mono (provides : Provides needs final a c c') (more : a ⊆ b) :
    Provides needs final b c c' where
  tidy := provides.tidy
  backed := provides.backed
  known := provides.known.trans more
  calls := fun target callable => (provides.calls target callable).trans more
  ends := fun inside e within => provides.ends inside e (more.trans within)

/-- In a block no result is available at first. -/
theorem Provides.entered (tidy : c.scope.Tidy) (visible : c.variableSlots ⊆ a)
    (params : ∀ draft, c.draft = some draft → ∀ slot ∈ draft.params.map (·.slot), slot ∈ a)
    (calls : ∀ target, c'.Callable target → needs target ⊆ a)
    (ends : c.draft.isSome → ∀ b, a ⊆ b → final b) :
    Provides needs final a c.entered c' :=
  ⟨tidy.enter, fun filled => absurd rfl filled,
    known_subset visible params fun filled => absurd rfl filled, calls, ends⟩

end Compiler

open Compile Compiler

/-- The statement's value becomes known in the slot of the result. -/
theorem Compile.finishStatement_known {n : Node} {x : Compiled} {c c' : Compiler} {code : Fragment}
    (done : finishStatement n x c = .ok (code, c')) (backed : c.Backed) :
    c'.Backed ∧ (code = x.code ∧ c'.known ⊆ c.known ∨
      ∃ slot, code = x.code ++ [Instruction.store slot] ∧
        c'.known ⊆ c.known ∪ (Instruction.store slot).sets) := by
  obtain ⟨type, between, assumes, -, ⟨-, code, rfl⟩ | ⟨slot, after, filled, found, code, rfl⟩⟩ :=
    finishStatement_ok done
  · have steady := assumes.retyped.steady
    refine ⟨fun filled => absurd rfl filled, .inl ⟨code, ?_⟩⟩
    refine known_subset ?_ ?_ fun filled => absurd rfl filled
    · exact (between.variableSlots_subset_known).trans (steady.known_subset backed)
    · exact fun draft inside slot member =>
        steady.known_subset backed (.inl (.inr ⟨draft, inside, member⟩))
  · have steady := assumes.retyped.steady.trans (resultSlot_steady found)
    have given : after.answer? = some slot := by
      unfold answer?
      rcases resultSlot_ok found with ⟨outside, rfl, rfl⟩ | ⟨draft, inside, known, rfl⟩ |
        ⟨draft, slots, inside, -, -, rfl⟩
      · rw [outside]
      · rw [inside]
        exact known
      · rw [draft_resultSlot inside]
    refine ⟨fun _ => by show after.answer?.isSome; rw [given]; rfl, .inr ⟨slot, code, ?_⟩⟩
    refine known_subset ?_ ?_ ?_
    · exact (after.variableSlots_subset_known.trans (steady.known_subset backed)).trans
        Set.subset_union_left
    · exact fun draft inside slot member =>
        .inl (steady.known_subset backed (.inl (.inr ⟨draft, inside, member⟩)))
    · intro _ other same
      cases given.symm.trans same
      exact .inr rfl

/-- The code of a task reads what is known, and what is known after the task is known behind it. -/
def Task.Reads (task : Task) (needs : Nat → Set UInt8) (final : Set UInt8 → Prop) (a : Set UInt8)
    (code : Fragment) (c' : Compiler) : Prop :=
  ∃ b, a ⊆ b ∧ (task.Quiet ∨ c'.known ⊆ b) ∧ code.Annotated (reading needs final) a b

namespace Task

variable {task : Task} {code : Fragment} {c' : Compiler}

theorem Reads.stay (reads : task.Reads needs final a code c') :
    code.Annotated (reading needs final) a a := by
  obtain ⟨b, more, -, annotated⟩ := reads
  exact annotated.stay more

theorem Reads.quiet (annotated : code.Annotated (reading needs final) a a) (quiet : task.Quiet) :
    task.Reads needs final a code c' :=
  ⟨a, Set.Subset.rfl, .inl quiet, annotated⟩

end Task

open Fragment.Annotated

theorem UnaryOp.idle (op : UnaryOp) :
    op.instruction.requires needs = ∅ ∧ op.instruction.jump? = none ∧
      op.instruction.goesOn = true := by
  cases op <;> exact ⟨rfl, rfl, rfl⟩

theorem BinaryOp.comparison_idle {op : BinaryOp} {i : Instruction}
    (compares : op.comparison? = some i) :
    i.requires needs = ∅ ∧ i.jump? = none ∧ i.goesOn = true := by
  cases op <;> cases compares <;> exact ⟨rfl, rfl, rfl⟩

/-- The call of a procedure that was found needs nothing but what is known. -/
theorem Callee.Found.requires {callee : Callee} {name : String} {c c' : Compiler}
    (found : callee.Found c name) (grows : c.Grows c') (provides : Provides needs final a c c') :
    callee.instruction.requires needs ⊆ a := by
  cases callee with
  | host => exact Set.empty_subset a
  | defined procedure => exact provides.calls _ (grows.callable (found.callable rfl))
  | drafted draft => exact provides.calls _ (grows.callable (found.callable rfl))

theorem Yields.backed_node {n : Node} {want : Option Ty} {c c' : Compiler} {x : Compiled}
    (derivation : Yields (.node n want) c x c') (tidy : c.scope.Tidy) (backed : c.Backed) :
    c'.Backed := by
  cases introduces : n.introduces with
  | false => exact ((derivation.growth tidy).2 introduces).backed backed
  | true =>
    cases derivation with
    | declare _ allocated initial _ =>
      obtain ⟨slots, -, rfl⟩ := allocate_ok allocated
      exact ((initial.growth tidy).2 trivial).backed backed
    | define _ _ finished =>
      obtain ⟨draft, -, -, -, -, rfl⟩ := finishDraft_ok finished
      exact fun _ => rfl
    | _ => cases introduces

/-- What is known after a quiet task was known before it. -/
theorem Yields.known_after {task : Task} {c c₁ c' : Compiler} {x : Compiled}
    (derivation : Yields task c x c₁) (provides : Provides needs final a c c') (more : a ⊆ b)
    (known : task.Quiet ∨ c₁.known ⊆ b) : c₁.known ⊆ b := by
  rcases known with quiet | known
  · have steady := (derivation.growth provides.tidy).2 quiet
    exact ((steady.known_subset provides.backed).trans provides.known).trans more
  · exact known

/-- Code reads only what is known where it stands. -/
theorem Yields.reads {task : Task} {c c' : Compiler} {x : Compiled}
    (derivation : Yields task c x c')
    (provides : Provides needs final a c c') : task.Reads needs final a x.code c' := by
  induction derivation generalizing a with
  | literal | literals => exact .quiet (idle _ rfl rfl rfl) rfl
  | initialDefault => exact .quiet (idle _ rfl rfl rfl) trivial
  | unary _ inner =>
    obtain ⟨idle, straight, onward⟩ := UnaryOp.idle _
    exact .quiet ((inner provides).stay.then_idle _ idle straight onward) rfl
  | arith left right first second | order left right first second =>
    have steady := (left.growth provides.tidy).2 (by simp [Task.Quiet])
    have early := (first (provides.first (right.grows (steady.tidy provides.tidy)))).stay
    have late := (second (provides.rest steady)).stay
    exact .quiet (early.before (late.before (.before (idle _ rfl rfl rfl) .nil))) rfl
  | logic left right first second =>
    have steady := (left.growth provides.tidy).2 (by simp [Task.Quiet])
    have early := (first (provides.first (right.grows (steady.tidy provides.tidy)))).stay
    have late := (second (provides.rest steady)).stay
    exact .quiet (early.shortCircuit _ late (reading_idle rfl Set.Subset.rfl)
      (fun _ => reading_idle rfl Set.Subset.rfl) (fun _ => reading_idle rfl Set.Subset.rfl)
      fun _ => reading_idle rfl Set.Subset.rfl) rfl
  | comparison compares left leftValue right rightValue agreed first second =>
    obtain ⟨idle, straight, onward⟩ := BinaryOp.comparison_idle compares
    have provides := provides.first (agree_ok agreed).steady.grows
    have steady := (left.growth provides.tidy).2 (left.introduces_eq_false leftValue)
    have early := (first (provides.first (right.grows (steady.tidy provides.tidy)))).stay
    have late := (second (provides.rest steady)).stay
    exact .quiet ((early.before (late.before .nil)).then_idle _ idle straight onward) rfl
  | @result _ c slot c' available found =>
    -- A result that is available has a slot already, so none is handed out here.
    obtain ⟨had, given⟩ := Option.isSome_iff_exists.mp (provides.backed available)
    have same : had = slot := by
      unfold answer? at given
      rcases resultSlot_ok found with ⟨outside, rfl, -⟩ | ⟨draft, inside, known, -⟩ |
        ⟨draft, slots, inside, unknown, -⟩
      · rw [outside] at given
        exact (Option.some.inj given).symm
      · rw [inside] at given
        exact Option.some.inj (given.symm.trans known)
      · rw [inside] at given
        cases given.symm.trans unknown
    subst same
    exact .quiet (then_load .nil (provides.known (.inr ⟨available, given⟩))) rfl
  | @var name _ c x _ found =>
    rcases reference_ok found with
      ⟨position, param, isParam, code, -⟩ | ⟨target, -, isVariable, rfl, -⟩
    · rw [code]
      exact .quiet (then_load .nil (provides.known (param_known isParam))) rfl
    · exact .quiet (then_load .nil (provides.known (variable_known isVariable))) rfl
  | @declare name _ _ _ c slot c₁ x c' found fresh allocated initial _ start =>
    obtain ⟨slots, -, rfl⟩ := allocate_ok allocated
    have steady := (initial.growth provides.tidy).2 trivial
    have same : Provides needs final a { c with slots } c' :=
      { provides with calls := provides.calls }
    have late := ((start same).stay).then_store slot
    have before : c'.known ⊆ a := (steady.known_subset provides.backed).trans provides.known
    refine ⟨_, Set.subset_union_left, .inr (known_subset ?_ ?_ ?_), late⟩
    · rintro other ⟨binding, member, rfl⟩
      rcases List.mem_cons.mp member with rfl | old
      · exact .inr rfl
      · exact .inl
          (before (c'.variableSlots_subset_known ⟨binding, (List.mem_filter.mp old).1, rfl⟩))
    · exact fun draft inside other member => .inl (before (.inl (.inr ⟨draft, inside, member⟩)))
    · exact fun filled other given => .inl (before (.inr ⟨filled, given⟩))
  | assignParam _ value _ resolved inner =>
    have provides := provides.first (settleOpen_retyped resolved).steady.grows
    exact .quiet ((inner provides).stay.then_idle _ rfl rfl rfl) rfl
  | assignVariable _ _ _ inner => exact .quiet ((inner provides).stay.then_idle _ rfl rfl rfl) rfl
  | branch test body condition inner =>
    have steady := (test.growth provides.tidy).2 (by simp [Task.Quiet])
    have early := (condition (provides.first (body.grows (steady.tidy provides.tidy)))).stay
    exact .quiet (early.guarded_reading (inner (provides.rest steady)).stay).1 rfl
  | loop test body condition inner =>
    have steady := (test.growth provides.tidy).2 (by simp [Task.Quiet])
    have early := (condition (provides.first (body.grows (steady.tidy provides.tidy)))).stay
    exact .quiet (early.guarded_reading (inner (provides.rest steady)).stay).2 rfl
  | alternative test body other condition inner otherwise =>
    have steady := (test.growth provides.tidy).2 (by simp [Task.Quiet])
    have tidy := steady.tidy provides.tidy
    have steady' := (body.growth tidy).2 trivial
    have grows := other.grows (steady'.tidy tidy)
    have early := (condition (provides.first (steady'.grows.trans grows))).stay
    have middle := (inner ((provides.rest steady).first grows)).stay
    have late := (otherwise ((provides.rest steady).rest steady')).stay
    exact .quiet (early.alternative middle late (reading_idle rfl Set.Subset.rfl)
      (fun _ => reading_idle rfl Set.Subset.rfl) fun _ => reading_idle rfl Set.Subset.rfl) rfl
  | @times _ _ _ c _ c₁ threshold _ counter _ _ c' count first second body amount inner =>
    obtain ⟨slots, -, rfl⟩ := allocateScratch_ok first
    obtain ⟨slots', -, rfl⟩ := allocateScratch_ok second
    have entered : Provides needs final a { c with scope := c.scope.enter } c' :=
      { provides with tidy := provides.tidy.enter }
    have steady := (count.growth entered.tidy).2 (by simp [Task.Quiet])
    have counted := entered.rest steady
    have tidy := (counted.tidy.addScratch threshold).addScratch counter
    have started : Provides needs final a
        { c₁ with
          slots := slots'
          scope := (c₁.scope.addScratch threshold).addScratch counter } c' :=
      { counted with tidy }
    have more : a ⊆ a ∪ (Instruction.store threshold).sets ∪ (Instruction.store counter).sets :=
      Set.subset_union_left.trans Set.subset_union_left
    have grows := body.grows tidy
    have early := (amount { entered with
      calls := fun target callable => entered.calls target (grows.callable callable) }).stay
    have late := (inner (started.mono more)).stay
    exact .quiet ((counted_reading threshold counter early late).then_frees _) rfl
  | call found arity arguments finished given =>
    obtain ⟨code, -, assumes⟩ := finishCall_ok finished
    have provides := provides.first assumes.retyped.steady.grows
    have early := (given provides).stay
    have requires := (find_ok found).1.requires (arguments.grows provides.tidy) provides
    rw [code]
    exact .quiet (early.followed (Callee.instruction_straight _)
      (fun _ => ⟨requires, Set.subset_union_left⟩)
      fun ret => absurd ret (Callee.instruction_ne_ret _)) rfl
  | define started body finished inner =>
    obtain ⟨outside, -, -, parameters, slots, -, -, rfl⟩ := startDraft_ok started
    obtain ⟨draft, -, -, -, -, rfl⟩ := finishDraft_ok finished
    have steady := (body.growth provides.tidy).2 trivial
    refine ⟨a, Set.Subset.rfl, .inr (known_subset ?_ (fun _ inside => by cases inside) ?_), .nil⟩
    · rintro slot ⟨binding, member, rfl⟩
      have member : binding ∈ _ := steady.scope ▸ member
      exact provides.known (Compiler.variableSlots_subset_known _ ⟨binding, member, rfl⟩)
    · intro filled slot given
      have filled : _ ≠ Ty.void := steady.prior ▸ filled
      exact provides.known (.inr ⟨filled, by rw [answer?, draft_outside outside]; exact given⟩)
  | convert value _ _ _ inner => exact .quiet ((inner provides).stay.then_idle _ rfl rfl rfl) rfl
  | giveBack inside value typed noted given =>
    have same := ((value.growth provides.tidy).2 trivial).declared inside
    have early := (given (provides.first (noteReturn_ok noted same).steady.grows)).stay
    exact .quiet (early.followed rfl (fun onward => by cases onward) fun _ =>
      provides.ends (by rw [inside]; rfl) _ Set.Subset.rfl) rfl
  | list _ _ _ items => exact .quiet ((items provides).stay.then_idle _ rfl rfl rfl) rfl
  | item _ list index items place =>
    have steady := (list.growth provides.tidy).2 (by simp [Task.Quiet])
    have early := (items (provides.first (index.grows (steady.tidy provides.tidy)))).stay
    have late := (place (provides.rest steady)).stay
    exact .quiet (early.before (late.before (.before (idle _ rfl rfl rfl) .nil))) rfl
  | @setItem _ _ _ _ _ _ _ slot _ _ _ c' list _ index value items place new =>
    have steady := (list.growth provides.tidy).2 (by simp [Task.Quiet])
    have tidy := steady.tidy provides.tidy
    have steady' := (index.growth tidy).2 (by simp [Task.Quiet])
    have grows := value.grows (steady'.tidy tidy)
    have early := (items (provides.first (steady'.grows.trans grows))).stay
    have middle := (place ((provides.rest steady).first grows)).stay
    have late := (new ((provides.rest steady).rest steady')).stay
    have stores : Fragment.Annotated (reading needs final) [.setItem, .store slot] a a :=
      (idle .setItem rfl rfl rfl).then_idle (.store slot) rfl rfl rfl
    exact .quiet (early.before (middle.before (late.before (stores.before .nil)))) rfl
  | operand body expected inner =>
    have retyped := (expect_ok expected).1
    have provides := provides.first retyped.steady.grows
    obtain ⟨b, more, known, annotated⟩ := inner provides
    have backed := body.backed_node provides.tidy provides.backed
    exact ⟨b, more, .inr ((retyped.steady.known_subset backed).trans
      (body.known_after provides more known)), annotated⟩
  | valueOf body expected filled inner =>
    exact .quiet (inner (provides.first (expect_ok expected).1.steady.grows)).stay trivial
  | valueFound _ _ _ inner | giveFound _ _ _ _ inner | initialValue _ inner
  | giveDeclared _ _ inner =>
    exact .quiet (inner provides).stay trivial
  | giveNothing | noArguments | noItems => exact .quiet .nil trivial
  | noStatements => exact ⟨a, Set.Subset.rfl, .inr provides.known, .nil⟩
  | moreArguments _ argument typed resolved more first rest =>
    have steady := (argument.growth provides.tidy).2 trivial
    have steady' := steady.trans (settleOpen_retyped resolved).steady
    have grows := more.grows (steady'.tidy provides.tidy)
    have early :=
      (first (provides.first ((settleOpen_retyped resolved).steady.grows.trans grows))).stay
    exact .quiet (early.append (rest (provides.rest steady')).stay) trivial
  | moreItems item more first rest =>
    have steady := (item.growth provides.tidy).2 trivial
    have early := (first (provides.first (more.grows (steady.tidy provides.tidy)))).stay
    exact .quiet (early.append (rest (provides.rest steady)).stay) trivial
  | @moreStatements _ _ c x c₁ code c₂ _ c' statement finished more first rest =>
    have settled := (finishStatement_steady finished).grows.of_prior
    have tidy := settled.tidy (statement.tidy provides.tidy)
    have here := provides.first (settled.trans (more.grows tidy))
    obtain ⟨b, wider, known, annotated⟩ := first here
    have known := statement.known_after here wider known
    obtain ⟨backed, stored⟩ := finishStatement_known finished
      (statement.backed_node provides.tidy provides.backed)
    have later : ∀ e, b ⊆ e → c₂.known ⊆ e → Provides needs final e c₂ c' := fun e within knows =>
      ⟨tidy, backed, knows, fun target callable => (provides.calls target callable).trans
        (wider.trans within), fun inside f beyond => provides.ends (by
          rwa [((statement.grows provides.tidy).trans settled).draft.isSome_eq] at inside) f
        ((wider.trans within).trans beyond)⟩
    rcases stored with ⟨rfl, fewer⟩ | ⟨slot, rfl, fewer⟩
    · obtain ⟨e, within, knows, behind⟩ := rest (later b Set.Subset.rfl (fewer.trans known))
      exact ⟨e, wider.trans within, knows, annotated.append behind⟩
    · obtain ⟨e, within, knows, behind⟩ := rest (later _ Set.subset_union_left
        (fewer.trans (Set.union_subset_union_left _ known)))
      exact ⟨e, (wider.trans Set.subset_union_left).trans within, knows,
        (annotated.then_store slot).append behind⟩
  | @block _ c _ c' body inner =>
    have entered : Provides needs final a c.entered c' :=
      .entered provides.tidy (c.variableSlots_subset_known.trans provides.known)
        (fun draft inside slot member => provides.known (.inl (.inr ⟨draft, inside, member⟩)))
        provides.calls provides.ends
    exact .quiet ((inner entered).stay.then_frees _) trivial

theorem Yields.block_reads {nodes : List Node} {c c' : Compiler} {x : Compiled}
    (derivation : Yields (.block nodes) c x c') (entered : Provides needs final a c.entered c') :
    x.code.Annotated (reading needs final) a a := by
  cases derivation with
  | block inner => exact (inner.reads { entered with calls := entered.calls }).stay.then_frees _

/-- At the top level there is no return. -/
theorem Yields.at?_ne_ret {nodes : List Node} {c c' : Compiler} {x : Compiled}
    (derivation : Yields (.statements nodes) c x c') (ready : c.Ready) (offset : Nat) :
    x.code.at? offset ≠ some .ret := by
  have provides : Provides (fun _ => ∅) (fun _ => False) Set.univ c c' := by
    refine ⟨ready.tidy, fun _ => by rw [answer?, ready.outside]; rfl, Set.subset_univ _,
      fun _ _ => Set.empty_subset _, ?_⟩
    rw [ready.outside]
    nofun
  obtain ⟨-, note, -, -, marks⟩ := (derivation.reads provides).stay
  exact fun found => (marks offset _ found).ret rfl

/-- Behind stores their slots are known. -/
theorem Fragment.Annotated.then_stores {first : Fragment}
    (left : first.Annotated (reading needs final) a b) (slots : List UInt8) :
    ∃ e, b ⊆ e ∧ (∀ slot ∈ slots, slot ∈ e) ∧
      Fragment.Annotated (reading needs final) (first ++ slots.map Instruction.store) a e := by
  induction slots generalizing first b with
  | nil => exact ⟨b, Set.Subset.rfl, nofun, by rwa [List.map_nil, List.append_nil]⟩
  | cons slot more ih =>
    obtain ⟨e, wider, stored, annotated⟩ := ih (left.then_store slot)
    refine ⟨e, Set.subset_union_left.trans wider, ?_, ?_⟩
    · intro other member
      rcases List.mem_cons.mp member with rfl | later
      · exact wider (.inr rfl)
      · exact stored other later
    · rw [List.map_cons, List.append_cons]
      exact annotated

/-- The code of a procedure reads its parameters, which it stores first, and variables that were
visible at its definition. -/
theorem Making.reads (m : Making) (visible : m.before.variableSlots ⊆ a)
    (defined : ∀ p ∈ m.before.procedures, needs p.address ⊆ a)
    (itself : needs m.draft.finish.address ⊆ a) :
    ∃ b, m.code.Annotated (reading needs fun _ => True) a b := by
  obtain ⟨e, wider, stored, stores⟩ :=
    (Fragment.Annotated.nil (d := reading needs fun _ => True)).then_stores
      (m.draft.finish.params.map (·.slot)).reverse
  obtain ⟨parameters, slots, -, -, started⟩ := m.started_eq
  obtain ⟨draft, inside, kept, -⟩ := m.continues
  have params : m.draft.finish.params.map (·.slot) = draft.params.map (·.slot) := by
    have pairs := congrArg (List.map Prod.snd) kept.params
    rw [List.map_map, List.map_map] at pairs
    rw [Draft.finish, List.map_map]
    exact pairs
  have calls : ∀ target, m.ended.Callable target → needs target ⊆ e := by
    rintro target (⟨p, member, rfl⟩ | ⟨other, now, rfl⟩)
    · exact (defined p (m.procedures ▸ member)).trans wider
    · obtain rfl : m.draft = other := Option.some.inj (m.drafted.symm.trans now)
      exact itself.trans wider
  have body : m.inner.code.Annotated (reading needs fun _ => True) e e := by
    have entered : Provides needs (fun _ => True) e m.started.entered m.ended := by
      refine .entered m.tidy ?_ ?_ calls fun _ _ _ => trivial
      · rw [started]
        exact visible.trans wider
      · intro other same slot member
        obtain rfl : draft = other := Option.some.inj (inside.symm.trans same)
        exact stored slot (List.mem_reverse.mpr (params ▸ member))
    exact m.compiles.block_reads entered
  have tail : Fragment.Annotated (reading needs fun _ => True)
      (if Node.blockReturns m.body then [] else [.ret]) e e := by
    cases Node.blockReturns m.body with
    | true => exact .nil
    | false => exact .single rfl (fun onward => by cases onward) fun _ => trivial
  rw [code, procedureCode_eq]
  exact ⟨e, stores.before (body.before (tail.before .nil))⟩

/-- What code reads depends only on the procedures that it calls. -/
theorem Fragment.Annotated.revise {needs' : Nat → Set UInt8} {callable : Nat → Prop}
    {code : Fragment}
    (annotated : code.Annotated (reading needs final) a b) (sound : code.Sound callable)
    (same : ∀ target, callable target → needs' target = needs target) :
    code.Annotated (reading needs' final) a b := by
  obtain ⟨closed, note, start, stop, marks⟩ := annotated
  refine ⟨closed, note, start, stop, fun offset i found => ?_⟩
  have notes := marks offset i found
  have requires : i.requires needs' = i.requires needs := by
    cases i with
    | call target =>
      have member : Instruction.call target ∈ code.plain := mem_plain.mpr ⟨mem_of_at? found, rfl⟩
      exact same target ((sound.uses _ member).2 target rfl)
    | _ => rfl
  constructor
  · intro goesOn
    exact ⟨requires ▸ (notes.next goesOn).1, (notes.next goesOn).2⟩
  · intro target jumps
    exact ⟨requires ▸ (notes.jump target jumps).1, (notes.jump target jumps).2⟩
  · exact notes.ret

namespace Compiler

/-- What each procedure needs is among the slots, and its code reads nothing else. -/
def Surveys (needs : Nat → Set UInt8) (slots : Set UInt8) (procedures : List Procedure)
    (library : Fragment) : Prop :=
  ∀ p ∈ procedures, needs p.address ⊆ slots ∧ ∃ stop less code more,
    Library.Region procedures library p stop less code more ∧
      ∃ b, code.Annotated (reading needs fun _ => True) (needs p.address) b

theorem Grows.variableSlots_subset {c c' : Compiler} (grows : c.Grows c') :
    c.variableSlots ⊆ c'.variableSlots := by
  obtain ⟨new, bindings, -⟩ := grows.bindings
  rintro slot ⟨binding, member, same⟩
  exact ⟨binding, by rw [bindings]; exact List.mem_append_right _ member, same⟩

end Compiler

/-- A definition needs the variables that are visible; what other procedures need stays the same. -/
theorem Making.surveys (m : Making)
    (surveys : Surveys needs m.before.variableSlots m.before.procedures m.before.library) :
    ∃ needs', (∀ p ∈ m.before.procedures, needs' p.address = needs p.address) ∧
      Surveys needs' m.before.variableSlots (m.before.procedures ++ [m.draft.finish])
        (m.before.library ++ m.code.shift m.draft.finish.address) := by
  let needs' : Nat → Set UInt8 := fun target =>
    if target = m.draft.finish.address then m.before.variableSlots else needs target
  have itself : needs' m.draft.finish.address = m.before.variableSlots := if_pos rfl
  have others : ∀ p ∈ m.before.procedures, needs' p.address = needs p.address := by
    intro p member
    have before : p.address < m.before.libraryEnd := m.ready.library.address_lt member
    have address : m.draft.finish.address = m.before.libraryEnd := m.address
    exact if_neg (by omega)
  refine ⟨needs', others, fun p member => ?_⟩
  rcases List.mem_append.mp member with old | new
  · obtain ⟨visible, stop, less, code, more, region, b, annotated⟩ := surveys p old
    rw [others p old]
    refine ⟨visible, stop, less, code, _, region.extend _ _, b, annotated.revise region.sound ?_⟩
    rintro target ⟨other, known, rfl⟩
    exact others other known
  · obtain rfl := List.mem_singleton.mp new
    obtain ⟨b, annotated⟩ :
        ∃ b, m.code.Annotated (reading needs' fun _ => True) m.before.variableSlots b := by
      refine m.reads Set.Subset.rfl (fun p member => ?_) itself.subset
      rw [others p member]
      exact (surveys p member).1
    rw [itself]
    exact ⟨Set.Subset.rfl, _, m.before.library, m.code, [],
      ⟨by simp, m.address, rfl, m.sound, m.sealed⟩, b, annotated⟩

theorem Yields.surveys_node {n : Node} {c c' : Compiler} {x : Compiled}
    (derivation : Yields (.node n none) c x c') (ready : c.Ready)
    (surveys : Surveys needs c.variableSlots c.procedures c.library) :
    ∃ needs', (∀ p ∈ c.procedures, needs' p.address = needs p.address) ∧
      Surveys needs' c.variableSlots c'.procedures c'.library := by
  cases introduces : n.introduces with
  | false =>
    have steady := (derivation.growth ready.tidy).2 introduces
    rw [steady.procedures, steady.library]
    exact ⟨needs, fun _ _ => rfl, surveys⟩
  | true =>
    cases derivation with
    | declare fresh allocated initial typed =>
      obtain ⟨slots, -, rfl⟩ := allocate_ok allocated
      have steady := (initial.growth ready.tidy).2 trivial
      rw [steady.procedures, steady.library]
      exact ⟨needs, fun _ _ => rfl, surveys⟩
    | define started inner finished =>
      obtain ⟨draft, entry, settled, assumed, returning, rfl⟩ := finishDraft_ok finished
      let m : Making := ⟨_, _, _, _, c, _, _, _, draft, ready, started, inner, entry, settled,
        assumed, returning⟩
      have library : m.ended.library = c.library := by
        obtain ⟨parameters, slots, -, -, started⟩ := m.started_eq
        rw [m.steady.library, started]
      rw [m.procedures, library]
      exact m.surveys surveys
    | _ => cases introduces

/-- The code of a unit reads what is known before it, and what is known after it is known behind
it. -/
theorem Yields.surveys (final : Set UInt8 → Prop) {nodes : List Node} {c c' : Compiler}
    {x : Compiled} (derivation : Yields (.statements nodes) c x c') (ready : c.Ready)
    (surveys : Surveys needs c.variableSlots c.procedures c.library) (known : c.known ⊆ a) :
    ∃ needs', (∀ p ∈ c.procedures, needs' p.address = needs p.address) ∧
      Surveys needs' c'.variableSlots c'.procedures c'.library ∧
        ∃ b, a ⊆ b ∧ c'.known ⊆ b ∧ x.code.Annotated (reading needs' final) a b := by
  induction nodes generalizing needs a c x with
  | nil =>
    cases derivation
    exact ⟨needs, fun _ _ => rfl, surveys, a, Set.Subset.rfl, known, .nil⟩
  | cons n more ih =>
    cases derivation with
    | @moreStatements _ _ _ y c₁ code c₂ _ _ first finished rest =>
      have settled := finishStatement_steady finished
      have procedures : c₂.procedures = c₁.procedures := settled.procedures
      have library : c₂.library = c₁.library := settled.library
      have alone := Yields.moreStatements first finished .noStatements
      obtain ⟨needs₁, same, early⟩ := first.surveys_node ready surveys
      have between : c₂.Ready := ready.yields alone
      have calls : ∀ target, c₂.Callable target → ∃ p ∈ c₂.procedures, p.address = target := by
        rintro target (defined | ⟨draft, inside, -⟩)
        · exact defined
        · rw [between.outside] at inside
          cases inside
      have provides : Provides needs₁ final a c c₂ := by
        refine ⟨ready.tidy, fun _ => by rw [answer?, ready.outside]; rfl, known, ?_, ?_⟩
        · intro target callable
          obtain ⟨p, member, rfl⟩ := calls target callable
          exact ((early p (procedures ▸ member)).1.trans c.variableSlots_subset_known).trans known
        · rw [ready.outside]
          nofun
      obtain ⟨b, wider, knows, annotated⟩ := alone.reads provides
      have grows := alone.grows ready.tidy
      have surveys₁ : Surveys needs₁ c₂.variableSlots c₂.procedures c₂.library := by
        rw [procedures, library]
        exact fun p member =>
          ⟨(early p member).1.trans grows.variableSlots_subset, (early p member).2⟩
      obtain ⟨needs₂, same₂, late, e, within, knows, behind⟩ :=
        ih rest between surveys₁ (knows.resolve_left id)
      have revised := annotated.revise (alone.sound ready.tidy) fun target callable => by
        obtain ⟨p, member, rfl⟩ := calls target callable
        exact same₂ p member
      rw [Fragment.shift_nil, List.append_nil] at revised
      refine ⟨needs₂, fun p member => ?_, late, e, wider.trans within, knows, revised.append behind⟩
      exact (same₂ p (grows.procedures.subset member)).trans (same p member)

/-- The procedures of a compiler between two units need variables that are visible. -/
theorem Compiler.Reached.surveys {hosts : List (String × Signature)} {c : Compiler}
    (reached : Reached hosts c) :
    ∃ needs, Surveys needs c.variableSlots c.procedures c.library := by
  induction reached with
  | new => exact ⟨fun _ => ∅, nofun⟩
  | compile before done ih =>
    obtain ⟨needs, surveys⟩ := ih
    obtain ⟨top, derivation, -⟩ := compile_ok done
    obtain ⟨needs', -, after, -⟩ :=
      derivation.surveys (fun _ => True) before.ready surveys Set.Subset.rfl
    exact ⟨needs', after⟩
  | forgetResult _ ih => exact ih

end Primer
