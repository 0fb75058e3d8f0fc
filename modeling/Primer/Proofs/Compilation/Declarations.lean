import Primer.Proofs.Compilation.CallSites

/-!
Where a variable of a procedure is visible it has been given a value. Control comes to such a place
through the declaration only, and the code in which the variable is visible does not free its slot.
So however the code has come there, the slot was stored in and not freed since, as far as this code
is concerned. The calls in the code are found in the source again, each with the place behind it.
-/

set_option autoImplicit false
set_option relaxedAutoImplicit false

namespace Primer

namespace Fragment

/-- Control can come to the offset before the slot is stored in, or after it was freed without being
stored in again. -/
inductive Bare (code : Fragment) (slot : UInt8) : Nat → Prop
  | start : Bare code slot 0
  | next {offset : Nat} {i : Instruction} (here : Bare code slot offset)
      (found : at? code offset = some i) (goesOn : i.goesOn) (spares : i ≠ .store slot) :
      Bare code slot (offset + i.size)
  | jump {offset target : Nat} {i : Instruction} (here : Bare code slot offset)
      (found : at? code offset = some i) (jumps : i.jump? = some target) : Bare code slot target
  | freed {offset : Nat} (found : at? code offset = some (.free slot)) :
      Bare code slot (offset + (Instruction.free slot).size)

/-- What ends where the code ends is its last instruction. -/
theorem eq_of_at?_last {code : Fragment} {i last : Instruction} {offset : Nat}
    (found : at? (code ++ [last]) offset = some i)
    (ends : offset + i.size = size (code ++ [last])) : i = last := by
  have positive := last.size_pos
  rw [size_append, size_cons, size_nil, Nat.add_zero] at ends
  by_cases inside : offset < size code
  · rw [at?_append_left inside] at found
    have := lt_size_of_at? found
    omega
  · obtain ⟨rest, rfl⟩ := Nat.exists_eq_add_of_le (Nat.not_lt.mp inside)
    rw [at?_append_right] at found
    exact List.mem_singleton.mp (mem_of_at? found)

/-- Where an instruction of three pieces stands. -/
theorem at?_append_cases {first second third : Fragment} {offset : Nat} {i : Instruction}
    (found : at? (first ++ second ++ third) offset = some i) :
    at? first offset = some i ∨
      i ∈ second ∧ size first ≤ offset ∧ offset < size first + size second ∨
      i ∈ third ∧ size first + size second ≤ offset := by
  rw [List.append_assoc] at found
  by_cases inFirst : offset < size first
  · rw [at?_append_left inFirst] at found
    exact .inl found
  · obtain ⟨rest, rfl⟩ := Nat.exists_eq_add_of_le (Nat.not_lt.mp inFirst)
    rw [at?_append_right] at found
    by_cases inSecond : rest < size second
    · rw [at?_append_left inSecond] at found
      exact .inr (.inl ⟨mem_of_at? found, by omega, by omega⟩)
    · obtain ⟨more, rfl⟩ := Nat.exists_eq_add_of_le (Nat.not_lt.mp inSecond)
      rw [at?_append_right] at found
      exact .inr (.inr ⟨mem_of_at? found, by omega⟩)

/-- Code that is entered through a store only, and does not free the slot, is not entered bare. -/
theorem not_bare_behind_store {head body after : Fragment} {slot : UInt8}
    (around : JumpsTo (fun target => target < size (head ++ [Instruction.store slot]) ∨
      size (head ++ [Instruction.store slot]) + size body ≤ target)
        (head ++ [Instruction.store slot] ++ after))
    (keeps : .free slot ∉ body) {offset : Nat}
    (bare : Bare (head ++ [Instruction.store slot] ++ body ++ after) slot offset) :
    offset < size (head ++ [Instruction.store slot]) ∨
      size (head ++ [Instruction.store slot]) + size body ≤ offset := by
  -- Behind the head control comes through the store, which leaves nothing bare.
  have short {k : Nat} {i : Instruction} (found : at? (head ++ [Instruction.store slot]) k = some i)
      (other : i ≠ .store slot) : k + i.size < size (head ++ [Instruction.store slot]) :=
    Nat.lt_of_le_of_ne (lt_size_of_at? found) fun ends => other (eq_of_at?_last found ends)
  induction bare with
  | start => exact .inl (size_pos (by simp))
  | next here found goesOn spares ih =>
    rcases at?_append_cases found with found | ⟨-, starts, stops⟩ | ⟨-, beyond⟩
    · exact .inl (short found spares)
    · omega
    · omega
  | jump here found jumps ih =>
    rcases at?_append_cases found with found | ⟨-, starts, stops⟩ | ⟨member, -⟩
    · exact around _ (List.mem_append_left _ (mem_of_at? found)) _ jumps
    · omega
    · exact around _ (List.mem_append_right _ member) _ jumps
  | freed found =>
    rcases at?_append_cases found with found | ⟨member, -⟩ | ⟨-, beyond⟩
    · exact .inl (short found nofun)
    · exact absurd member keeps
    · omega

/-- Inside a larger code, what stands behind a declaration is not entered bare. -/
theorem Encloses.not_bare {whole front rest : Fragment} {slot : UInt8} {distance offset : Nat}
    (encloses : Encloses whole
      (front ++ [Instruction.store slot] ++ shift rest (size (front ++ [Instruction.store slot])))
      distance)
    (closed : Closed front) (keeps : .free slot ∉ rest) (inside : offset < size rest) :
    ¬Bare whole slot (distance + (size (front ++ [Instruction.store slot]) + offset)) := by
  obtain ⟨before, after, rfl, sized, around⟩ := encloses
  have laid : before ++ shift (front ++ [Instruction.store slot] ++
      shift rest (size (front ++ [Instruction.store slot]))) distance ++ after =
        before ++ shift front distance ++ [Instruction.store slot] ++
        shift rest (size (front ++ [Instruction.store slot]) + distance) ++ after := by
    simp [shift_append, shift_shift, Instruction.shift]
  have head : size (before ++ shift front distance ++ [Instruction.store slot]) =
      distance + size (front ++ [Instruction.store slot]) := by
    simp [sized]
  rw [laid]
  intro bare
  rw [jumpsTo_append] at around
  have behind := not_bare_behind_store ?_ ?_ bare
  · rw [head, size_shift] at behind
    omega
  · simp only [jumpsTo_append, jumpsTo_shift, head, size_shift]
    have less : size front < size (front ++ [Instruction.store slot]) := by
      rw [size_append]
      exact Nat.lt_add_of_pos_right (size_pos (by simp))
    have parts : size (front ++ [Instruction.store slot] ++
        shift rest (size (front ++ [Instruction.store slot]))) =
        size (front ++ [Instruction.store slot]) + size rest := by
      rw [size_append, size_shift]
    rw [parts] at around
    have outside :
        ∀ target, Around distance (size (front ++ [Instruction.store slot]) + size rest) target →
        target < distance + size (front ++ [Instruction.store slot]) ∨
          distance + size (front ++ [Instruction.store slot]) + size rest ≤ target := by
      intro target place
      unfold Around at place
      omega
    refine ⟨⟨⟨around.1.imp outside, closed.imp fun target cut => .inl ?_⟩,
      (straight_single rfl).jumpsTo _⟩, around.2.imp outside⟩
    have := cut.le_size
    omega
  · intro member
    obtain ⟨i, inner, same⟩ := List.mem_map.mp member
    obtain rfl : i = .free slot := by cases i <;> first | exact same | cases same
    exact keeps inner

end Fragment

open Compile Compiler Fragment

variable {start c c' d : Compiler} {others : List UInt8}

/-- A state comes out of itself, where its draft is left aside. -/
theorem Compiler.Since.undrafted (since : Since start c others) :
    Since { c with current := none } c others := by
  have distinct := (List.nodup_append.mp (List.nodup_append.mp since.accounts.distinct).1).2.1
  obtain ⟨-, procedures, scope⟩ := List.nodup_append.mp distinct
  refine ⟨since.tidy, since.accounts, fun slot member => List.mem_append_right _ ?_,
    fun _ => .inl, ?_⟩
  · rcases List.mem_append.mp member with inScope | defined
    · exact List.mem_append_left _ inScope
    · exact List.mem_append_right _ (List.mem_append_right _ defined)
  · intro draft inside slot own member
    rw [procedureSlots, inside] at procedures scope
    rcases List.mem_append.mp member with inScope | defined
    · exact scope slot inScope slot (List.mem_append_left _ own) rfl
    · exact (List.nodup_append.mp procedures).2.2 slot own slot defined rfl

/-- The code of a task does not free what was in use at an earlier state. -/
theorem Yields.free_notMem_of_owned {task : Task} {x : Compiled} (derivation : Yields task c x c')
    (since : Since start c others) {slot : UInt8} (used : slot ∈ start.owned) :
    .free slot ∉ x.code := by
  intro member
  obtain ⟨offset, inner, d, occurs, emits⟩ := derivation.makes _ (mem_plain.mpr ⟨member, rfl⟩)
  obtain ⟨others', since'⟩ := occurs.since since
  rcases emits.changes since' rfl with fresh | ⟨n, want, name, found, rfl, assigns, -⟩
  · exact fresh used
  · -- What assigns a variable by its name frees nothing.
    generalize frees : Instruction.free slot = i at emits
    cases emits with
    | other spares => rw [← frees] at spares; cases spares
    | endCount => cases assigns
    | @call _ _ _ _ callee => cases callee <;> cases frees
    | _ => cases frees

/-- The code of a task does not free what is visible when it starts. -/
theorem Yields.free_notMem {task : Task} {x : Compiled} (derivation : Yields task c x c')
    (since : Since start c others) {slot : UInt8} (visible : slot ∈ c.scope.slots) :
    .free slot ∉ x.code :=
  derivation.free_notMem_of_owned since.undrafted (List.mem_append_left _ visible)

/-- What is no value leaves no result. -/
theorem Compile.finishStatement_void {n : Node} {x : Compiled} {code : Fragment}
    (done : finishStatement n x c = .ok (code, c')) (void : x.type = some .void) :
    code = x.code := by
  obtain ⟨type, between, -, typed, ⟨-, same, -⟩ | ⟨slot, after, filled, -⟩⟩ :=
    finishStatement_ok done
  · exact same
  · rcases typed with ⟨typed, -⟩ | ⟨-, rfl, -⟩
    · exact absurd (Option.some.inj (typed.symm.trans void)) filled
    · exact absurd rfl filled

/-- A statement that adds a variable ends with a store in its slot. -/
theorem Yields.declared {n : Node} {want : Option Ty} {x : Compiled}
    (derivation : Yields (.node n want) c x c') (tidy : c.scope.Tidy) {binding : String × Variable}
    (visible : binding ∈ c'.scope.bindings) (new : binding ∉ c.scope.bindings) :
    x.type = some .void ∧ ∃ front, Closed front ∧
      x.code = front ++ [Instruction.store binding.2.slot] := by
  cases introduces : n.introduces with
  | false => exact absurd (((derivation.growth tidy).2 introduces).scope ▸ visible) new
  | true =>
    cases derivation with
    | @declare _ _ _ _ _ slot c₁ y c₂ found fresh allocated start typed =>
      obtain ⟨slots, -, rfl⟩ := allocate_ok allocated
      have tidy₁ : Scope.Tidy { c with slots }.scope := tidy
      have steady := (start.growth tidy₁).2 trivial
      rcases List.mem_cons.mp visible with rfl | old
      · exact ⟨rfl, y.code, (start.sound tidy₁).closed, rfl⟩
      · rw [steady.scope] at old
        exact absurd (List.mem_filter.mp old).1 new
    | define started inner finished =>
      obtain ⟨-, -, -, parameters, slots, -, -, rfl⟩ := startDraft_ok started
      obtain ⟨draft, -, -, -, -, rfl⟩ := finishDraft_ok finished
      exact absurd (((inner.growth tidy).2 trivial).scope ▸ visible) new
    | _ => cases introduces

/-- Where a part starts the same variables are visible as where the task starts, unless it stands
behind a statement. -/
theorem Part.bindings_cases {task inner : Task} {rest : Nat} {z : Compiled}
    (part : Part task c rest inner d) (derivation : Yields task c z c') (tidy : c.scope.Tidy) :
    d.scope.bindings = c.scope.bindings ∨
      ∃ n more x c₁ code, task = .statements (n :: more) ∧ inner = .statements more ∧
        rest = code.size ∧ Yields (.node n none) c x c₁ ∧
        finishStatement n x c₁ = .ok (code, d) := by
  have quiet (scope : d.scope = c.scope) : d.scope.bindings = c.scope.bindings := congrArg _ scope
  have steady {task : Task} {x : Compiled} {c₁ : Compiler} (derivation : Yields task c x c₁)
      (silent : task.Quiet) : c.Steady c₁ := (derivation.growth tidy).2 silent
  cases part with
  | arithRight first | orderRight first | logicRight first | moreItems first | setItemIndex first
  | itemIndex first | branchBody first | loopBody first =>
    exact .inl (quiet (steady first (by simp [Task.Quiet])).scope)
  | comparisonRight compares first =>
    cases derivation with
    | comparison _ left filled =>
      obtain ⟨rfl, rfl⟩ := first.unique left
      exact .inl (quiet (steady left (left.introduces_eq_false filled)).scope)
    | _ => cases compares
  | declare allocated =>
    obtain ⟨slots, -, rfl⟩ := allocate_ok allocated
    exact .inl rfl
  | branchOther condition inner =>
    have one := steady condition (by simp [Task.Quiet])
    have two := (inner.growth (one.tidy tidy)).2 trivial
    exact .inl (quiet (one.trans two).scope)
  | @timesBody _ _ _ _ _ c₁ _ _ _ _ amount first second =>
    have one := (amount.growth tidy.enter).2 (by simp [Task.Quiet])
    obtain ⟨slots, -, rfl⟩ := allocateScratch_ok first
    obtain ⟨slots', -, rfl⟩ := allocateScratch_ok second
    have same : c₁.scope.bindings = c.scope.bindings := by
      rw [one.scope]
      rfl
    exact .inl same
  | setItemValue items place =>
    have one := steady items (by simp [Task.Quiet])
    have two := (place.growth (one.tidy tidy)).2 (by simp [Task.Quiet])
    exact .inl (quiet (one.trans two).scope)
  | moreArguments _ first _ resolved =>
    have one := steady first trivial
    exact .inl (quiet (one.trans (settleOpen_retyped resolved).steady).scope)
  | moreStatements first finished => exact .inr ⟨_, _, _, _, _, rfl, rfl, rfl, first, finished⟩
  | _ => exact .inl rfl

/-- The variables that are visible where a task starts are visible where its parts start. -/
theorem Part.visible {task inner : Task} {rest : Nat} {z : Compiled}
    (part : Part task c rest inner d) (derivation : Yields task c z c') (tidy : c.scope.Tidy) :
    c.scope.bindings ⊆ d.scope.bindings := by
  rcases part.bindings_cases derivation tidy with
    same | ⟨n, more, x, c₁, code, -, -, -, first, finished⟩
  · rw [same]
    exact List.Subset.refl _
  · obtain ⟨new, bindings, -⟩ := (first.grows tidy).bindings
    rw [(finishStatement_steady finished).scope]
    show c.scope.bindings ⊆ c₁.scope.bindings
    rw [bindings]
    exact List.subset_append_right _ _

/-- The variables that are visible where a task starts are visible at every place in it. -/
theorem Occurs.visible {whole task : Task} {start : Compiler} {offset : Nat} {x : Compiled}
    {others : List UInt8} (occurs : Occurs whole c offset task d) (derivation : Yields whole c x c')
    (since : start.Since c others) : c.scope.bindings ⊆ d.scope.bindings := by
  induction occurs with
  | here => exact List.Subset.refl _
  | part outer part ih =>
    obtain ⟨_, _, _, inner, since', -⟩ := outer.yields derivation since
    exact List.Subset.trans ih (part.visible inner since'.tidy)

theorem Fragment.size_stores (slots : List UInt8) :
    size (slots.map Instruction.store) = slots.length * 2 := by
  induction slots with
  | nil => rfl
  | cons slot more ih =>
    rw [List.map_cons, size_cons, ih, List.length_cons, Nat.succ_mul, Nat.add_comm]
    rfl

namespace Making

/-- The stores of the arguments, with which the code of a procedure starts. -/
def prologue (m : Making) : Fragment :=
  (m.draft.finish.params.map (·.slot)).reverse.map Instruction.store

/-- The body stands behind the stores of the arguments, and is entered through its start only. -/
theorem encloses (m : Making) : m.code.Encloses m.inner.code m.prologue.size := by
  rw [code, procedureCode_eq]
  exact (encloses_sequence_head _ _).sequence_tail (stores_sound _ (fun _ => True)).closed

/-- Where a variable of the body is visible, the code is not entered bare of its slot. -/
theorem not_bare (m : Making) {task : Task} {offset k : Nat} {y : Compiled}
    (occurs : Occurs (.block m.body) m.started offset task d) (made : Yields task d y c')
    {binding : String × Variable} (visible : binding ∈ d.scope.bindings)
    (own : binding ∉ m.started.scope.bindings) (inside : k < y.code.size) :
    ¬m.code.Bare binding.2.slot (m.prologue.size + (offset + k)) := by
  induction occurs generalizing y c' k with
  | here => exact absurd visible own
  | @part offset rest task inner c d outer part ih =>
    obtain ⟨z, e, whole, encloses⟩ := outer.encloses m.compiles m.since
    obtain ⟨others, since⟩ := outer.since m.since
    by_cases old : binding ∈ c.scope.bindings
    · have fits := (part.encloses whole since.tidy made).le_size
      rw [Nat.add_assoc]
      exact ih whole old (by omega)
    · -- The variable is declared by the statement before this place.
      obtain ⟨n, more, x, c₁, code, rfl, rfl, rfl, first, finished⟩ :=
        (part.bindings_cases whole since.tidy).resolve_left fun same => old (same ▸ visible)
      obtain ⟨others', since'⟩ := part.since since
      have kept : binding ∈ c₁.scope.bindings := by
        rw [← (finishStatement_steady finished).scope]
        exact visible
      obtain ⟨void, front, closed, coded⟩ := first.declared since.tidy kept old
      obtain rfl := finishStatement_void finished void
      cases whole with
      | moreStatements first' finished' remaining =>
        obtain ⟨rfl, rfl⟩ := first.unique first'
        rw [finished] at finished'
        cases finished'
        obtain ⟨rfl, rfl⟩ := made.unique remaining
        have placed := m.encloses.trans encloses
        rw [coded] at placed ⊢
        have free := made.free_notMem since'
          (List.mem_append_left _ (List.mem_map_of_mem visible))
        have apart := placed.not_bare closed free inside
        rwa [Nat.add_assoc, ← Nat.add_assoc offset] at apart

/-- The calls in the code of a procedure have their places in its body. -/
theorem sited (m : Making) (address : Nat) : m.code.Sited address fun stop =>
    ∃ inner, stop = m.prologue.size + inner ∧
      (Task.block m.body).CallEnds m.started address inner := by
  rw [code, procedureCode_eq]
  refine (sited_plain ?_).before (Sited.before (fun offset found => ?_) (sited_plain ?_))
  · simp [Instruction.isCall]
  · exact ⟨_, rfl, m.compiles.sited offset found⟩
  · split <;> simp [Instruction.isCall]

end Making

end Primer
