import Primer.Proofs.Compilation.Claiming
import Primer.Proofs.Representation

/-!
Compiling a node that adds no name leaves the scope as it was. Wherever the compiler is in a unit,
the variables, the loops, the type of the last result and the procedure being compiled are the same
after the node as before it, and so are the slots that are handed out, but for the slot of the
procedure's result, which is handed out when it is first needed. What is claimed inside is freed
where its scope ends.
-/

set_option autoImplicit false
set_option relaxedAutoImplicit false

namespace Primer

open Compile

namespace SlotPool

/-- The slot is handed out, and was not given back. -/
def HandedOut (pool : SlotPool) (slot : UInt8) : Prop :=
  0 < slot.toNat ∧ slot.toNat < pool.next ∧ slot ∉ pool.freed

instance (pool : SlotPool) (slot : UInt8) : Decidable (pool.HandedOut slot) :=
  inferInstanceAs (Decidable (_ ∧ _ ∧ _))

theorem Exact.handedOut_iff {pool : SlotPool} {owned : List UInt8} (exact' : pool.Exact owned)
    {slot : UInt8} : pool.HandedOut slot ↔ slot ∈ owned := by
  constructor
  · rintro ⟨positive, below, kept⟩
    exact (List.mem_append.mp (exact'.kept slot positive below)).resolve_right kept
  · intro own
    obtain ⟨positive, below⟩ := exact'.given slot (List.mem_append_left _ own)
    exact ⟨positive, below,
      fun waiting => (List.nodup_append.mp exact'.distinct).2.2 slot own slot waiting rfl⟩

end SlotPool

/-- A later state of a draft has the slots from before, and one for the result if there is one
now. -/
theorem Draft.Continues.mem_slots {before after : Draft} (kept : before.Continues after)
    {slot : UInt8} : slot ∈ after.slots ↔ slot ∈ before.slots ∨ after.resultSlot = some slot := by
  have params := congrArg (List.map Prod.snd) kept.params
  simp only [List.map_map, Function.comp_def] at params
  simp only [slots, params, List.mem_append, Option.mem_toList, or_assoc]
  refine or_congr_right ⟨.inr, fun either => either.elim (kept.resultSlot slot) id⟩

theorem Draft.Kept.name_eq {before after : Option Draft} (kept : Kept before after) :
    after.map (·.name) = before.map (·.name) := by
  cases before with
  | none => rw [kept.eq_none]
  | some before =>
    cases after with
    | none => exact kept.elim
    | some after => exact congrArg some (Continues.name kept)

namespace Compiler

/-- The slot holds the result of the procedure that is being compiled. -/
def IsResult (c : Compiler) (slot : UInt8) : Prop :=
  ∃ draft, c.draft = some draft ∧ draft.resultSlot = some slot

/-- Nothing that a scope has is added or taken away between two states, and no slot is handed out or
given back but for the result of the procedure that is being compiled. -/
structure Neutral (before after : Compiler) : Prop where
  depth : after.scope.depth = before.scope.depth
  bindings : after.scope.bindings = before.scope.bindings
  scratch : after.scope.scratch = before.scope.scratch
  prior : after.prior = before.prior
  procedure : after.draft.map (·.name) = before.draft.map (·.name)
  slots : ∀ slot, after.slots.HandedOut slot ↔ before.slots.HandedOut slot ∨ after.IsResult slot

theorem Steady.mem_owned {c c' : Compiler} (steady : c.Steady c') {slot : UInt8} :
    slot ∈ c'.owned ↔ slot ∈ c.owned ∨ c'.IsResult slot := by
  have kept := steady.draft
  cases earlier : c.draft with
  | none =>
    rw [earlier] at kept
    have later := kept.eq_none
    simp only [owned, procedureSlots, steady.scope, steady.procedures, earlier, later, IsResult,
      reduceCtorEq, false_and, exists_false, or_false]
  | some before =>
    cases later : c'.draft with
    | none =>
      rw [earlier, later] at kept
      exact kept.elim
    | some after =>
      rw [earlier, later] at kept
      simp only [owned, procedureSlots, steady.scope, steady.procedures, earlier, later, IsResult,
        List.mem_append, Draft.Continues.mem_slots kept, Option.some.injEq, exists_eq_left']
      exact (or_congr_right or_right_comm).trans or_assoc.symm

/-- The tasks that the compiler comes to while it compiles units, each with the state that it is in
then. -/
inductive Comes (hosts : List (String × Signature)) : Task → Compiler → Prop
  | unit {c program} (reached : Reached hosts c) : Comes hosts (.statements program) c
  | part {task c rest inner d} (outer : Comes hosts task c) (part : Part task c rest inner d) :
      Comes hosts inner d
  | body {name params returns body want c c₁}
      (outer : Comes hosts (.node (.define name params returns body) want) c)
      (started : startDraft name params returns c = .ok ((), c₁)) : Comes hosts (.block body) c₁

variable {hosts : List (String × Signature)} {task : Task} {c c' : Compiler}

/-- Wherever the compiler is, the slots that are handed out are those in use, and those of variables
whose first value is computed. -/
theorem Comes.exact_slots (comes : Comes hosts task c) :
    c.scope.Tidy ∧ ∃ others, c.slots.Exact (others ++ c.owned) := by
  induction comes with
  | unit reached => exact ⟨reached.ready.tidy, [], reached.exact_slots⟩
  | part _ part ih =>
    obtain ⟨tidy, others, exact'⟩ := ih
    obtain ⟨tidy', exact''⟩ := part.upholds SlotPool.exact_lasting tidy exact'
    exact ⟨tidy', _, exact''⟩
  | body _ started ih =>
    obtain ⟨tidy, others, exact'⟩ := ih
    have begun := startDraft_upholds SlotPool.exact_lasting started others exact'
    obtain ⟨-, -, -, parameters, slots, -, -, rfl⟩ := startDraft_ok started
    exact ⟨tidy, others, begun⟩

theorem exists_of_node {n : Node} {want : Option Ty} {view : Compiler → Bool}
    (seen : (node n want c).toOption.any (fun made => view made.2) = true) :
    ∃ x c', node n want c = .ok (x, c') ∧ view c' = true := by
  cases done : node n want c with
  | error fault =>
    rw [done] at seen
    cases seen
  | ok made =>
    rw [done] at seen
    exact ⟨made.1, made.2, rfl, seen⟩

end Compiler

end Primer
