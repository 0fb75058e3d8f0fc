import Primer.Proofs.Compilation.Occurrence
import Primer.Proofs.Compilation.Ownership

/-!
When slots run out. Slots are asked for by declarations, parameters, results of procedures and
loops. A unit that fails for want of slots came to one of these places when no slot was left; the
slots in use there are those of the state and those that were handed out for what is not in the
state yet.
-/

set_option autoImplicit false
set_option relaxedAutoImplicit false

namespace Primer

/-- The slots that a task holds while its parts are compiled, though nothing in the state has them
yet: that of a variable whose first value is computed. -/
def Task.claimed (c : Compiler) : Task → List UInt8
  | .node (.declare ..) _ => (c.slots.allocate?.map Prod.fst).toList
  | _ => []

/-- A task asks for a slot, in the state that it has come to. Some slots may have been handed out by
then for what is not in the state yet. -/
inductive Requests : Task → Compiler → List UInt8 → Compiler → Prop
  | declaration {name type value want c} : Requests (.node (.declare name type value) want) c [] c
  | parameter {name params returns body want c given slots} (hands : c.slots.Hands given slots)
      (fewer : given.length < params.length) :
      Requests (.node (.define name params returns body) want) c given { c with slots }
  | ownResult {want c draft} (inside : Compiler.draft c = some draft)
      (unknown : draft.resultSlot = none) : Requests (.node .result want) c [] c
  | ownStatement {n more c x c₁ draft} (first : Yields (.node n none) c x c₁)
      (inside : Compiler.draft c₁ = some draft) (unknown : draft.resultSlot = none) :
      Requests (.statements (n :: more)) c [] c₁
  | threshold {count body want c x c₁}
      (amount : Yields (.operand count .number .repeatCount) { c with scope := c.scope.enter }
        x c₁) :
      Requests (.node (.times count body) want) c [] c₁
  | counter {count body want c x c₁ threshold c₂}
      (amount : Yields (.operand count .number .repeatCount) { c with scope := c.scope.enter } x c₁)
      (first : Compile.allocateScratch c₁ = .ok (threshold, c₂)) :
      Requests (.node (.times count body) want) c [] c₂
  | body {name params returns body want c c₁ held e}
      (started : Compile.startDraft name params returns c = .ok ((), c₁))
      (inner : Requests (.block body) c₁ held e) :
      Requests (.node (.define name params returns body) want) c held e
  | part {task c rest inner d held e} (part : Part task c rest inner d)
      (inner : Requests inner d held e) : Requests task c (held ++ task.claimed c) e

open Compile Compiler

/-- A lasting rule about the slots in use holds where a part starts. -/
theorem Part.upholds {rule : SlotPool → List UInt8 → Prop} (lasting : SlotPool.Lasting rule)
    {task inner : Task} {c d : Compiler} {rest : Nat} (part : Part task c rest inner d)
    (tidy : c.scope.Tidy) {others : List UInt8} (holds : rule c.slots (others ++ c.owned)) :
    d.scope.Tidy ∧ rule d.slots (task.claimed c ++ others ++ d.owned) := by
  have later {task : Task} {c c' : Compiler} {x : Compiled} (derivation : Yields task c x c')
      (tidy : c.scope.Tidy) (holds : rule c.slots (others ++ c.owned)) :
      c'.scope.Tidy ∧ rule c'.slots (others ++ c'.owned) :=
    ⟨derivation.tidy tidy, derivation.upholds lasting tidy others holds⟩
  cases part with
  | arithRight first | orderRight first | logicRight first | comparisonRight _ first
  | moreItems first | setItemIndex first | itemIndex first | branchBody first | loopBody first =>
    exact later first tidy holds
  | declare allocated =>
    obtain ⟨slots, found, rfl⟩ := allocate_ok allocated
    refine ⟨tidy, ?_⟩
    rw [Task.claimed, found]
    exact lasting.allocate holds found
  | branchOther condition inner =>
    obtain ⟨tidy₁, holds₁⟩ := later condition tidy holds
    exact later inner tidy₁ holds₁
  | timesCount => exact ⟨tidy.enter, holds⟩
  | timesBody amount first second =>
    obtain ⟨tidy₁, holds₁⟩ := later amount tidy.enter holds
    have holds₂ := allocateScratch_upholds lasting first others holds₁
    have holds₃ := allocateScratch_upholds lasting second others holds₂
    obtain ⟨slots, -, rfl⟩ := allocateScratch_ok first
    obtain ⟨slots', -, rfl⟩ := allocateScratch_ok second
    exact ⟨(tidy₁.addScratch _).addScratch _, holds₃⟩
  | setItemValue items place =>
    obtain ⟨tidy₁, holds₁⟩ := later items tidy holds
    exact later place tidy₁ holds₁
  | moreArguments _ first _ resolved =>
    obtain ⟨tidy₁, holds₁⟩ := later first tidy holds
    have settled := settleOpen_retyped resolved
    exact ⟨settled.steady.tidy tidy₁, settled.upholds others holds₁⟩
  | moreStatements first finished =>
    obtain ⟨tidy₁, holds₁⟩ := later first tidy holds
    exact ⟨(finishStatement_steady finished).grows.of_prior.tidy tidy₁,
      finishStatement_upholds lasting finished others holds₁⟩
  | block => exact ⟨tidy.enter, holds⟩
  | _ => exact ⟨tidy, holds⟩

/-- A lasting rule about the slots in use holds where a slot is asked for. -/
theorem Requests.upholds {rule : SlotPool → List UInt8 → Prop} (lasting : SlotPool.Lasting rule)
    {task : Task} {c e : Compiler} {held : List UInt8} (requests : Requests task c held e)
    (tidy : c.scope.Tidy) {others : List UInt8} (holds : rule c.slots (others ++ c.owned)) :
    rule e.slots (held ++ others ++ e.owned) := by
  induction requests generalizing others with
  | declaration | ownResult => exact holds
  | parameter hands => exact (List.append_assoc _ _ _).symm ▸ lasting.hands holds hands
  | ownStatement first => exact first.upholds lasting tidy others holds
  | threshold amount => exact amount.upholds lasting tidy.enter others holds
  | counter amount first =>
    exact allocateScratch_upholds lasting first others
      (amount.upholds lasting tidy.enter others holds)
  | body started _ ih =>
    have begun := startDraft_upholds lasting started others holds
    obtain ⟨-, -, -, parameters, slots, -, -, rfl⟩ := startDraft_ok started
    exact ih tidy begun
  | part part _ ih =>
    obtain ⟨tidy', holds'⟩ := part.upholds lasting tidy holds
    have inner := ih tidy' holds'
    rwa [← List.append_assoc] at inner

namespace Compile

/-- A step that never fails for want of slots. -/
def Spares {α : Type} (work : Compile α) : Prop := ∀ c, work c ≠ .error .tooManySlots

section Steps

variable {α β : Type}

theorem spares_pure (a : α) : Spares (pure a) := by
  intro c failed
  cases failed

theorem spares_throw {fault : CompileError} (other : fault ≠ .tooManySlots) :
    Spares (throw fault : Compile α) := by
  intro c failed
  cases failed
  exact other rfl

theorem spares_get : Spares (get : Compile Compiler) := by
  intro c failed
  cases failed

theorem spares_set (after : Compiler) : Spares (set after : Compile PUnit) := by
  intro c failed
  cases failed

theorem spares_modify (f : Compiler → Compiler) : Spares (modify f : Compile PUnit) := by
  intro c failed
  cases failed

theorem Spares.bind {first : Compile α} {next : α → Compile β} (here : Spares first)
    (later : ∀ a, Spares (next a)) : Spares (first >>= next) := by
  intro c failed
  rcases bind_eq_error.mp failed with fails | ⟨a, between, -, fails⟩
  · exact here c fails
  · exact later a between fails

theorem spares_throw_bind {fault : CompileError} (other : fault ≠ .tooManySlots)
    (next : α → Compile β) : Spares ((throw fault : Compile α) >>= next) := by
  intro c failed
  cases failed
  exact other rfl

end Steps

theorem spares_emit (i : Instruction) : Spares (emit i) := by
  unfold emit
  split
  · exact spares_pure _
  · refine spares_throw ?_
    rename_i fault _
    cases fault <;> simp [CompileError.ofEncodeFault]

theorem spares_resolveParam (position : Nat) (type : Ty) : Spares (resolveParam position type) :=
  spares_modify _

theorem spares_assumeReturn (type : Ty) : Spares (assumeReturn type) := by
  refine spares_get.bind fun c => ?_
  split
  · exact spares_throw (by simp)
  · split
    · split
      · exact spares_throw_bind (by simp) _
      · exact spares_modify _
    · exact spares_modify _

theorem spares_settle (n : Node) (type : Ty) : Spares (settle n type) := by
  refine spares_get.bind fun c => ?_
  split
  · split
    · exact spares_resolveParam _ _
    · exact spares_throw (by simp)
  · split
    · exact spares_assumeReturn _
    · exact spares_throw (by simp)
  · exact spares_throw (by simp)

theorem spares_expect (n : Node) (found : Option Ty) (want : Ty) (role : Role) :
    Spares (expect n found want role) := by
  unfold expect
  split
  · split
    · exact spares_pure _
    · exact spares_throw (by simp)
  · exact spares_settle _ _

theorem spares_requireValue (found : Option Ty) (role : Role) :
    Spares (requireValue found role) := by
  unfold requireValue
  split
  · exact spares_throw (by simp)
  · exact spares_throw (by simp)
  · exact spares_pure _

theorem spares_agree (op : BinaryOp) (left right : Node) (leftType rightType : Option Ty) :
    Spares (agree op left right leftType rightType) := by
  unfold agree
  split
  · split
    · exact spares_pure _
    · exact spares_throw (by simp)
  · exact spares_settle _ _
  · exact spares_settle _ _
  · exact spares_throw (by simp)

theorem spares_paramAt (position : Nat) : Spares (paramAt position) := by
  refine spares_get.bind fun c => ?_
  split
  · exact spares_pure _
  · exact spares_throw (by simp)

theorem spares_slotOf (name : String) : Spares (slotOf name) := by
  refine spares_get.bind fun c => ?_
  split
  · exact (spares_paramAt _).bind fun _ => spares_pure _
  · exact spares_pure _
  · exact spares_throw (by simp)

theorem spares_reference (name : String) (want : Option Ty) : Spares (reference name want) := by
  refine spares_get.bind fun c => ?_
  split
  · refine (spares_paramAt _).bind fun param => ?_
    split
    · exact (spares_resolveParam _ _).bind fun _ => spares_pure _
    · exact spares_pure _
  · exact spares_pure _
  · exact spares_throw (by simp)

theorem spares_expected (callee : Callee) (position : Nat) : Spares (callee.expected position) := by
  unfold Callee.expected
  split
  · exact spares_get.bind fun _ => spares_pure _
  · exact spares_pure _
  · exact spares_pure _

theorem spares_find (name : String) : Spares (Callee.find name) := by
  refine spares_get.bind fun c => ?_
  split
  · exact spares_pure _
  · exact spares_pure _
  · exact spares_pure _
  · exact spares_throw (by simp)

theorem spares_finishCall (callee : Callee) (arguments : Fragment) (want : Option Ty) :
    Spares (finishCall callee arguments want) := by
  unfold finishCall
  split
  · exact (spares_emit _).bind fun _ => spares_pure _
  · exact spares_pure _
  · refine spares_get.bind fun c => ?_
    split
    · exact spares_pure _
    · exact (spares_assumeReturn _).bind fun _ => spares_pure _
    · exact spares_pure _

theorem spares_noteReturn (draft : Draft) (type : Ty) : Spares (noteReturn draft type) := by
  unfold noteReturn
  split
  · split
    · exact spares_throw (by simp)
    · exact spares_pure _
  · exact spares_modify _

theorem spares_finishDraft (name : String) (body : List Node) (code : Fragment) :
    Spares (finishDraft name body code) := by
  have last (p : Bool) (fault : CompileError) (other : fault ≠ .tooManySlots) (c : Compiler) :
      Spares (if p then throw fault >>= fun _ : PUnit => set c else (set c : Compile PUnit)) := by
    split
    · exact spares_throw_bind other _
    · exact spares_set _
  refine spares_get.bind fun c => ?_
  dsimp only
  split
  · split
    · exact spares_throw_bind (by simp) _
    · split
      · split
        · exact spares_throw_bind (by simp) _
        · exact last _ _ (by simp) _
      · exact last _ _ (by simp) _
  · exact spares_throw (by simp)

section Failures

variable {c : Compiler}

theorem allocate_error {fault : CompileError} (failed : allocate c = .error fault) :
    c.slots.allocate? = none := by
  simp only [allocate, get_bind] at failed
  cases found : c.slots.allocate? with
  | none => rfl
  | some given =>
    rw [found] at failed
    cases failed

theorem allocateScratch_error {fault : CompileError} (failed : allocateScratch c = .error fault) :
    c.slots.allocate? = none := by
  rcases bind_eq_error.mp failed with fails | ⟨slot, between, -, fails⟩
  · exact allocate_error fails
  · cases fails

theorem resultSlot_error (failed : resultSlot c = .error .tooManySlots) :
    ∃ draft, c.draft = some draft ∧ draft.resultSlot = none ∧ c.slots.allocate? = none := by
  simp only [resultSlot, get_bind] at failed
  cases current : c.current with
  | none =>
    rw [current] at failed
    cases failed
  | some name =>
    cases entry : c.draftOf? name with
    | none =>
      simp only [current, entry] at failed
      exact absurd failed (spares_throw (by simp) c)
    | some draft =>
      cases unknown : draft.resultSlot with
      | some slot =>
        simp only [current, entry, unknown] at failed
        cases failed
      | none =>
        simp only [current, entry, unknown] at failed
        rcases bind_eq_error.mp failed with fails | ⟨slot, between, -, fails⟩
        · exact ⟨draft, (draft_of_current current).trans entry, unknown, allocate_error fails⟩
        · cases fails

theorem allocateParams_error {params : List Param} {fault : CompileError}
    (failed : allocateParams params c = .error fault) :
    ∃ given slots, c.slots.Hands given slots ∧ given.length < params.length ∧
      slots.allocate? = none := by
  induction params generalizing c with
  | nil => cases failed
  | cons param more ih =>
    rcases bind_eq_error.mp failed with fails | ⟨slot, between, allocated, rest⟩
    · exact ⟨[], c.slots, .nil _, by simp, allocate_error fails⟩
    · obtain ⟨slots, found, rfl⟩ := allocate_ok allocated
      rcases bind_eq_error.mp rest with fails | ⟨others, after, -, fails⟩
      · obtain ⟨given, slots', hands, fewer, empty⟩ := ih fails
        exact ⟨slot :: given, slots', .cons found hands, by simpa using fewer, empty⟩
      · cases fails

theorem startDraft_error {name : String} {params : List Param} {returns : Option Ty}
    (failed : startDraft name params returns c = .error .tooManySlots) :
    ∃ given slots, c.slots.Hands given slots ∧ given.length < params.length ∧
      slots.allocate? = none := by
  simp only [startDraft, get_bind] at failed
  by_cases inside : c.current.isSome || 0 < c.scope.depth
  · rw [if_pos inside] at failed
    exact absurd failed (spares_throw_bind (by simp) _ c)
  · rw [if_neg inside] at failed
    by_cases known : c.knows name
    · rw [if_pos known] at failed
      exact absurd failed (spares_throw_bind (by simp) _ c)
    · rw [if_neg known] at failed
      cases twice : duplicate? [] (params.map (·.name)) with
      | some double =>
        simp only [twice] at failed
        exact absurd failed (spares_throw_bind (by simp) _ c)
      | none =>
        simp only [twice] at failed
        rcases bind_eq_error.mp failed with fails | ⟨parameters, between, -, fails⟩
        · exact allocateParams_error fails
        · cases fails

theorem storeResult_error {type : Ty} {before : Fragment}
    (failed : (do
      let stored ← if type = .void then pure [] else do pure [Instruction.store (← resultSlot)]
      modify fun c => { c with prior := type }
      return before ++ stored : Compile Fragment) c = .error .tooManySlots) :
    ∃ draft, c.draft = some draft ∧ draft.resultSlot = none ∧ c.slots.allocate? = none := by
  by_cases void : type = .void
  · subst void
    cases failed
  · simp only [void, if_false, pure_bind] at failed
    rcases bind_eq_error.mp failed with fails | ⟨slot, between, -, fails⟩
    · exact resultSlot_error fails
    · cases fails

/-- A statement asks for a slot when its result is the first of its procedure. -/
theorem finishStatement_error {n : Node} {x : Compiled}
    (failed : finishStatement n x c = .error .tooManySlots) :
    ∃ draft, c.draft = some draft ∧ draft.resultSlot = none ∧ c.slots.allocate? = none := by
  unfold finishStatement at failed
  cases typed : x.type with
  | some type =>
    simp only [typed, pure_bind] at failed
    exact storeResult_error (by simpa using failed)
  | none =>
    cases n with
    | call name arguments =>
      by_cases drafting : c.drafting name
      · simp only [typed, get_bind, drafting, if_true] at failed
        rcases bind_eq_error.mp failed with fails | ⟨⟨⟩, between, -, fails⟩
        · exact absurd fails (spares_assumeReturn _ c)
        · -- There is no result to store.
          cases fails
      · simp only [typed, get_bind, drafting] at failed
        exact absurd failed (spares_throw_bind (by simp) _ c)
    | _ =>
      simp only [typed] at failed
      exact absurd failed (spares_throw_bind (by simp) _ c)

end Failures

/-- The task asks for a slot when there is none. -/
def Starves (task : Task) (c : Compiler) : Prop :=
  ∃ held e, Requests task c held e ∧ e.slots.allocate? = none

/-- A node that fails for want of slots asks for one when there is none. -/
def Exhausts (n : Node) : Prop :=
  ∀ ⦃want : Option Ty⦄ ⦃c : Compiler⦄, node n want c = .error .tooManySlots →
    Starves (.node n want) c

/-- Statements that fail for want of slots ask for one when there is none. -/
def AllExhaust (nodes : List Node) : Prop :=
  ∀ ⦃c : Compiler⦄, statements nodes c = .error .tooManySlots → Starves (.statements nodes) c

theorem Starves.part {task inner : Task} {c d : Compiler} {rest : Nat} (starves : Starves inner d)
    (part : Part task c rest inner d) : Starves task c := by
  obtain ⟨held, e, requests, empty⟩ := starves
  exact ⟨_, e, .part part requests, empty⟩

section Nodes

variable {c : Compiler}

theorem Exhausts.operand {n : Node} (inner : Exhausts n) {want : Ty} {role : Role}
    (failed : Compile.operand n want role (node n (some want)) c = .error .tooManySlots) :
    Starves (.operand n want role) c := by
  rcases bind_eq_error.mp failed with fails | ⟨compiled, between, -, rest⟩
  · exact (inner fails).part .operand
  · exact absurd rest (((spares_expect _ _ _ _).bind fun _ => spares_pure _) between)

theorem Exhausts.value {n : Node} (inner : Exhausts n) {expected : Option Ty} {role : Role}
    (failed : Compile.value n expected role (node n expected) c = .error .tooManySlots) :
    Starves (.value n expected role) c := by
  rcases bind_eq_error.mp failed with fails | ⟨compiled, between, -, rest⟩
  · exact (inner fails).part .value
  · cases expected with
    | some want =>
      exact absurd rest (((spares_expect _ _ _ _).bind fun _ =>
        (spares_requireValue _ _).bind fun _ => spares_pure _) between)
    | none => exact absurd rest (((spares_requireValue _ _).bind fun _ => spares_pure _) between)

theorem AllExhaust.block {nodes : List Node} (inner : AllExhaust nodes)
    (failed : Compile.block (statements nodes) c = .error .tooManySlots) :
    Starves (.block nodes) c := by
  simp only [Compile.block, get_bind, modify_bind, enterScope] at failed
  rcases bind_eq_error.mp failed with fails | ⟨parts, between, -, rest⟩
  · exact (inner fails).part .block
  · cases rest

theorem exhausts_unary (op : UnaryOp) {a : Node} (operand : Exhausts a) :
    Exhausts (.unary op a) := by
  intro want c failed
  rcases bind_eq_error.mp failed with fails | ⟨code, between, -, rest⟩
  · exact (operand.operand fails).part .unary
  · cases rest

/-- Two operands of one type, one after the other. -/
theorem Exhausts.both {a b : Node} (left : Exhausts a) (right : Exhausts b) {type : Ty}
    {role : Role} {task : Task} {made : Fragment → Fragment → Compiled}
    (before : Part task c 0 (.operand a type role) c)
    (behind : ∀ {x c₁}, Yields (.operand a type role) c x c₁ →
      ∃ rest, Part task c rest (.operand b type role) c₁)
    (failed : (do
      let first ← Compile.operand a type role (node a (some type))
      let second ← Compile.operand b type role (node b (some type))
      return made first second : Compile Compiled) c = .error .tooManySlots) : Starves task c := by
  rcases bind_eq_error.mp failed with fails | ⟨code, between, first, rest⟩
  · exact (left.operand fails).part before
  rcases bind_eq_error.mp rest with fails | ⟨code', after, -, last⟩
  · obtain ⟨offset, part⟩ := behind ((derived a).operand first)
    exact (right.operand fails).part part
  · cases last

theorem exhausts_arith (op : Arith) {a b : Node} (left : Exhausts a) (right : Exhausts b) :
    Exhausts (.binary (.arith op) a b) :=
  fun _ _ failed => left.both right .arithLeft (fun first => ⟨_, .arithRight first⟩) failed

theorem exhausts_order (op : Order) {a b : Node} (left : Exhausts a) (right : Exhausts b) :
    Exhausts (.binary (.order op) a b) :=
  fun _ _ failed => left.both right .orderLeft (fun first => ⟨_, .orderRight first⟩) failed

theorem exhausts_logic (op : Logic) {a b : Node} (left : Exhausts a) (right : Exhausts b) :
    Exhausts (.binary (.logic op) a b) :=
  fun _ _ failed => left.both right .logicLeft (fun first => ⟨_, .logicRight first⟩) failed

theorem Exhausts.sides {op : BinaryOp} {i : Instruction} {a b : Node} {want : Option Ty}
    (left : Exhausts a) (right : Exhausts b) (compares : op.comparison? = some i)
    (failed : Compile.sides op a b (node a none) (fun type => node b type) c =
      .error .tooManySlots) :
    Starves (.node (.binary op a b) want) c := by
  rcases bind_eq_error.mp failed with fails | ⟨⟨leftType, leftCode⟩, c₁, first, rest⟩
  · exact (left fails).part (.comparisonLeft compares)
  by_cases leftVoid : leftType = some .void
  · simp only [leftVoid, if_true] at rest
    exact absurd rest (spares_throw_bind (by simp) _ c₁)
  simp only [leftVoid, if_false] at rest
  rcases bind_eq_error.mp rest with fails | ⟨⟨rightType, rightCode⟩, c₂, -, more⟩
  · exact (right fails).part (.comparisonRight compares (derived a first))
  by_cases rightVoid : rightType = some .void
  · simp only [rightVoid, if_true] at more
    exact absurd more (spares_throw_bind (by simp) _ c₂)
  · simp only [rightVoid, if_false] at more
    exact absurd more (((spares_agree _ _ _ _ _).bind fun _ => spares_pure _) c₂)

theorem exhausts_comparison {op : BinaryOp} {i : Instruction} {a b : Node}
    (compares : op.comparison? = some i) (left : Exhausts a) (right : Exhausts b) :
    Exhausts (.binary op a b) := by
  intro want c failed
  cases op with
  | equal | notEqual =>
    rcases bind_eq_error.mp failed with fails | ⟨code, between, -, rest⟩
    · exact left.sides right compares fails
    · cases rest
  | _ => cases compares

theorem exhausts_result : Exhausts .result := by
  intro want c failed
  simp only [node, get_bind] at failed
  by_cases void : c.prior = .void
  · rw [if_pos void] at failed
    exact absurd failed (spares_throw_bind (by simp) _ c)
  · rw [if_neg void] at failed
    rcases bind_eq_error.mp failed with fails | ⟨slot, between, -, rest⟩
    · obtain ⟨draft, inside, unknown, empty⟩ := resultSlot_error fails
      exact ⟨[], c, .ownResult inside unknown, empty⟩
    · cases rest

theorem exhausts_assign (name : String) {a : Node} (value : Exhausts a) :
    Exhausts (.assign name a) := by
  intro want c failed
  simp only [node, get_bind] at failed
  cases isParam : c.param? name with
  | some place =>
    obtain ⟨position, param⟩ := place
    simp only [paramIndex?_of_param isParam] at failed
    rw [bind_of_ok (paramAt_of_param isParam)] at failed
    rcases bind_eq_error.mp failed with fails | ⟨⟨found, code⟩, between, -, rest⟩
    · exact (value.value fails).part (.assignParam isParam)
    · split at rest
      · exact absurd rest (((spares_resolveParam _ _).bind fun _ => spares_pure _) between)
      · cases rest
  | none =>
    cases isVariable : c.scope.find? name with
    | none =>
      simp only [paramIndex?_eq_none.mpr isParam, isVariable] at failed
      exact absurd failed (spares_throw (by simp) c)
    | some target =>
      simp only [paramIndex?_eq_none.mpr isParam, isVariable] at failed
      rcases bind_eq_error.mp failed with fails | ⟨⟨found, code⟩, between, -, rest⟩
      · exact (value.value fails).part (.assignVariable isParam isVariable)
      · cases rest

theorem exhausts_branch {test : Node} {body : List Node} {other : Option (List Node)}
    (condition : Exhausts test) (inner : AllExhaust body)
    (otherwise : ∀ nodes, other = some nodes → AllExhaust nodes) :
    Exhausts (.branch test body other) := by
  intro want c failed
  rw [node] at failed
  rcases bind_eq_error.mp failed with fails | ⟨testCode, c₁, first, rest⟩
  · exact (condition.operand fails).part .branchTest
  have tested := (derived test).operand first
  rcases bind_eq_error.mp rest with fails | ⟨bodyCode, c₂, second, more⟩
  · exact (inner.block fails).part (.branchBody tested)
  cases other with
  | none => cases more
  | some nodes =>
    rcases bind_eq_error.mp more with fails | ⟨otherCode, c₃, -, last⟩
    · exact ((otherwise nodes rfl).block fails).part
        (.branchOther tested ((statements_yields fun n _ => derived n).block second))
    · cases last

theorem exhausts_loop {test : Node} {body : List Node} (condition : Exhausts test)
    (inner : AllExhaust body) : Exhausts (.loop test body) := by
  intro want c failed
  rcases bind_eq_error.mp failed with fails | ⟨testCode, c₁, first, rest⟩
  · exact (condition.operand fails).part .loopTest
  rcases bind_eq_error.mp rest with fails | ⟨bodyCode, c₂, -, last⟩
  · exact (inner.block fails).part (.loopBody ((derived test).operand first))
  · cases last

theorem exhausts_times {count : Node} {body : List Node} (amount : Exhausts count)
    (inner : AllExhaust body) : Exhausts (.times count body) := by
  intro want c failed
  simp only [node, enterScope, modify_bind] at failed
  rcases bind_eq_error.mp failed with fails | ⟨countCode, c₁, first, rest⟩
  · exact (amount.operand fails).part .timesCount
  have counted := (derived count).operand first
  rcases bind_eq_error.mp rest with fails | ⟨threshold, c₂, second, rest₁⟩
  · exact ⟨[], c₁, .threshold counted, allocateScratch_error fails⟩
  rcases bind_eq_error.mp rest₁ with fails | ⟨counter, c₃, third, rest₂⟩
  · exact ⟨[], c₂, .counter counted second, allocateScratch_error fails⟩
  rcases bind_eq_error.mp rest₂ with fails | ⟨bodyCode, c₄, -, last⟩
  · exact (inner.block fails).part (.timesBody counted second third)
  · cases last

theorem exhausts_define (name : String) (params : List Param) (returns : Option Ty)
    {body : List Node} (inner : AllExhaust body) : Exhausts (.define name params returns body) := by
  intro want c failed
  rcases bind_eq_error.mp failed with fails | ⟨⟨⟩, c₁, started, rest⟩
  · obtain ⟨given, slots, hands, fewer, empty⟩ := startDraft_error fails
    exact ⟨given, _, .parameter hands fewer, empty⟩
  rcases bind_eq_error.mp rest with fails | ⟨code, c₂, -, last⟩
  · obtain ⟨held, e, requests, empty⟩ := inner.block fails
    exact ⟨held, e, .body started requests, empty⟩
  · exact absurd last (((spares_finishDraft _ _ _).bind fun _ => spares_pure _) c₂)

theorem exhausts_convert {a : Node} (target : Ty) (value : Exhausts a) :
    Exhausts (.convert a target) := by
  intro want c failed
  rcases bind_eq_error.mp failed with fails | ⟨⟨found, code⟩, c₁, -, rest⟩
  · exact (value fails).part .convert
  rcases bind_eq_error.mp rest with fails | ⟨source, c₂, -, last⟩
  · exact absurd fails (spares_requireValue _ _ c₁)
  · split at last
    · exact absurd last (spares_throw_bind (by simp) _ c₂)
    · cases last

theorem exhausts_item {index list : Node} (place : Exhausts index) (items : Exhausts list) :
    Exhausts (.item index list) := by
  intro want c failed
  rcases bind_eq_error.mp failed with fails | ⟨listCode, c₁, first, rest⟩
  · exact (items.operand fails).part .itemList
  rcases bind_eq_error.mp rest with fails | ⟨indexCode, c₂, -, last⟩
  · exact (place.operand fails).part (.itemIndex ((derived list).operand first))
  · split at last
    · exact absurd last (spares_throw_bind (by simp) _ c₂)
    · exact absurd last (spares_throw_bind (by simp) _ c₂)
    · cases last

theorem exhausts_setItem {index list a : Node} (place : Exhausts index) (items : Exhausts list)
    (value : Exhausts a) : Exhausts (.setItem index list a) := by
  intro want c failed
  cases list with
  | var name =>
    rcases bind_eq_error.mp failed with fails | ⟨listCode, c₁, first, rest⟩
    · exact (items.operand fails).part .setItemList
    have found := (derived (.var name)).operand first
    rcases bind_eq_error.mp rest with fails | ⟨slot, between, located, more⟩
    · exact absurd fails (spares_slotOf name c₁)
    obtain ⟨-, rfl⟩ := slotOf_ok located
    rcases bind_eq_error.mp more with fails | ⟨indexCode, c₂, second, rest₁⟩
    · exact (place.operand fails).part (.setItemIndex found)
    rcases bind_eq_error.mp rest₁ with fails | ⟨⟨type, valueCode⟩, c₃, -, last⟩
    · exact (value.value fails).part (.setItemValue found ((derived index).operand second))
    · cases last
  | _ => exact absurd failed (spares_throw (by simp) c)

theorem exhausts_declare {name : String} {type : Option Ty} {start : Option Node}
    (initial : ∀ {c}, Compile.initial name type start c = .error .tooManySlots →
      Starves (.initial name type start) c) : Exhausts (.declare name type start) := by
  intro want c failed
  simp only [node, get_bind] at failed
  by_cases visible : c.isVisible name
  · rw [if_pos visible] at failed
    exact absurd failed (spares_throw_bind (by simp) _ c)
  rw [if_neg visible] at failed
  rcases bind_eq_error.mp failed with fails | ⟨slot, between, allocated, rest⟩
  · exact ⟨[], c, .declaration, allocate_error fails⟩
  rcases bind_eq_error.mp rest with fails | ⟨⟨found, code⟩, after, -, last⟩
  · exact (initial fails).part (.declare allocated)
  · cases last

theorem exhausts_call {name : String} {args : List Node}
    (given : ∀ {callee c}, arguments callee 0 args c = .error .tooManySlots →
      Starves (.arguments callee 0 args) c) : Exhausts (.call name args) := by
  intro want c failed
  rcases bind_eq_error.mp failed with fails | ⟨callee, between, found, rest⟩
  · exact absurd fails (spares_find name c)
  obtain ⟨-, rfl⟩ := find_ok found
  split at rest
  · exact absurd rest (spares_throw_bind (by simp) _ between)
  · rcases bind_eq_error.mp rest with fails | ⟨parts, after, -, last⟩
    · exact (given fails).part (.call found)
    · exact absurd last (spares_finishCall _ _ _ after)

theorem exhausts_giveBack {value : Option Node}
    (given : ∀ {draft c}, givenBack draft value c = .error .tooManySlots →
      Starves (.givenBack draft value) c) : Exhausts (.giveBack value) := by
  intro want c failed
  simp only [node, get_bind] at failed
  cases inside : c.draft with
  | none =>
    simp only [inside] at failed
    exact absurd failed (spares_throw (by simp) c)
  | some draft =>
    simp only [inside] at failed
    rcases bind_eq_error.mp failed with fails | ⟨⟨found, code⟩, c₁, -, rest⟩
    · exact (given fails).part (.giveBack inside)
    · exact absurd rest (((spares_noteReturn _ _).bind fun _ => spares_pure _) c₁)

theorem exhausts_list {nodes : List Node}
    (each : ∀ {c}, items 0 nodes c = .error .tooManySlots → Starves (.items 0 nodes) c) :
    Exhausts (.list nodes) := by
  intro want c failed
  simp only [node] at failed
  cases all : Node.literals? nodes with
  | some values =>
    simp only [all] at failed
    exact absurd failed (((spares_emit _).bind fun _ => spares_pure _) c)
  | none =>
    cases short : EncodeFault.checkLength .list nodes.length with
    | error fault =>
      simp only [all, short] at failed
      refine absurd failed (spares_throw_bind ?_ _ c)
      cases fault <;> simp [CompileError.ofEncodeFault]
    | ok passed =>
      simp only [all, short] at failed
      rcases bind_eq_error.mp failed with fails | ⟨parts, between, -, rest⟩
      · exact (each fails).part (.list all)
      · cases rest

theorem initial_starves {name : String} {type : Option Ty} {start : Option Node}
    (inner : ∀ n, start = some n → Exhausts n)
    (failed : initial name type start c = .error .tooManySlots) :
    Starves (.initial name type start) c := by
  cases start with
  | some start => exact ((inner start rfl).value failed).part .initial
  | none =>
    cases type with
    | none => exact absurd failed (spares_throw (by simp) c)
    | some type =>
      cases default : Value.initial? type with
      | none =>
        simp only [initial, default] at failed
        exact absurd failed (spares_throw (by simp) c)
      | some start =>
        simp only [initial, default] at failed
        exact absurd failed (((spares_emit _).bind fun _ => spares_pure _) c)

theorem givenBack_starves {draft : Draft} {value : Option Node}
    (inner : ∀ n, value = some n → Exhausts n)
    (failed : givenBack draft value c = .error .tooManySlots) :
    Starves (.givenBack draft value) c := by
  cases value with
  | none => cases failed
  | some expr =>
    by_cases declared : draft.declared
    · simp only [givenBack, declared, if_true] at failed
      exact ((inner expr rfl).value failed).part (.giveDeclared declared)
    · simp only [givenBack, declared, Bool.false_eq_true, if_false] at failed
      rcases bind_eq_error.mp failed with fails | ⟨compiled, c₁, -, rest⟩
      · exact (inner expr rfl fails).part (.giveFound (by simpa using declared))
      · exact absurd rest (((spares_requireValue _ _).bind fun _ => spares_pure _) c₁)

theorem arguments_starve {callee : Callee} {nodes : List Node} (inner : ∀ n ∈ nodes, Exhausts n)
    {position : Nat} {c : Compiler}
    (failed : arguments callee position nodes c = .error .tooManySlots) :
    Starves (.arguments callee position nodes) c := by
  induction nodes generalizing position c with
  | nil => cases failed
  | cons a more ih =>
    rcases bind_eq_error.mp failed with fails | ⟨expected, between, wanted, rest⟩
    · exact absurd fails (spares_expected callee position c)
    obtain rfl := expected_ok wanted
    rcases bind_eq_error.mp rest with fails | ⟨⟨found, code⟩, c₁, compiled, rest₁⟩
    · exact ((inner a List.mem_cons_self).value fails).part (.firstArgument wanted)
    have first := (derived a).value compiled
    have tail {c₂ : Compiler}
        (fails : arguments callee (position + 1) more c₂ = .error .tooManySlots) :
        Starves (.arguments callee (position + 1) more) c₂ :=
      ih (fun n member => inner n (List.mem_cons_of_mem a member)) fails
    by_cases isOpen : expected.isNone
    · simp only [isOpen, if_true] at rest₁
      rcases bind_eq_error.mp rest₁ with fails | ⟨⟨⟩, c₂, resolved, rest₂⟩
      · exact absurd fails (spares_resolveParam _ _ c₁)
      rcases bind_eq_error.mp rest₂ with fails | ⟨others, c₃, -, last⟩
      · exact (tail fails).part
          (.moreArguments wanted first rfl (by rw [if_pos isOpen]; exact resolved))
      · cases last
    · simp only [isOpen, Bool.false_eq_true, if_false] at rest₁
      rcases bind_eq_error.mp rest₁ with fails | ⟨others, c₃, -, last⟩
      · exact (tail fails).part (.moreArguments wanted first rfl (by rw [if_neg isOpen]; rfl))
      · cases last

theorem items_starve {nodes : List Node} (inner : ∀ n ∈ nodes, Exhausts n) {position : Nat}
    {c : Compiler} (failed : items position nodes c = .error .tooManySlots) :
    Starves (.items position nodes) c := by
  induction nodes generalizing position c with
  | nil => cases failed
  | cons a more ih =>
    rcases bind_eq_error.mp failed with fails | ⟨⟨found, code⟩, c₁, compiled, rest⟩
    · exact ((inner a List.mem_cons_self).value fails).part .firstItem
    rcases bind_eq_error.mp rest with fails | ⟨others, c₂, -, last⟩
    · exact (ih (fun n member => inner n (List.mem_cons_of_mem a member)) fails).part
        (.moreItems ((derived a).value compiled))
    · cases last

theorem statements_starve {nodes : List Node} (inner : ∀ n ∈ nodes, Exhausts n) :
    AllExhaust nodes := by
  induction nodes with
  | nil =>
    intro c failed
    cases failed
  | cons n more ih =>
    intro c failed
    rcases bind_eq_error.mp failed with fails | ⟨compiled, c₁, first, rest⟩
    · exact (inner n List.mem_cons_self fails).part .firstStatement
    rcases bind_eq_error.mp rest with fails | ⟨code, c₂, finished, rest₁⟩
    · obtain ⟨draft, inside, unknown, empty⟩ := finishStatement_error fails
      exact ⟨[], c₁, .ownStatement (derived n first) inside unknown, empty⟩
    rcases bind_eq_error.mp rest₁ with fails | ⟨others, c₃, -, last⟩
    · exact (ih (fun other member => inner other (List.mem_cons_of_mem n member)) fails).part
        (.moreStatements (derived n first) finished)
    · cases last

end Nodes

/-- Every node that fails for want of slots asks for one when there is none. -/
theorem exhausts (n : Node) : Exhausts n := by
  match n with
  | .literal value =>
    exact fun _ c failed => absurd failed (((spares_emit _).bind fun _ => spares_pure _) c)
  | .unary op a => exact exhausts_unary op (exhausts a)
  | .binary (.arith op) a b => exact exhausts_arith op (exhausts a) (exhausts b)
  | .binary (.order op) a b => exact exhausts_order op (exhausts a) (exhausts b)
  | .binary (.logic op) a b => exact exhausts_logic op (exhausts a) (exhausts b)
  | .binary .equal a b => exact exhausts_comparison rfl (exhausts a) (exhausts b)
  | .binary .notEqual a b => exact exhausts_comparison rfl (exhausts a) (exhausts b)
  | .result => exact exhausts_result
  | .var name => exact fun want c failed => absurd failed (spares_reference name want c)
  | .declare name type start => exact exhausts_declare (initial_starves fun n _ => exhausts n)
  | .assign name a => exact exhausts_assign name (exhausts a)
  | .branch test body none =>
    have inner : ∀ n ∈ body, Exhausts n := fun n member => by
      have smaller := List.sizeOf_lt_of_mem member
      exact exhausts n
    exact exhausts_branch (exhausts test) (statements_starve inner) nofun
  | .branch test body (some other) =>
    have otherwise := statements_starve fun n (_ : n ∈ other) => exhausts n
    exact exhausts_branch (exhausts test) (statements_starve fun n _ => exhausts n)
      fun nodes same => Option.some.inj same ▸ otherwise
  | .loop test body => exact exhausts_loop (exhausts test) (statements_starve fun n _ => exhausts n)
  | .times count body =>
    exact exhausts_times (exhausts count) (statements_starve fun n _ => exhausts n)
  | .call name args => exact exhausts_call (arguments_starve fun n _ => exhausts n)
  | .define name params returns body =>
    exact exhausts_define name params returns (statements_starve fun n _ => exhausts n)
  | .convert a target => exact exhausts_convert target (exhausts a)
  | .giveBack value => exact exhausts_giveBack (givenBack_starves fun n _ => exhausts n)
  | .list nodes => exact exhausts_list (items_starve fun n _ => exhausts n)
  | .item index list => exact exhausts_item (exhausts index) (exhausts list)
  | .setItem index list a => exact exhausts_setItem (exhausts index) (exhausts list) (exhausts a)
termination_by sizeOf n

end Compile

/-- A unit that fails for want of slots asks for one when there is none. -/
theorem Compiler.compile_starves {c : Compiler} {program : Program}
    (failed : c.compile program = .error .tooManySlots) :
    Compile.Starves (.statements program) c := by
  unfold Compiler.compile at failed
  cases compiled : (Compile.statements program).run c with
  | error fault =>
    rw [compiled] at failed
    cases failed
    exact statements_starve (fun n _ => exhausts n) compiled
  | ok found =>
    rw [compiled] at failed
    cases failed

end Primer
