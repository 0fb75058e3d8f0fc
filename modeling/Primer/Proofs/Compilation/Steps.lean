import Primer.Compiler.Basic

/-!
What the steps of a compilation do when they succeed: for each step, the facts that its success
rests on and the state that it leaves.
-/

set_option autoImplicit false
set_option relaxedAutoImplicit false

namespace Primer

namespace Draft

/-- The parameter of a name and its position. -/
def find? (draft : Draft) (name : String) : Option (Nat × Parameter (Option Ty)) :=
  (draft.index? name).bind fun position => draft.params[position]?.map (position, ·)

theorem find?_eq_some {draft : Draft} {name : String} {position : Nat}
    {param : Parameter (Option Ty)} : draft.find? name = some (position, param) ↔
      draft.index? name = some position ∧ draft.params[position]? = some param := by
  constructor
  · intro found
    obtain ⟨place, index, found⟩ := Option.bind_eq_some_iff.mp found
    obtain ⟨there, at_place, same⟩ := Option.map_eq_some_iff.mp found
    cases same
    exact ⟨index, at_place⟩
  · rintro ⟨index, at_place⟩
    rw [find?, index, Option.bind_some, at_place]
    rfl

/-- The position of a parameter is one that the procedure has. -/
theorem getElem?_of_index? {draft : Draft} {name : String} {position : Nat}
    (index : draft.index? name = some position) :
    ∃ param, draft.params[position]? = some param := by
  obtain ⟨inside, -⟩ := List.findIdx?_eq_some_iff_getElem.mp index
  exact ⟨_, List.getElem?_eq_getElem inside⟩

theorem find?_eq_none {draft : Draft} {name : String} :
    draft.find? name = none ↔ draft.index? name = none := by
  cases index : draft.index? name with
  | none => simp [find?, index]
  | some position =>
    obtain ⟨param, there⟩ := getElem?_of_index? index
    simp [find?_eq_some.mpr ⟨index, there⟩]

/-- The search goes by the names alone. -/
theorem index?_congr {draft other : Draft}
    (same : other.params.map (·.name) = draft.params.map (·.name)) (name : String) :
    other.index? name = draft.index? name := by
  have by_names : ∀ d : Draft, d.index? name = (d.params.map (·.name)).findIdx? (· = name) := by
    intro d
    rw [List.findIdx?_map]
    rfl
  rw [by_names, by_names, same]

end Draft

namespace Compiler

variable {c : Compiler}

theorem draft_eq_some {draft : Draft} :
    c.draft = some draft ↔ c.current = some draft.name ∧ c.pending = some draft := by
  simp only [Compiler.draft, draftOf?, Option.bind_eq_some_iff, Option.filter_eq_some_iff,
    decide_eq_true_eq]
  constructor
  · rintro ⟨name, current, pending, rfl⟩
    exact ⟨current, pending⟩
  · rintro ⟨current, pending⟩
    exact ⟨draft.name, current, pending, rfl⟩

@[simp] theorem draft_mk (hosts : List (String × Signature)) (procedures : List Procedure)
    (library : Fragment) (scope : Scope) (slots : SlotPool) (prior : Ty) :
    (Compiler.mk hosts procedures library scope slots c.current c.pending prior).draft =
      c.draft := rfl

@[simp] theorem draft_mk_none (hosts : List (String × Signature)) (procedures : List Procedure)
    (library : Fragment) (scope : Scope) (slots : SlotPool) (pending : Option Draft) (prior : Ty) :
    (Compiler.mk hosts procedures library scope slots none pending prior).draft = none := rfl

@[simp] theorem draft_mk_some (hosts : List (String × Signature)) (procedures : List Procedure)
    (library : Fragment) (scope : Scope) (slots : SlotPool) {name : String} {draft : Draft}
    (prior : Ty) (same : draft.name = name) :
    (Compiler.mk hosts procedures library scope slots (some name) (some draft) prior).draft =
      some draft :=
  draft_eq_some.mpr ⟨congrArg some same.symm, rfl⟩

theorem draft_of_current {name : String} (current : c.current = some name) :
    c.draft = c.draftOf? name := by
  rw [Compiler.draft, current]
  rfl

theorem draft_outside (outside : c.current = none) : c.draft = none := by
  rw [Compiler.draft, outside]
  rfl

theorem redraft_outside {f : Draft → Draft} (outside : c.draft = none) : c.redraft f = c := by
  simp only [redraft, outside]

theorem redraft_inside {f : Draft → Draft} {draft : Draft} (inside : c.draft = some draft) :
    c.redraft f = { c with pending := some (f draft) } := by
  simp only [redraft, inside]

/-- A procedure that keeps its name stays the one being compiled. -/
theorem draft_pending {c' : Compiler} {draft changed : Draft} (inside : c.draft = some draft)
    (current : c'.current = c.current) (pending : c'.pending = some changed)
    (same : changed.name = draft.name) : c'.draft = some changed := by
  apply draft_eq_some.mpr
  exact ⟨by rw [current, same]; exact (draft_eq_some.mp inside).1, pending⟩

theorem draft_resultSlot {draft : Draft} (inside : c.draft = some draft) (slots : SlotPool)
    (slot : UInt8) :
    { c with slots, pending := some { draft with resultSlot := some slot } }.draft =
      some { draft with resultSlot := some slot } :=
  draft_pending inside rfl rfl rfl

theorem draft_redraft {f : Draft → Draft} (same : ∀ draft, (f draft).name = draft.name) :
    (c.redraft f).draft = c.draft.map f := by
  cases inside : c.draft with
  | none => rw [redraft_outside inside, inside, Option.map_none]
  | some draft =>
    rw [redraft_inside inside]
    exact draft_pending inside rfl rfl (same draft)

/-- The parameter of a name, with its position. -/
def param? (c : Compiler) (name : String) : Option (Nat × Parameter (Option Ty)) :=
  c.draft.bind (·.find? name)

theorem paramIndex?_of_param {name : String} {position : Nat} {param : Parameter (Option Ty)}
    (isParam : c.param? name = some (position, param)) : c.paramIndex? name = some position := by
  obtain ⟨draft, inside, found⟩ := Option.bind_eq_some_iff.mp isParam
  rw [paramIndex?, inside]
  exact (Draft.find?_eq_some.mp found).1

theorem paramIndex?_eq_none {name : String} :
    c.paramIndex? name = none ↔ c.param? name = none := by
  cases inside : c.draft with
  | none => simp [paramIndex?, param?, inside]
  | some draft => simp [paramIndex?, param?, inside, Draft.find?_eq_none]

end Compiler

/-- Two drafts of one procedure differ only in the types that are found. What was declared to be
given back stays. -/
structure Draft.Retyped (before after : Draft) : Prop where
  name : after.name = before.name
  address : after.address = before.address
  params : after.params.map (fun p => (p.name, p.slot)) =
    before.params.map (fun p => (p.name, p.slot))
  declared : after.declared = before.declared
  resultSlot : after.resultSlot = before.resultSlot
  returns : before.declared → ∀ type, before.returns = some type → after.returns = some type

theorem Draft.resolve_retyped (draft : Draft) (position : Nat) (type : Ty) :
    draft.Retyped (draft.resolve position type) := by
  refine ⟨rfl, rfl, ?_, rfl, rfl, fun _ _ => id⟩
  unfold Draft.resolve
  apply List.ext_getElem?
  intro i
  simp only [List.getElem?_map, List.getElem?_modify]
  cases draft.params[i]? with
  | none => rfl
  | some param =>
    by_cases here : position = i <;> simp [here]

/-- Only types that were found in the draft changed. -/
def Compiler.Retyped (before after : Compiler) : Prop :=
  after = before ∨ ∃ draft changed, before.draft = some draft ∧ draft.Retyped changed ∧
    after = { before with pending := some changed }

namespace Compiler.Retyped

theorem refl (c : Compiler) : c.Retyped c := .inl rfl

theorem of_modify {c : Compiler} {f : Draft → Draft}
    (same : ∀ draft, c.draft = some draft → draft.Retyped (f draft)) :
    c.Retyped (c.redraft f) := by
  cases inside : c.draft with
  | none => exact .inl (redraft_outside inside)
  | some draft => exact .inr ⟨draft, f draft, inside, same draft inside, redraft_inside inside⟩

/-- Without a draft nothing changes. -/
theorem eq_of_outside {before after : Compiler} (retyped : before.Retyped after)
    (outside : before.draft = none) : after = before := by
  rcases retyped with same | ⟨draft, changed, inside, -, -⟩
  · exact same
  · rw [outside] at inside; cases inside

end Compiler.Retyped

namespace Compiler

/-- The state at the start of a block. -/
def entered (c : Compiler) : Compiler := { c with prior := .void, scope := c.scope.enter }

/-- The state after the innermost scope is left. -/
def left (c : Compiler) : Compiler :=
  { c with
    scope := c.scope.leave.2
    slots := c.scope.leave.1.foldl SlotPool.release c.slots }

/-- The code that frees the slots of the innermost scope. -/
def frees (c : Compiler) : Fragment := c.scope.leave.1.map Instruction.free

/-- The slot of the parameter or variable of a name. -/
def slot? (c : Compiler) (name : String) : Option UInt8 :=
  match c.param? name, c.scope.find? name with
  | some (_, param), _ => some param.slot
  | none, some found => some found.slot
  | none, none => none

end Compiler

/-- A pool hands out slots, one after another. -/
inductive SlotPool.Hands : SlotPool → List UInt8 → SlotPool → Prop
  | nil (pool : SlotPool) : pool.Hands [] pool
  | cons {pool between after : SlotPool} {slot : UInt8} {more : List UInt8}
      (first : pool.allocate? = some (slot, between)) (rest : between.Hands more after) :
      pool.Hands (slot :: more) after

/-- What is known of a procedure that a name was found to call. -/
def Callee.Found (c : Compiler) (name : String) : Callee → Prop
  | .drafted draft => c.draft = some draft ∧ draft.name = name
  | .defined procedure => c.draft.filter (·.name = name) = none ∧ c.procedure? name = some procedure
  | .host other signature => other = name ∧ c.draft.filter (·.name = name) = none ∧
    c.procedure? name = none ∧ c.hosts.lookup name = some signature

/-- The instruction that calls a procedure. -/
def Callee.instruction : Callee → Instruction
  | .drafted draft => .call draft.address
  | .defined procedure => .call procedure.address
  | .host name _ => .callHost name

namespace Compile

open Compiler

variable {α β : Type} {c c' : Compiler}

theorem bind_eq_ok {first : Compile α} {next : α → Compile β} {result : β × Compiler} :
    (first >>= next) c = .ok result ↔
      ∃ a between, first c = .ok (a, between) ∧ next a between = .ok result := by
  show StateT.bind first next c = _ ↔ _
  unfold StateT.bind
  cases done : first c with
  | error fault =>
    constructor
    · intro impossible; cases impossible
    · rintro ⟨a, between, other, -⟩; cases other
  | ok found =>
    obtain ⟨a, between⟩ := found
    constructor
    · intro rest; exact ⟨a, between, rfl, rest⟩
    · rintro ⟨b, other, same, rest⟩
      cases same
      exact rest

theorem bind_of_ok {first : Compile α} {next : α → Compile β} {between : Compiler} {a : α}
    (done : first c = .ok (a, between)) : (first >>= next) c = next a between := by
  show StateT.bind first next c = _
  unfold StateT.bind
  rw [done]
  rfl

theorem bind_eq_error {first : Compile α} {next : α → Compile β} {fault : CompileError} :
    (first >>= next) c = .error fault ↔
      first c = .error fault ∨ ∃ a between, first c = .ok (a, between) ∧
      next a between = .error fault := by
  show StateT.bind first next c = _ ↔ _
  unfold StateT.bind
  cases done : first c with
  | error other =>
    constructor
    · intro same
      cases same
      exact .inl rfl
    · rintro (same | ⟨a, between, impossible, -⟩)
      · cases same
        rfl
      · cases impossible
  | ok found =>
    obtain ⟨a, between⟩ := found
    constructor
    · intro rest
      exact .inr ⟨a, between, rfl, rest⟩
    · rintro (impossible | ⟨b, other, same, rest⟩)
      · cases impossible
      · cases same
        exact rest

@[simp] theorem pure_eq_ok {a : α} {result : α × Compiler} :
    (pure a : Compile α) c = .ok result ↔ result = (a, c) := by
  show Except.ok (a, c) = _ ↔ _
  simp [eq_comm]

@[simp] theorem throw_eq_ok {fault : CompileError} {result : α × Compiler} :
    (throw fault : Compile α) c = .ok result ↔ False := by
  constructor
  · intro impossible; cases impossible
  · exact False.elim

@[simp] theorem get_bind (next : Compiler → Compile β) :
    ((get : Compile Compiler) >>= next) c = next c c := rfl

@[simp] theorem set_bind (after : Compiler) (next : PUnit → Compile β) :
    ((set after : Compile PUnit) >>= next) c = next ⟨⟩ after := rfl

@[simp] theorem modify_bind (f : Compiler → Compiler) (next : PUnit → Compile β) :
    ((modify f : Compile PUnit) >>= next) c = next ⟨⟩ (f c) := rfl

@[simp] theorem throw_bind (fault : CompileError) (next : α → Compile β) :
    ((throw fault : Compile α) >>= next) c = (throw fault : Compile β) c := rfl

@[simp] theorem set_eq_ok {after : Compiler} {result : PUnit × Compiler} :
    (set after : Compile PUnit) c = .ok result ↔ result = (⟨⟩, after) := by
  show Except.ok (PUnit.unit, after) = _ ↔ _
  simp [eq_comm]

@[simp] theorem modify_eq_ok {f : Compiler → Compiler} {result : PUnit × Compiler} :
    (modify f : Compile PUnit) c = .ok result ↔ result = (⟨⟩, f c) := by
  show Except.ok (PUnit.unit, f c) = _ ↔ _
  simp [eq_comm]

/-- The lookup of a parameter by the position that its name has succeeds. -/
theorem paramAt_of_param {name : String} {position : Nat} {param : Parameter (Option Ty)}
    (isParam : c.param? name = some (position, param)) : paramAt position c = .ok (param, c) := by
  obtain ⟨draft, inside, found⟩ := Option.bind_eq_some_iff.mp isParam
  simp only [paramAt, get_bind, inside, Option.bind_some, (Draft.find?_eq_some.mp found).2]
  rfl

theorem paramAt_ok {position : Nat} {param : Parameter (Option Ty)}
    (done : paramAt position c = .ok (param, c')) : c' = c := by
  simp only [paramAt, get_bind] at done
  cases found : c.draft.bind (·.params[position]?) with
  | none => simp [found] at done
  | some param =>
    simp only [found, pure_eq_ok, Prod.mk.injEq] at done
    exact done.2

/-- The slot of a name is that of its parameter, or else of its variable. -/
theorem slotOf_eq (name : String) :
    slotOf name c = (c.slot? name).elim (.error (.unknownVariable name)) (.ok ⟨·, c⟩) := by
  simp only [slotOf, get_bind]
  cases isParam : c.param? name with
  | some place =>
    obtain ⟨position, param⟩ := place
    simp only [paramIndex?_of_param isParam, slot?, isParam]
    exact bind_of_ok (paramAt_of_param isParam)
  | none =>
    cases isVariable : c.scope.find? name with
    | some found =>
      simp only [paramIndex?_eq_none.mpr isParam, isVariable, slot?, isParam]
      rfl
    | none =>
      simp only [paramIndex?_eq_none.mpr isParam, isVariable, slot?, isParam]
      rfl

theorem slotOf_of_slot {name : String} {slot : UInt8} (found : c.slot? name = some slot) :
    slotOf name c = .ok (slot, c) := by
  rw [slotOf_eq, found]
  rfl

theorem slotOf_ok {name : String} {slot : UInt8} (done : slotOf name c = .ok (slot, c')) :
    c.slot? name = some slot ∧ c' = c := by
  rw [slotOf_eq] at done
  cases found : c.slot? name with
  | none => simp [found] at done
  | some given =>
    rw [found] at done
    cases done
    exact ⟨rfl, rfl⟩

theorem emit_ok {i : Instruction} {code : Fragment} (done : emit i c = .ok (code, c')) :
    i.check = .ok () ∧ code = [i] ∧ c' = c := by
  unfold emit at done
  cases passes : i.check with
  | error fault => simp [passes] at done
  | ok passed => simpa [passes] using done

theorem allocate_ok {slot : UInt8} (done : allocate c = .ok (slot, c')) :
    ∃ slots, c.slots.allocate? = some (slot, slots) ∧ c' = { c with slots } := by
  simp only [allocate, get_bind] at done
  cases some : c.slots.allocate? with
  | none => simp [some] at done
  | some found =>
    obtain ⟨given, slots⟩ := found
    simp only [some, set_bind, pure_eq_ok, Prod.mk.injEq] at done
    exact ⟨slots, by rw [done.1], done.2⟩

theorem allocateScratch_ok {slot : UInt8} (done : allocateScratch c = .ok (slot, c')) :
    ∃ slots, c.slots.allocate? = some (slot, slots) ∧
      c' = { c with slots, scope := c.scope.addScratch slot } := by
  obtain ⟨given, between, allocated, rest⟩ := bind_eq_ok.mp done
  obtain ⟨slots, some, rfl⟩ := allocate_ok allocated
  simp only [modify_bind, pure_eq_ok, Prod.mk.injEq] at rest
  obtain ⟨rfl, rfl⟩ := rest
  exact ⟨slots, some, rfl⟩

/-- The result slot is slot 0 outside procedures; a procedure has one of its own, which is
allocated when it is first needed. -/
theorem resultSlot_ok {slot : UInt8} (done : resultSlot c = .ok (slot, c')) :
    (c.draft = none ∧ slot = Primer.resultSlot ∧ c' = c) ∨
    (∃ draft, c.draft = some draft ∧ draft.resultSlot = some slot ∧ c' = c) ∨
    (∃ draft slots, c.draft = some draft ∧ draft.resultSlot = none ∧
      c.slots.allocate? = some (slot, slots) ∧
      c' = { c with slots, pending := some { draft with resultSlot := some slot } }) := by
  simp only [resultSlot, get_bind] at done
  cases current : c.current with
  | none =>
    simp only [current, pure_eq_ok, Prod.mk.injEq] at done
    exact .inl ⟨draft_outside current, done⟩
  | some name =>
    have here := draft_of_current current
    cases entry : c.draftOf? name with
    | none => simp [current, entry] at done
    | some draft =>
      rw [entry] at here
      cases known : draft.resultSlot with
      | some given =>
        simp only [current, entry, known, pure_eq_ok, Prod.mk.injEq] at done
        exact .inr (.inl ⟨draft, here, by rw [known, done.1], done.2⟩)
      | none =>
        simp only [current, entry, known] at done
        obtain ⟨given, between, allocated, rest⟩ := bind_eq_ok.mp done
        obtain ⟨slots, some, rfl⟩ := allocate_ok allocated
        simp only [modifyDraft, modify_bind, pure_eq_ok, Prod.mk.injEq] at rest
        obtain ⟨rfl, rfl⟩ := rest
        refine .inr (.inr ⟨draft, slots, here, known, some, ?_⟩)
        rw [← current]
        exact redraft_inside (c := { c with slots }) here

theorem leaveScope_eq (c : Compiler) : leaveScope c = .ok (c.frees, c.left) := rfl

theorem resolveParam_draft {position : Nat} {type : Ty}
    (done : resolveParam position type c = .ok ((), c')) :
    c'.draft = c.draft.map (·.resolve position type) := by
  simp only [resolveParam, modifyDraft, modify_eq_ok, Prod.mk.injEq, true_and] at done
  rw [done]
  exact draft_redraft fun _ => rfl

theorem resolveParam_ok {position : Nat} {type : Ty}
    (done : resolveParam position type c = .ok ((), c')) : c.Retyped c' := by
  simp only [resolveParam, modifyDraft, modify_eq_ok, Prod.mk.injEq, true_and] at done
  rw [done]
  exact .of_modify fun draft _ => draft.resolve_retyped position type

theorem assumeReturn_eq {type : Ty} (done : assumeReturn type c = .ok ((), c')) :
    c' = c.redraft fun draft =>
      { draft with assumed := some type, returns := some (draft.returns.getD type) } := by
  simp only [assumeReturn, get_bind] at done
  cases inside : c.draft with
  | none => simp [inside] at done
  | some draft =>
    have changes : modifyDraft (fun draft =>
        { draft with assumed := some type, returns := some (draft.returns.getD type) }) c =
        .ok ((), c') := by
      cases before : draft.assumed with
      | none => simpa [inside, before] using done
      | some assumed =>
        by_cases same : assumed = type
        · simpa [inside, before, same] using done
        · simp [inside, before, same] at done
    simp only [modifyDraft, modify_eq_ok, Prod.mk.injEq, true_and] at changes
    exact changes

theorem assumeReturn_draft {type : Ty} (done : assumeReturn type c = .ok ((), c')) :
    c'.draft = c.draft.map fun draft =>
      { draft with assumed := some type, returns := some (draft.returns.getD type) } := by
  rw [assumeReturn_eq done]
  exact draft_redraft fun _ => rfl

theorem assumeReturn_inside {type : Ty} (done : assumeReturn type c = .ok ((), c')) :
    c.draft.isSome := by
  cases outside : c.draft with
  | none => simp [assumeReturn, outside] at done
  | some draft => rfl

theorem assumeReturn_ok {type : Ty} (done : assumeReturn type c = .ok ((), c')) :
    c.Retyped c' := by
  rw [assumeReturn_eq done]
  refine .of_modify fun draft _ => ⟨rfl, rfl, rfl, rfl, rfl, fun _ known given => ?_⟩
  rw [given]
  rfl

/-- At most it was assumed what the procedure being compiled gives back. -/
def Assumes (before after : Compiler) : Prop :=
  after = before ∨ ∃ type, assumeReturn type before = .ok ((), after)

theorem Assumes.retyped (assumes : Assumes c c') : c.Retyped c' := by
  rcases assumes with rfl | ⟨type, assumed⟩
  · exact .refl _
  · exact assumeReturn_ok assumed

theorem settle_ok {node : Node} {type : Ty} (done : settle node type c = .ok ((), c')) :
    c.Retyped c' := by
  simp only [settle, get_bind] at done
  cases node with
  | var name =>
    cases found : c.paramIndex? name with
    | none => simp [found] at done
    | some position =>
      simp only [found] at done
      exact resolveParam_ok done
  | call name arguments =>
    by_cases drafting : c.drafting name
    · simp only [drafting, if_true] at done
      exact assumeReturn_ok done
    · simp [drafting] at done
  | _ => simp at done

theorem expect_ok {node : Node} {found : Option Ty} {want : Ty} {role : Role}
    (done : expect node found want role c = .ok ((), c')) :
    c.Retyped c' ∧
      (found = some want ∧ c' = c ∨ found = none ∧ settle node want c = .ok ((), c')) := by
  unfold expect at done
  cases found with
  | none => exact ⟨settle_ok done, .inr ⟨rfl, done⟩⟩
  | some type =>
    by_cases same : type = want
    · simp only [same, if_true, pure_eq_ok, Prod.mk.injEq, true_and] at done
      exact ⟨done ▸ .refl c, .inl ⟨by rw [same], done⟩⟩
    · simp [same] at done

theorem requireValue_ok {found : Option Ty} {role : Role} {type : Ty}
    (done : requireValue found role c = .ok (type, c')) :
    found = some type ∧ type ≠ .void ∧ c' = c := by
  unfold requireValue at done
  cases found with
  | none => simp at done
  | some given =>
    cases given <;> simp at done <;> obtain ⟨rfl, rfl⟩ := done <;> simp

/-- A parameter has its type, or else the one that is wanted. -/
theorem reference_param {name : String} {want : Option Ty} {out : Compiled} {position : Nat}
    {param : Parameter (Option Ty)} (isParam : c.param? name = some (position, param))
    (done : reference name want c = .ok (out, c')) :
    out.code = [.load param.slot] ∧ (out.type = param.type ∧ c' = c ∨
      param.type = none ∧ ∃ type, want = some type ∧ out.type = some type ∧
        resolveParam position type c = .ok ((), c')) := by
  simp only [reference, get_bind, paramIndex?_of_param isParam] at done
  rw [bind_of_ok (paramAt_of_param isParam)] at done
  cases known : param.type with
  | some type =>
    simp only [known, pure_eq_ok, Prod.mk.injEq] at done
    rw [done.1]
    exact ⟨rfl, .inl ⟨rfl, done.2⟩⟩
  | none =>
    cases want with
    | none =>
      simp only [known, pure_eq_ok, Prod.mk.injEq] at done
      rw [done.1]
      exact ⟨rfl, .inl ⟨rfl, done.2⟩⟩
    | some type =>
      simp only [known] at done
      obtain ⟨⟨⟩, between, resolved, last⟩ := bind_eq_ok.mp done
      simp only [pure_eq_ok, Prod.mk.injEq] at last
      rw [last.1]
      exact ⟨rfl, .inr ⟨rfl, type, rfl, rfl, last.2 ▸ resolved⟩⟩

/-- A name refers to a parameter of the draft, or else to a variable. -/
theorem reference_ok {name : String} {want : Option Ty} {out : Compiled}
    (done : reference name want c = .ok (out, c')) :
    (∃ position param, c.param? name = some (position, param) ∧ out.code = [.load param.slot] ∧
      c.Retyped c') ∨
    (∃ found, c.param? name = none ∧ c.scope.find? name = some found ∧
      out = ⟨some found.type, [.load found.slot]⟩ ∧ c' = c) := by
  cases isParam : c.param? name with
  | some place =>
    obtain ⟨position, param⟩ := place
    obtain ⟨code, ⟨-, rfl⟩ | ⟨-, type, -, -, resolved⟩⟩ := reference_param isParam done
    · exact .inl ⟨position, param, rfl, code, .refl _⟩
    · exact .inl ⟨position, param, rfl, code, resolveParam_ok resolved⟩
  | none =>
    right
    simp only [reference, get_bind, paramIndex?_eq_none.mpr isParam] at done
    cases isVariable : c.scope.find? name with
    | none => simp [isVariable] at done
    | some found =>
      simp only [isVariable, pure_eq_ok, Prod.mk.injEq] at done
      exact ⟨found, rfl, rfl, done⟩

/-- The two sides have one type in the end. -/
theorem agree_ok {op : BinaryOp} {left right : Node} {leftType rightType : Option Ty}
    (done : agree op left right leftType rightType c = .ok ((), c')) : c.Retyped c' := by
  unfold agree at done
  cases leftType with
  | none =>
    cases rightType with
    | none => simp at done
    | some b => exact settle_ok done
  | some a =>
    cases rightType with
    | none => exact settle_ok done
    | some b =>
      by_cases same : a = b
      · simp only [same, if_true, pure_eq_ok, Prod.mk.injEq, true_and] at done
        exact done ▸ .refl c
      · simp [same] at done

/-- A left side of open type is settled by the type of the right side. -/
theorem agree_open {op : BinaryOp} {a b : Node} {right : Option Ty}
    (done : agree op a b none right c = .ok ((), c')) :
    ∃ type, right = some type ∧ settle a type c = .ok ((), c') := by
  cases right with
  | none => simp [agree] at done
  | some type => exact ⟨type, rfl, done⟩

theorem expected_ok {callee : Callee} {position : Nat} {type : Option Ty}
    (done : callee.expected position c = .ok (type, c')) : c' = c := by
  unfold Callee.expected at done
  cases callee with
  | drafted draft =>
    simp only [get_bind] at done
    exact (Prod.mk.inj (pure_eq_ok.mp done)).2
  | defined procedure => exact (Prod.mk.inj (pure_eq_ok.mp done)).2
  | host name signature => exact (Prod.mk.inj (pure_eq_ok.mp done)).2

theorem find_ok {name : String} {callee : Callee} (done : Callee.find name c = .ok (callee, c')) :
    callee.Found c name ∧ c' = c := by
  simp only [Callee.find, get_bind] at done
  cases drafted : c.draft.filter (·.name = name) with
  | some draft =>
    simp only [drafted, pure_eq_ok, Prod.mk.injEq] at done
    obtain ⟨rfl, rfl⟩ := done
    obtain ⟨inside, same⟩ := Option.filter_eq_some_iff.mp drafted
    exact ⟨⟨inside, by simpa using same⟩, rfl⟩
  | none =>
    cases defined : c.procedure? name with
    | some procedure =>
      simp only [drafted, defined, pure_eq_ok, Prod.mk.injEq] at done
      obtain ⟨rfl, rfl⟩ := done
      exact ⟨⟨drafted, defined⟩, rfl⟩
    | none =>
      cases host : c.hosts.lookup name with
      | none => simp [drafted, defined, host] at done
      | some signature =>
        simp only [drafted, defined, host, pure_eq_ok, Prod.mk.injEq] at done
        obtain ⟨rfl, rfl⟩ := done
        exact ⟨⟨rfl, drafted, defined, host⟩, rfl⟩

theorem finishCall_ok {callee : Callee} {arguments : Fragment} {want : Option Ty} {out : Compiled}
    (done : finishCall callee arguments want c = .ok (out, c')) :
    out.code = arguments ++ [callee.instruction] ∧ callee.instruction.check = .ok () ∧
      Assumes c c' := by
  unfold finishCall at done
  cases callee with
  | host name signature =>
    obtain ⟨code, between, emitted, last⟩ := bind_eq_ok.mp done
    obtain ⟨passes, rfl, rfl⟩ := emit_ok emitted
    simp only [pure_eq_ok, Prod.mk.injEq] at last
    exact ⟨by rw [last.1]; rfl, passes, .inl last.2⟩
  | defined procedure =>
    simp only [pure_eq_ok, Prod.mk.injEq] at done
    exact ⟨by rw [done.1]; rfl, rfl, .inl done.2⟩
  | drafted draft =>
    simp only [get_bind] at done
    cases known : (c.draft.getD draft).returns with
    | some type =>
      simp only [known, pure_eq_ok, Prod.mk.injEq] at done
      exact ⟨by rw [done.1]; rfl, rfl, .inl done.2⟩
    | none =>
      cases want with
      | none =>
        simp only [known, pure_eq_ok, Prod.mk.injEq] at done
        exact ⟨by rw [done.1]; rfl, rfl, .inl done.2⟩
      | some type =>
        simp only [known] at done
        obtain ⟨⟨⟩, between, assumed, last⟩ := bind_eq_ok.mp done
        simp only [pure_eq_ok, Prod.mk.injEq] at last
        exact ⟨by rw [last.1]; rfl, rfl, .inr ⟨type, last.2 ▸ assumed⟩⟩

/-- The value of a statement of some type is stored as the result, and the type is remembered. -/
theorem storeResult_ok {type : Ty} {before code : Fragment}
    (done : (do
      let stored ← if type = .void then pure [] else do pure [Instruction.store (← resultSlot)]
      modify fun c => { c with prior := type }
      return before ++ stored : Compile Fragment) c = .ok (code, c')) :
    (type = .void ∧ code = before ∧ c' = { c with prior := .void }) ∨
      ∃ slot after, type ≠ .void ∧ resultSlot c = .ok (slot, after) ∧
        code = before ++ [Instruction.store slot] ∧ c' = { after with prior := type } := by
  by_cases void : type = .void
  · subst void
    simp only [if_true, pure_bind, modify_bind, List.append_nil, pure_eq_ok, Prod.mk.injEq] at done
    exact .inl ⟨rfl, done⟩
  · simp only [void, if_false, pure_bind] at done
    obtain ⟨slot, after, found, last⟩ := bind_eq_ok.mp done
    simp only [modify_bind, pure_eq_ok, Prod.mk.injEq] at last
    exact .inr ⟨slot, after, void, found, last⟩

theorem finishStatement_ok {node : Node} {compiled : Compiled} {code : Fragment}
    (done : finishStatement node compiled c = .ok (code, c')) :
    ∃ type between, Assumes c between ∧ (compiled.type = some type ∧ between = c ∨
        compiled.type = none ∧ type = .void ∧ c.draft.isSome ∧
        ∃ name args, node = .call name args) ∧
      ((type = .void ∧ code = compiled.code ∧ c' = { between with prior := .void }) ∨
        ∃ slot after, type ≠ .void ∧ resultSlot between = .ok (slot, after) ∧
          code = compiled.code ++ [Instruction.store slot] ∧
          c' = { after with prior := type }) := by
  unfold finishStatement at done
  cases typed : compiled.type with
  | some type =>
    simp only [typed, pure_bind] at done
    exact ⟨type, c, .inl rfl, .inl ⟨rfl, rfl⟩, storeResult_ok (by simpa using done)⟩
  | none =>
    cases node with
    | call name arguments =>
      by_cases drafting : c.drafting name
      · simp only [typed, get_bind, drafting, if_true] at done
        obtain ⟨⟨⟩, between, assumed, last⟩ := bind_eq_ok.mp done
        have inside : c.draft.isSome := assumeReturn_inside assumed
        exact ⟨.void, between, .inr ⟨_, assumed⟩, .inr ⟨rfl, rfl, inside, name, arguments, rfl⟩,
          storeResult_ok (by simpa using last)⟩
      · simp [typed, drafting] at done
    | _ => simp [typed] at done

/-- The parameters have the names and types of the definition, and each got a slot. -/
theorem allocateParams_ok {params : List Param} {parameters : List (Parameter (Option Ty))}
    (done : allocateParams params c = .ok (parameters, c')) :
    (∃ slots, c' = { c with slots }) ∧ c.slots.Hands (parameters.map (·.slot)) c'.slots ∧
      parameters.map (fun p => (p.name, p.type)) = params.map (fun p => (p.name, p.type)) := by
  induction params generalizing c parameters with
  | nil =>
    simp only [allocateParams, pure_eq_ok, Prod.mk.injEq] at done
    obtain ⟨rfl, rfl⟩ := done
    exact ⟨⟨_, rfl⟩, .nil _, rfl⟩
  | cons param more ih =>
    simp only [allocateParams] at done
    obtain ⟨slot, between, allocated, rest⟩ := bind_eq_ok.mp done
    obtain ⟨others, after, allocatedMore, last⟩ := bind_eq_ok.mp rest
    simp only [pure_eq_ok, Prod.mk.injEq] at last
    obtain ⟨rfl, rfl⟩ := last
    obtain ⟨slots, some, rfl⟩ := allocate_ok allocated
    obtain ⟨⟨left, rfl⟩, hands, named⟩ := ih allocatedMore
    exact ⟨⟨left, rfl⟩, .cons some hands, by simp [named]⟩

theorem startDraft_ok {name : String} {params : List Param} {returns : Option Ty}
    (done : startDraft name params returns c = .ok ((), c')) :
    c.current = none ∧ c.scope.depth = 0 ∧ c.knows name = false ∧
    ∃ parameters slots, c.slots.Hands (parameters.map (·.slot)) slots ∧
      parameters.map (fun p => (p.name, p.type)) = params.map (fun p => (p.name, p.type)) ∧
      c' = { c with
        slots
        current := some name
        pending := some
          { name, address := c.libraryEnd, params := parameters, returns
            declared := returns.isSome } } := by
  simp only [startDraft, get_bind] at done
  by_cases inside : c.current.isSome || 0 < c.scope.depth
  · simp [inside] at done
  · by_cases known : c.knows name
    · simp [inside, known] at done
    · cases twice : duplicate? [] (params.map (·.name)) with
      | some double => simp [inside, known, twice] at done
      | none =>
        simp only [inside, known, twice] at done
        obtain ⟨parameters, between, allocated, last⟩ := bind_eq_ok.mp done
        obtain ⟨⟨slots, rfl⟩, hands, named⟩ := allocateParams_ok allocated
        simp only [modify_eq_ok, Prod.mk.injEq, true_and] at last
        simp only [Bool.or_eq_true, Option.isSome_iff_ne_none, decide_eq_true_eq, not_or,
          Decidable.not_not, Nat.not_lt, Nat.le_zero] at inside
        exact ⟨inside.1, inside.2, by simpa using known, parameters, slots, hands, named, last⟩

/-- The code of a procedure: the arguments are stored, the last one first, and a return is added
unless the body has one on every path. -/
def procedureCode (procedure : Procedure) (body : List Node) (code : Fragment) : Fragment :=
  Fragment.sequence [(procedure.params.map fun p => Instruction.store p.slot).reverse, code,
    if Node.blockReturns body then [] else [.ret]]

theorem finishDraft_ok {name : String} {body : List Node} {code : Fragment}
    (done : finishDraft name body code c = .ok ((), c')) :
    ∃ draft, c.draftOf? name = some draft ∧ draft.open? = none ∧
      (∀ assumed, draft.assumed = some assumed → assumed = draft.finish.returns) ∧
      (draft.finish.returns = .void ∨ Node.blockReturns body) ∧
      c' = { c with
        current := none
        pending := none
        procedures := c.procedures ++ [draft.finish]
        library := c.library ++ (procedureCode draft.finish body code).shift draft.address } := by
  simp only [finishDraft, get_bind] at done
  cases inside : c.draftOf? name with
  | none => simp [inside] at done
  | some draft =>
    cases unresolved : draft.open? with
    | some param => simp [inside, unresolved] at done
    | none =>
      have guessed : ∀ assumed, draft.assumed = some assumed → assumed = draft.finish.returns := by
        intro assumed before
        apply Decidable.byContradiction
        intro other
        simp [inside, unresolved, before, other] at done
      have returning : draft.finish.returns = .void ∨ Node.blockReturns body := by
        apply Decidable.byContradiction
        intro falls
        rw [not_or] at falls
        cases before : draft.assumed with
        | none => simp [inside, unresolved, before, falls.1, falls.2] at done
        | some assumed =>
          simp [inside, unresolved, before, guessed assumed before, falls.1, falls.2] at done
      refine ⟨draft, rfl, unresolved, guessed, returning, ?_⟩
      have passes : ¬(draft.finish.returns ≠ .void && !Node.blockReturns body) := by
        simpa [Decidable.or_iff_not_imp_left] using returning
      cases before : draft.assumed with
      | none =>
        simp only [inside, unresolved, before, passes, Bool.false_eq_true, if_false, set_eq_ok,
          Prod.mk.injEq, true_and] at done
        exact done
      | some assumed =>
        simp only [inside, unresolved, before, guessed assumed before, ne_eq, not_true, if_false,
          passes, Bool.false_eq_true, set_eq_ok, Prod.mk.injEq, true_and] at done
        exact done

theorem noteReturn_ok {draft : Draft} {type : Ty} (done : noteReturn draft type c = .ok ((), c'))
    (same : ∀ now, c.draft = some now → now.declared = draft.declared) : c.Retyped c' := by
  unfold noteReturn at done
  by_cases declared : draft.declared
  · by_cases same : draft.returns = some type
    · simp only [declared, same, ne_eq, not_true, if_true, if_false, pure_eq_ok, Prod.mk.injEq,
        true_and] at done
      exact done ▸ .refl c
    · simp [declared, same] at done
  · simp only [declared, Bool.false_eq_true, if_false, modifyDraft, modify_eq_ok, Prod.mk.injEq,
      true_and] at done
    rw [done]
    refine .of_modify fun now inside => ⟨rfl, rfl, rfl, rfl, rfl, fun isDeclared => ?_⟩
    exact absurd ((same now inside).symm.trans isDeclared) declared

end Compile

end Primer
