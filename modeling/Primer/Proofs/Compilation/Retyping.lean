import Primer.Proofs.Compilation.Occurrence
import Primer.Proofs.Compilation.Settling

/-!
Compilation with other types for the parameters. The types that are found for the parameters of a
procedure could as well have been there from the start: compiled with them, the body gives the same
code. This holds as long as no type that is found inside a comparison, an assignment or an argument
is then replaced by another one.
-/

set_option autoImplicit false
set_option relaxedAutoImplicit false

namespace Primer

open Compile Compiler

def Draft.withParams (draft : Draft) (params : List (Parameter (Option Ty))) : Draft :=
  { draft with params }

/-- The state with other parameters for the procedure being compiled. -/
def Compiler.withParams (c : Compiler) (params : List (Parameter (Option Ty))) : Compiler :=
  { c with pending := c.pending.map (·.withParams params) }

theorem Compiler.draftOf?_withParams (params : List (Parameter (Option Ty))) (c : Compiler)
    (name : String) :
    (c.withParams params).draftOf? name = (c.draftOf? name).map (·.withParams params) := by
  cases pending : c.pending with
  | none => simp [withParams, draftOf?, pending]
  | some draft =>
    by_cases named : draft.name = name <;>
      simp [withParams, draftOf?, pending, Draft.withParams, Option.filter_some, named]

theorem Compiler.draft_withParams (params : List (Parameter (Option Ty))) (c : Compiler) :
    (c.withParams params).draft = c.draft.map (·.withParams params) := by
  have same : (c.withParams params).current = c.current := rfl
  cases current : c.current with
  | none =>
    rw [draft_outside current, draft_outside (same.trans current)]
    rfl
  | some name =>
    rw [draft_of_current current, draft_of_current (same.trans current), draftOf?_withParams]

def Callee.withParams (params : List (Parameter (Option Ty))) : Callee → Callee
  | .drafted draft => .drafted (draft.withParams params)
  | callee => callee

theorem Callee.name_withParams (params : List (Parameter (Option Ty))) (callee : Callee) :
    (callee.withParams params).name = callee.name := by
  cases callee <;> rfl

def Task.withParams (params : List (Parameter (Option Ty))) : Task → Task
  | .givenBack draft expr => .givenBack (draft.withParams params) expr
  | .arguments callee position nodes => .arguments (callee.withParams params) position nodes
  | task => task

/-- The task gives a parameter whose type is open a type, although another type was found for it
inside the task. -/
inductive Task.Resettles : Task → Compiler → Prop
  | compared {op : BinaryOp} {i : Instruction} {name : String} {b : Node} {want : Option Ty}
      {c c₂ : Compiler} {y : Compiled} {position : Nat} {param : Parameter (Option Ty)}
      {inner outer : Ty} (compares : op.comparison? = some i)
      (isParam : c.param? name = some (position, param)) (isOpen : param.type = none)
      (right : Yields (.node b none) c y c₂) (found : c₂.paramTypes[position]? = some (some inner))
      (typed : y.type = some outer) (differs : inner ≠ outer) :
      Resettles (.node (.binary op (.var name) b) want) c
  | assigned {name : String} {a : Node} {want : Option Ty} {c c₁ : Compiler} {x : Compiled}
      {position : Nat} {param : Parameter (Option Ty)} {inner outer : Ty}
      (isParam : c.param? name = some (position, param)) (isOpen : param.type = none)
      (value : Yields (.value a none (.newValue name)) c x c₁)
      (found : c₁.paramTypes[position]? = some (some inner)) (typed : x.type = some outer)
      (differs : inner ≠ outer) : Resettles (.node (.assign name a) want) c
  | passed {draft : Draft} {position : Nat} {a : Node} {more : List Node} {c c₁ : Compiler}
      {x : Compiled} {inner outer : Ty}
      (isOpen : (Callee.drafted draft).expected position c = .ok (none, c))
      (value : Yields (.value a none (.argument (position + 1) draft.name)) c x c₁)
      (found : c₁.paramTypes[position]? = some (some inner)) (typed : x.type = some outer)
      (differs : inner ≠ outer) : Resettles (.arguments (.drafted draft) position (a :: more)) c

/-- No type that is found for a parameter is replaced by another one. -/
def Task.Consistent (task : Task) (c : Compiler) : Prop :=
  ∀ offset inner d, Occurs task c offset inner d → ¬inner.Resettles d

theorem Task.Consistent.part {task inner : Task} {c d : Compiler} {rest : Nat}
    (consistent : task.Consistent c) (part : Part task c rest inner d) : inner.Consistent d :=
  fun _ _ _ occurs => consistent _ _ _ ((Occurs.of_part part).trans occurs)

/-- With a wanted type nothing is left open. -/
theorem Yields.typed_of_wanted {n : Node} {want : Ty} {c c' : Compiler} {x : Compiled}
    (derivation : Yields (.node n (some want)) c x c') : x.type ≠ none := by
  cases derivation with
  | var found =>
    rcases reference_ok found with ⟨position, param, isParam, -, -⟩ | ⟨target, -, -, rfl, -⟩
    · rcases (reference_param isParam found).2 with ⟨same, rfl⟩ | ⟨-, type, -, typed, -⟩
      · intro isOpen
        rw [isOpen] at same
        simp only [reference, get_bind, paramIndex?_of_param isParam] at found
        rw [bind_of_ok (paramAt_of_param isParam)] at found
        simp only [← same] at found
        obtain ⟨⟨⟩, between, -, last⟩ := bind_eq_ok.mp found
        simp only [pure_eq_ok, Prod.mk.injEq] at last
        rw [last.1] at isOpen
        cases isOpen
      · simp [typed]
    · simp
  | @call _ _ _ _ callee _ c₁ _ _ _ _ _ finished =>
    unfold finishCall at finished
    cases callee with
    | host name signature =>
      obtain ⟨code, between, -, last⟩ := bind_eq_ok.mp finished
      simp only [pure_eq_ok, Prod.mk.injEq] at last
      simp [last.1]
    | defined procedure =>
      simp only [pure_eq_ok, Prod.mk.injEq] at finished
      simp [finished.1]
    | drafted draft =>
      simp only [get_bind] at finished
      cases known : (c₁.draft.getD draft).returns with
      | some type =>
        simp only [known, pure_eq_ok, Prod.mk.injEq] at finished
        simp [finished.1]
      | none =>
        simp only [known] at finished
        obtain ⟨⟨⟩, between, -, last⟩ := bind_eq_ok.mp finished
        simp only [pure_eq_ok, Prod.mk.injEq] at last
        simp [last.1]
  | _ => simp

/-- A node whose type is found although none is wanted is compiled in the same way if one is
wanted. -/
theorem Yields.wanted {n : Node} {c c' : Compiler} {x : Compiled}
    (derivation : Yields (.node n none) c x c') (typed : x.type ≠ none) (want : Option Ty) :
    Yields (.node n want) c x c' := by
  cases n with
  | var name =>
    cases derivation with
    | var found =>
      refine .var ?_
      simp only [reference, get_bind] at found ⊢
      cases isParam : c.param? name with
      | some place =>
        simp only [paramIndex?_of_param isParam] at found ⊢
        rw [bind_of_ok (paramAt_of_param isParam)] at found ⊢
        cases known : place.2.type with
        | none =>
          simp only [known, pure_eq_ok, Prod.mk.injEq] at found
          rw [found.1] at typed
          exact absurd rfl typed
        | some type =>
          simp only [known] at found ⊢
          exact found
      | none =>
        cases isVariable : c.scope.find? name with
        | none => simp [paramIndex?_eq_none.mpr isParam, isVariable] at found
        | some target => simpa only [paramIndex?_eq_none.mpr isParam, isVariable] using found
  | call name args =>
    cases derivation with
    | @call _ _ _ _ callee _ c₁ _ _ found arity given finished =>
      refine .call found arity given ?_
      cases callee with
      | host | defined => exact finished
      | drafted draft =>
        simp only [finishCall, get_bind] at finished ⊢
        cases known : (c₁.draft.getD draft).returns with
        | some type =>
          simp only [known] at finished ⊢
          exact finished
        | none =>
          simp only [known, pure_eq_ok, Prod.mk.injEq] at finished
          rw [finished.1] at typed
          exact absurd rfl typed
  | item index list => cases derivation
  | binary op a b => cases op <;> exact Task.yields derivation.run
  | _ => exact Task.yields derivation.run

namespace Compile

/-- Whenever some work is done, some other work is done in the same way with other parameters. -/
def Mirrors {α : Type}
    (params : List (Parameter (Option Ty))) (work other : Compile α) (c : Compiler) : Prop :=
  ∀ a c', work c = .ok (a, c') → other (c.withParams params) = .ok (a, c'.withParams params)

section Mirrors

variable {α β : Type} {params : List (Parameter (Option Ty))} {c : Compiler}

theorem mirrors_pure (a : α) : Mirrors params (pure a) (pure a) c := by
  intro b c' done
  cases done
  rfl

theorem mirrors_throw {other : Compile α} (fault : CompileError) :
    Mirrors params (throw fault) other c := by
  intro a c' done
  cases done

theorem Mirrors.bind {work other : Compile α} {next next' : α → Compile β}
    (first : Mirrors params work other c)
    (rest : ∀ a d, work c = .ok (a, d) → Mirrors params (next a) (next' a) d) :
    Mirrors params (work >>= next) (other >>= next') c := by
  intro b c' done
  obtain ⟨a, between, begun, more⟩ := bind_eq_ok.mp done
  exact bind_eq_ok.mpr ⟨a, _, first a between begun, rest a between begun b c' more⟩

theorem Mirrors.get {next next' : Compiler → Compile β}
    (rest : Mirrors params (next c) (next' (c.withParams params)) c) :
    Mirrors params (get >>= next) (get >>= next') c :=
  rest

theorem mirrors_modify {f : Compiler → Compiler}
    (same : f (c.withParams params) = (f c).withParams params) :
    Mirrors params (modify f) (modify f) c := by
  intro a c' done
  cases done
  exact congrArg (fun after => Except.ok ((), after)) same

theorem mirrors_modifyDraft {f : Draft → Draft}
    (same : ∀ draft, f (draft.withParams params) = (f draft).withParams params) :
    Mirrors params (modifyDraft f) (modifyDraft f) c := by
  refine mirrors_modify ?_
  have other := draft_withParams params c
  cases inside : c.draft with
  | none =>
    rw [inside] at other
    rw [redraft_outside other, redraft_outside inside]
  | some draft =>
    rw [inside] at other
    rw [redraft_inside other, redraft_inside inside, same]
    rfl

theorem mirrors_allocate : Mirrors params allocate allocate c := by
  refine .get ?_
  rw [show (c.withParams params).slots = c.slots from rfl]
  cases c.slots.allocate? with
  | none => exact mirrors_throw _
  | some found =>
    intro a c' done
    cases done
    rfl

theorem mirrors_allocateScratch : Mirrors params allocateScratch allocateScratch c :=
  mirrors_allocate.bind fun _ _ _ => (mirrors_modify rfl).bind fun _ _ _ => mirrors_pure _

theorem mirrors_resultSlot : Mirrors params resultSlot resultSlot c := by
  refine .get ?_
  rw [show (c.withParams params).current = c.current from rfl]
  cases c.current with
  | none => exact mirrors_pure _
  | some name =>
    dsimp only
    rw [draftOf?_withParams]
    cases c.draftOf? name with
    | none => exact mirrors_throw _
    | some draft =>
      simp only [Option.map_some, Draft.withParams]
      cases draft.resultSlot with
      | some slot => exact mirrors_pure _
      | none =>
        exact mirrors_allocate.bind fun _ _ _ =>
          (mirrors_modifyDraft fun _ => rfl).bind fun _ _ _ => mirrors_pure _

theorem mirrors_assumeReturn (type : Ty) :
    Mirrors params (assumeReturn type) (assumeReturn type) c := by
  refine .get ?_
  cases inside : c.draft with
  | none => exact mirrors_throw _
  | some draft =>
    simp only [draft_withParams, inside, Option.map_some, Draft.withParams]
    cases draft.assumed with
    | none =>
      exact (mirrors_pure ()).bind fun _ _ _ => mirrors_modifyDraft fun _ => rfl
    | some before =>
      by_cases same : before = type
      · simp only [same, ne_eq, not_true, if_false]
        exact (mirrors_pure ()).bind fun _ _ _ => mirrors_modifyDraft fun _ => rfl
      · simp only [same, ne_eq, not_false_eq_true, if_true]
        exact (mirrors_throw _).bind fun _ _ impossible => by cases impossible

theorem resolveParam_paramTypes {c' : Compiler} {position : Nat} {type : Ty}
    (done : resolveParam position type c = .ok ((), c')) :
    c'.paramTypes = c.paramTypes.modify position fun _ => some type := by
  have now := resolveParam_draft done
  cases inside : c.draft with
  | none => simp [paramTypes, now, inside]
  | some draft =>
    simp only [paramTypes, now, inside, Option.map_some, Option.getD_some, Draft.resolve]
    refine List.ext_getElem? fun i => ?_
    by_cases here : position = i <;> simp [here, Function.comp_def]

/-- Which types are found for parameters makes no difference if they are replaced anyway. -/
theorem resolveParam_withParams {c' : Compiler} {position : Nat} {type : Ty}
    (done : resolveParam position type c = .ok ((), c')) :
    c'.withParams params = c.withParams params := by
  simp only [resolveParam, modifyDraft, modify_eq_ok, Prod.mk.injEq, true_and] at done
  subst done
  cases inside : c.draft with
  | none => rw [redraft_outside inside]
  | some draft =>
    rw [redraft_inside inside, withParams, withParams, (draft_eq_some.mp inside).2]
    rfl

theorem drafting_withParams (name : String) :
    (c.withParams params).drafting name = c.drafting name := rfl

theorem mirrors_noteReturn (draft : Draft) (type : Ty) :
    Mirrors params (noteReturn draft type) (noteReturn (draft.withParams params) type) c := by
  unfold noteReturn
  simp only [Draft.withParams]
  by_cases declared : draft.declared
  · by_cases same : draft.returns = some type
    · simp only [declared, same, ne_eq, not_true, if_true, if_false]
      exact mirrors_pure _
    · simp only [declared, same, ne_eq, not_false_eq_true, if_true]
      exact mirrors_throw _
  · simp only [declared]
    exact mirrors_modifyDraft fun _ => rfl

theorem find_withParams {name : String} {callee : Callee}
    (done : Callee.find name c = .ok (callee, c)) :
    Callee.find name (c.withParams params) =
      .ok (callee.withParams params, c.withParams params) := by
  have found := (find_ok done).1
  have own : (c.withParams params).draft.filter (·.name = name) =
      (c.draft.filter (·.name = name)).map (·.withParams params) := by
    rw [draft_withParams]
    cases inside : c.draft with
    | none => rfl
    | some draft =>
      by_cases named : draft.name = name <;> simp [Draft.withParams, Option.filter_some, named]
  have known : (c.withParams params).procedure? name = c.procedure? name := rfl
  simp only [Callee.find, get_bind, own, known]
  cases callee with
  | drafted draft =>
    obtain ⟨inside, named⟩ := found
    simp [inside, named, Option.filter_some, Callee.withParams]
  | defined procedure =>
    obtain ⟨other, defined⟩ := found
    simp [other, defined, Callee.withParams]
  | host name' signature =>
    obtain ⟨rfl, other, undefined, host⟩ := found
    have table : (c.withParams params).hosts = c.hosts := rfl
    simp [other, undefined, host, table, Callee.withParams]

theorem mirrors_finishCall (callee : Callee) (arguments : Fragment) (want : Option Ty) :
    Mirrors params (finishCall callee arguments want)
      (finishCall (callee.withParams params) arguments want) c := by
  cases callee with
  | host name signature =>
    refine Mirrors.bind ?_ fun _ _ _ => mirrors_pure _
    intro code c' done
    obtain ⟨passes, rfl, rfl⟩ := emit_ok done
    simp [emit, passes]
  | defined procedure => exact mirrors_pure _
  | drafted draft =>
    refine .get ?_
    have same : ((c.withParams params).draft.getD (draft.withParams params)).returns =
        (c.draft.getD draft).returns := by
      cases inside : c.draft <;> simp [draft_withParams, inside, Draft.withParams]
    simp only [same]
    cases (c.draft.getD draft).returns with
    | some type => exact mirrors_pure _
    | none =>
      cases want with
      | none => exact mirrors_pure _
      | some type => exact (mirrors_assumeReturn type).bind fun _ _ _ => mirrors_pure _

theorem mirrors_finishStatement (n : Node) (x : Compiled) :
    Mirrors params (finishStatement n x) (finishStatement n x) c := by
  have stored (type : Ty) (d : Compiler) : (fun work => Mirrors params work work d) (do
      let stored ← if type = .void then pure [] else do pure [Instruction.store (← resultSlot)]
      modify fun c => { c with prior := type }
      return x.code ++ stored) := by
    have last (more : Fragment) (e : Compiler) : (fun work => Mirrors params work work e) (do
        modify fun c => { c with prior := type }
        return x.code ++ more) := by
      refine Mirrors.bind (mirrors_modify ?_) fun _ _ _ => mirrors_pure _
      rfl
    by_cases void : type = .void
    · simp only [void, if_true, pure_bind]
      exact void ▸ last [] d
    · simp only [void, if_false, pure_bind]
      exact mirrors_resultSlot.bind fun slot e _ => last [.store slot] e
  unfold finishStatement
  cases x.type with
  | some type => exact (mirrors_pure type).bind fun _ _ _ => stored _ _
  | none =>
    cases n with
    | call name args =>
      refine .get ?_
      rw [drafting_withParams]
      by_cases drafting : c.drafting name
      · simp only [drafting, if_true]
        exact (mirrors_assumeReturn .void).bind fun _ _ _ => stored .void _
      · simp only [drafting]
        exact mirrors_throw _
    | _ => exact mirrors_throw _

end Mirrors

end Compile

namespace Compiler

/-- The parameters have the names and places of those of the state, and the types that are known. -/
structure Fits (c : Compiler) (params : List (Parameter (Option Ty))) : Prop where
  places : ∀ draft, c.draft = some draft →
    params.map (fun p => (p.name, p.slot)) = draft.params.map (fun p => (p.name, p.slot))
  types : ∀ (i : Nat) (type : Ty), c.paramTypes[i]? = some (some type) →
    ∀ param, params[i]? = some param → param.type = some type

variable {params : List (Parameter (Option Ty))} {c c' : Compiler}

namespace Fits

/-- What fits a later state fits an earlier one. -/
theorem before (fits : c'.Fits params) (settles : c.Settles c')
    (kept : Draft.Kept c.draft c'.draft) : c.Fits params := by
  refine ⟨fun draft inside => ?_, fun i type known => fits.types i type (settles i type known)⟩
  rw [inside] at kept
  cases later : c'.draft with
  | none => rw [later] at kept; exact kept.elim
  | some now =>
    rw [later] at kept
    exact (fits.places now later).trans (Draft.Continues.params kept)

theorem yields (fits : c'.Fits params) {task : Task} {x : Compiled}
    (derivation : Yields task c x c')
    (tidy : c.scope.Tidy) (inRange : task.InRange) : c.Fits params :=
  fits.before (derivation.settles tidy inRange) (derivation.grows tidy).draft

theorem retyped (fits : c'.Fits params) (retyped : c.Retyped c')
    (same : c'.paramTypes = c.paramTypes) : c.Fits params :=
  fits.before (.of_eq same) retyped.steady.draft

/-- A type that is found for a parameter does not replace another one. -/
theorem resolve (fits : c'.Fits params) {position : Nat} {type : Ty}
    (done : resolveParam position type c = .ok ((), c'))
    (same : ∀ found, c.paramTypes[position]? = some (some found) → found = type) :
    c.Fits params := by
  refine fits.before (fun i found known => ?_) (resolveParam_ok done).steady.draft
  rw [resolveParam_paramTypes done, List.getElem?_modify, known]
  by_cases here : position = i
  · subst here
    rw [same found known]
    simp
  · simp [here]

/-- A parameter keeps its position and its slot. -/
theorem param? (fits : c.Fits params) {name : String} {position : Nat}
    {param : Parameter (Option Ty)} (isParam : c.param? name = some (position, param)) :
    ∃ other, (c.withParams params).param? name = some (position, other) ∧
      params[position]? = some other ∧ other.slot = param.slot := by
  obtain ⟨draft, inside, found⟩ := Option.bind_eq_some_iff.mp isParam
  have continues : draft.Continues (draft.withParams params) :=
    ⟨rfl, rfl, fits.places draft inside, rfl, fun _ => id, fun _ _ => id⟩
  obtain ⟨other, later⟩ := continues.find? found
  have here := (Draft.find?_eq_some.mp later).2
  refine ⟨other, by rw [Compiler.param?, draft_withParams, inside]; exact later, here, ?_⟩
  have places := congrArg (·[position]?) (fits.places draft inside)
  simp only [List.getElem?_map, (Draft.find?_eq_some.mp found).2,
    show params[position]? = some other from here, Option.map_some, Option.some.injEq,
    Prod.mk.injEq] at places
  exact places.2

theorem param?_eq_none (fits : c.Fits params) {name : String} (noParam : c.param? name = none) :
    (c.withParams params).param? name = none := by
  cases isParam : (c.withParams params).param? name with
  | none => rfl
  | some place =>
    obtain ⟨now, inside, found⟩ := Option.bind_eq_some_iff.mp isParam
    rw [draft_withParams] at inside
    obtain ⟨draft, before, rfl⟩ := Option.map_eq_some_iff.mp inside
    have continues : (draft.withParams params).Continues draft :=
      ⟨rfl, rfl, (fits.places draft before).symm, rfl, fun _ => id, fun _ _ => id⟩
    obtain ⟨other, earlier⟩ := continues.find? found
    rw [Compiler.param?, before, Option.bind_some, earlier] at noParam
    cases noParam

theorem slot? (fits : c.Fits params) (name : String) :
    (c.withParams params).slot? name = c.slot? name := by
  cases isParam : c.param? name with
  | none =>
    simp only [Compiler.slot?, isParam, fits.param?_eq_none isParam]
    rfl
  | some place =>
    obtain ⟨other, later, -, slot⟩ := fits.param? isParam
    simp [Compiler.slot?, isParam, later, slot]

theorem isVisible (fits : c.Fits params) (name : String) :
    (c.withParams params).isVisible name = c.isVisible name := by
  cases isParam : c.param? name with
  | none =>
    simp only [Compiler.isVisible, paramIndex?_eq_none.mpr isParam,
      paramIndex?_eq_none.mpr (fits.param?_eq_none isParam)]
    rfl
  | some place =>
    obtain ⟨other, later, -, -⟩ := fits.param? isParam
    simp [Compiler.isVisible, paramIndex?_of_param isParam, paramIndex?_of_param later]

end Fits

end Compiler

theorem Yields.inside {task : Task} {c c' : Compiler} {x : Compiled}
    (derivation : Yields task c x c')
    (tidy : c.scope.Tidy) (inside : c.draft.isSome) : c'.draft.isSome := by
  rw [(derivation.grows tidy).draft.isSome_eq]
  exact inside

/-- A value whose type is found is also one of this type. -/
theorem Yields.value_wanted {n : Node} {role : Role} {c c' : Compiler} {x : Compiled} {found : Ty}
    (derivation : Yields (.value n none role) c x c') (typed : x.type = some found) :
    Yields (.value n (some found) role) c x c' := by
  cases derivation with
  | valueFound inner known filled =>
    cases typed
    refine .valueOf (inner.wanted (by simp [known]) _) ?_ filled
    simp [expect, known]

namespace Compile

variable {params : List (Parameter (Option Ty))} {c c' : Compiler}

/-- What was expected had the type, if one was wanted. -/
theorem expect_wanted {n : Node} {want : Ty} {role : Role} {x : Compiled} {c₁ : Compiler}
    (inner : Yields (.node n (some want)) c x c₁)
    (done : expect n x.type want role c₁ = .ok ((), c')) : x.type = some want ∧ c' = c₁ := by
  rcases (expect_ok done).2 with typed | ⟨unknown, -⟩
  · exact typed
  · exact absurd unknown inner.typed_of_wanted

theorem reference_typed {name : String} {want : Option Ty} {position : Nat}
    {param : Parameter (Option Ty)} {type : Ty} (isParam : c.param? name = some (position, param))
    (typed : param.type = some type) :
    reference name want c = .ok (⟨some type, [.load param.slot]⟩, c) := by
  simp only [reference, get_bind, paramIndex?_of_param isParam]
  rw [bind_of_ok (paramAt_of_param isParam)]
  simp only [typed]
  rfl

theorem mirrors_settle_call {name : String} {args : List Node} (type : Ty) :
    Mirrors params (settle (.call name args) type) (settle (.call name args) type) c := by
  refine .get ?_
  dsimp only
  rw [drafting_withParams]
  by_cases drafting : c.drafting name
  · simp only [drafting, if_true]
    exact mirrors_assumeReturn type
  · simp only [drafting]
    exact mirrors_throw _

/-- A call that is settled says nothing of the parameters. -/
theorem settle_call_paramTypes {name : String} {args : List Node} {type : Ty}
    (done : settle (.call name args) type c = .ok ((), c')) : c'.paramTypes = c.paramTypes := by
  simp only [settle, get_bind] at done
  by_cases drafting : c.drafting name
  · simp only [drafting, if_true] at done
    exact Assumes.paramTypes (.inr ⟨_, done⟩)
  · simp [drafting] at done

end Compile

namespace Compile

variable {params : List (Parameter (Option Ty))} {c : Compiler} {draft : Draft} {position : Nat}

/-- The argument of a call of the procedure to itself must have what is known of the parameter. -/
theorem expected_drafted {expected : Option Ty} (inside : c.draft.isSome)
    (wanted : (Callee.drafted draft).expected position c = .ok (expected, c)) :
    expected = c.paramTypes[position]?.join := by
  obtain ⟨now, inside⟩ := Option.isSome_iff_exists.mp inside
  simp only [Callee.expected, get_bind, inside, Option.getD_some, pure_eq_ok,
    Prod.mk.injEq] at wanted
  rw [wanted.1]
  cases here : now.params[position]? <;> simp [paramTypes, inside, here]

/-- Only a parameter of the procedure being compiled may be open. -/
theorem expected_open {callee : Callee} (inRange : position < callee.arity)
    (wanted : callee.expected position c = .ok (none, c)) : ∃ draft, callee = .drafted draft := by
  cases callee with
  | drafted draft => exact ⟨draft, rfl⟩
  | defined procedure =>
    simp only [Callee.expected, pure_eq_ok, Prod.mk.injEq] at wanted
    have := List.getElem?_eq_none_iff.mp (Option.map_eq_none_iff.mp wanted.1.symm)
    exact absurd inRange (Nat.not_lt.mpr this)
  | host name signature =>
    simp only [Callee.expected, pure_eq_ok, Prod.mk.injEq] at wanted
    exact absurd inRange (Nat.not_lt.mpr (List.getElem?_eq_none_iff.mp wanted.1.symm))

theorem expected_withParams : (Callee.drafted (draft.withParams params)).expected position
    (c.withParams params) = .ok (params[position]?.bind (·.type), c.withParams params) := by
  cases inside : c.draft <;> simp [Callee.expected, draft_withParams, inside, Draft.withParams]

theorem resolveParam_outside {type : Ty} (outside : params.length ≤ position) :
    resolveParam position type (c.withParams params) = .ok ((), c.withParams params) := by
  simp only [resolveParam, modifyDraft, modify_eq_ok, Prod.mk.injEq, true_and]
  have other := draft_withParams params c
  cases inside : c.draft with
  | none =>
    rw [inside] at other
    rw [redraft_outside other]
  | some draft =>
    rw [inside] at other
    rw [redraft_inside other]
    simp [withParams, (draft_eq_some.mp inside).2, Draft.withParams, Draft.resolve,
      List.modify_eq_self outside]

end Compile

theorem Compiler.Fits.length {params : List (Parameter (Option Ty))} {c : Compiler}
    (fits : c.Fits params) (inside : c.draft.isSome) : params.length = c.paramTypes.length := by
  obtain ⟨draft, inside⟩ := Option.isSome_iff_exists.mp inside
  have lengths := congrArg List.length (fits.places draft inside)
  simpa [paramTypes, inside] using lengths

/-- An argument that must have a type must have it with the other parameters, too. -/
theorem Compiler.Fits.expected {params : List (Parameter (Option Ty))} {c : Compiler}
    {callee : Callee} {position : Nat} {type : Ty} (fits : c.Fits params) (inside : c.draft.isSome)
    (wanted : callee.expected position c = .ok (some type, c)) :
    (callee.withParams params).expected position (c.withParams params) =
      .ok (some type, c.withParams params) := by
  cases callee with
  | drafted draft =>
    have known := Option.join_eq_some_iff.mp (expected_drafted inside wanted).symm
    have bound := (List.getElem?_eq_some_iff.mp known).1
    rw [← fits.length inside] at bound
    have here := List.getElem?_eq_getElem bound
    have final := fits.types position type known _ here
    refine expected_withParams.trans ?_
    rw [here, Option.bind_some, final]
  | defined procedure =>
    simp only [Callee.expected, pure_eq_ok, Prod.mk.injEq] at wanted
    simp [Callee.withParams, Callee.expected, ← wanted.1]
  | host name signature =>
    simp only [Callee.expected, pure_eq_ok, Prod.mk.injEq] at wanted
    simp [Callee.withParams, Callee.expected, ← wanted.1]

/-- A name that leaves its type open is that of a parameter of open type. -/
theorem Yields.open_param {name : String} {want : Option Ty} {c c' : Compiler} {x : Compiled}
    (derivation : Yields (.node (.var name) want) c x c') (unknown : x.type = none) :
    ∃ position param, c.param? name = some (position, param) ∧ param.type = none ∧
      x.code = [.load param.slot] ∧ c = c' := by
  cases derivation with
  | var found =>
    rcases reference_ok found with ⟨position, param, isParam, -, -⟩ | ⟨target, -, -, rfl, -⟩
    · obtain ⟨code, ⟨same, rfl⟩ | ⟨-, type, -, typed, -⟩⟩ := reference_param isParam found
      · exact ⟨position, param, isParam, same ▸ unknown, code, rfl⟩
      · rw [unknown] at typed
        cases typed
    · cases unknown

/-- A parameter of known type is assigned a value of this type. -/
theorem Yields.assignTyped {name : String} {a : Node} {want : Option Ty} {c c' : Compiler}
    {position : Nat} {param : Parameter (Option Ty)} {x : Compiled} {type found : Ty}
    (isParam : c.param? name = some (position, param)) (known : param.type = some type)
    (value : Yields (.value a (some type) (.newValue name)) c x c') (typed : x.type = some found) :
    Yields (.node (.assign name a) want) c ⟨some .void, x.code ++ [Instruction.store param.slot]⟩
      c' :=
  .assignParam isParam (known ▸ value) typed (by simp [known])

/-- The type that was found for a parameter is the one that it gets. -/
theorem Compiler.Fits.resolved {params : List (Parameter (Option Ty))} {c c' : Compiler}
    (fits : c'.Fits params) {position : Nat} {type : Ty} {other : Parameter (Option Ty)}
    (done : resolveParam position type c = .ok ((), c')) {known : Option Ty}
    (inRange : c.paramTypes[position]? = some known) (here : params[position]? = some other) :
    other.type = some type := by
  refine fits.types position type ?_ other here
  rw [resolveParam_paramTypes done, List.getElem?_modify, inRange]
  simp

/-- The task is a reference to a variable. -/
def Task.isVar : Task → Bool
  | .node (.var _) _ => true
  | _ => false

/-- The parameters fit when the task is over, and no type that is found for one of them is
replaced. -/
structure Task.Refits (params : List (Parameter (Option Ty))) (task : Task) (c c' : Compiler) :
    Prop where
  tidy : c.scope.Tidy
  inRange : task.InRange
  inside : c.draft.isSome
  fits : c'.Fits params
  consistent : task.Consistent c

namespace Task.Refits

variable {params : List (Parameter (Option Ty))} {task inner other : Task} {c c' d : Compiler}
  {x y : Compiled} {rest : Nat}

/-- The parameters fit when a part is over that another one follows. -/
theorem upTo (refits : task.Refits params c c') (tidy : d.scope.Tidy) (behind : Yields other d y c')
    (range : other.InRange) : task.Refits params c d :=
  { refits with fits := refits.fits.yields behind tidy range }

theorem part (refits : task.Refits params c c') (part : Part task c rest inner d)
    (tidy : d.scope.Tidy) (inside : d.draft.isSome) (range : inner.InRange) :
    inner.Refits params d c' :=
  ⟨tidy, range, inside, refits.fits, refits.consistent.part part⟩

theorem first (refits : task.Refits params c c') (part : Part task c rest inner c)
    (range : inner.InRange) : inner.Refits params c c' :=
  refits.part part refits.tidy refits.inside range

theorem next (refits : task.Refits params c c') (before : Yields other c x d)
    (part : Part task c rest inner d) (range : inner.InRange) : inner.Refits params d c' :=
  refits.part part (before.tidy refits.tidy) (before.inside refits.tidy refits.inside) range

end Task.Refits

/-- Compiled with the other parameters the task gives the same code. A reference that leaves its
type open does not, as the type is known then. -/
def Task.Repeats (params : List (Parameter (Option Ty))) (task : Task) (c : Compiler) (x : Compiled)
    (c' : Compiler) : Prop :=
  task.Refits params c c' → (x.type = none → task.isVar = false) →
    Yields (task.withParams params) (c.withParams params) x (c'.withParams params)

namespace Task.Repeats

variable {params : List (Parameter (Option Ty))} {want : Option Ty} {c c₁ c₂ c' : Compiler}
  {x y : Compiled} {type : Ty}

section Comparison

variable {op : BinaryOp} {i : Instruction} {a b : Node} (compares : op.comparison? = some i)
  (refits : (Task.node (.binary op a b) want).Refits params c c')
  (left : Yields (.node a none) c x c₁)
include compares refits left

/-- With the type of the left side nothing is left open on the right. -/
theorem comparison_typed (known : x.type = some type) (leftValue : x.type ≠ some .void)
    (right : Yields (.node b (some type)) c₁ y c₂) (rightValue : y.type ≠ some .void)
    (agreed : agree op a b (some type) y.type c₂ = .ok ((), c'))
    (first : Repeats params (.node a none) c x c₁)
    (second : Repeats params (.node b (some type)) c₁ y c₂) :
    Yields (.node (.binary op a b) want) (c.withParams params)
      ⟨some .boolean, Fragment.sequence [x.code, y.code] ++ [i]⟩ (c'.withParams params) := by
  have tidy₁ := left.tidy refits.tidy
  cases known' : y.type with
  | none => exact absurd known' right.typed_of_wanted
  | some type' =>
    rw [known'] at agreed
    obtain ⟨rfl, rfl⟩ : type = type' ∧ c' = c₂ := by
      by_cases same : type = type'
      · simp only [agree, same, if_true, pure_eq_ok, Prod.mk.injEq, true_and] at agreed
        exact ⟨same, agreed⟩
      · simp [agree, same] at agreed
    have part : Part (.node (.binary op a b) want) c x.code.size (.node b (some type)) c₁ :=
      known ▸ .comparisonRight compares left
    have again := second (refits.next left part trivial) (by simp [known'])
    refine .comparison compares
      (first ((refits.upTo tidy₁ right trivial).first (.comparisonLeft compares) trivial)
        (by simp [known])) leftValue (known ▸ again) rightValue ?_
    simp [agree, known, known']

/-- A call on the left whose type is open takes the type of the right side. -/
theorem comparison_call {name : String} {args : List Node} (same : a = .call name args)
    (unknown : x.type = none) (leftValue : x.type ≠ some .void)
    (right : Yields (.node b none) c₁ y c₂) (rightValue : y.type ≠ some .void)
    (typed : y.type = some type)
    (settled : settle a type c₂ = .ok ((), c')) (first : Repeats params (.node a none) c x c₁)
    (second : Repeats params (.node b none) c₁ y c₂) :
    Yields (.node (.binary op a b) want) (c.withParams params)
      ⟨some .boolean, Fragment.sequence [x.code, y.code] ++ [i]⟩ (c'.withParams params) := by
  subst same
  have fits₂ : c₂.Fits params :=
    refits.fits.retyped (settle_ok settled) (settle_call_paramTypes settled)
  have refits₂ : (Task.node (.binary op (.call name args) b) want).Refits params c c₂ :=
    { refits with fits := fits₂ }
  have part : Part (.node (.binary op (.call name args) b) want) c x.code.size (.node b none) c₁ :=
    unknown ▸ .comparisonRight compares left
  have again := second (refits₂.next left part trivial) (by simp [typed])
  refine .comparison compares
    (first ((refits₂.upTo (left.tidy refits.tidy) right trivial).first
        (.comparisonLeft compares) trivial)
      fun _ => rfl) leftValue (unknown ▸ again) rightValue ?_
  rw [unknown, typed]
  exact mirrors_settle_call type _ _ settled

/-- A parameter on the left whose type is open gets the type of the right side. -/
theorem comparison_param {name : String} (same : a = .var name) (unknown : x.type = none)
    (right : Yields (.node b none) c₁ y c₂) (rightValue : y.type ≠ some .void)
    (typed : y.type = some type)
    (settled : settle a type c₂ = .ok ((), c')) (second : Repeats params (.node b none) c₁ y c₂) :
    Yields (.node (.binary op a b) want) (c.withParams params)
      ⟨some .boolean, Fragment.sequence [x.code, y.code] ++ [i]⟩ (c'.withParams params) := by
  subst same
  obtain ⟨position, param, isParam, isOpen, code, rfl⟩ := left.open_param unknown
  obtain ⟨still, isParam'⟩ := (right.grows refits.tidy).param? isParam
  have resolved : resolveParam position type c₂ = .ok ((), c') := by
    simpa only [settle, get_bind, paramIndex?_of_param isParam'] using settled
  have fits₂ : c₂.Fits params := refits.fits.resolve resolved fun inner found => by
    apply Decidable.byContradiction
    intro differs
    exact refits.consistent 0 _ _ .here
      (.compared compares isParam isOpen right found typed differs)
  obtain ⟨other, later, here, slot⟩ := (fits₂.yields right refits.tidy trivial).param? isParam
  have final := refits.fits.resolved resolved (paramTypes_param isParam') here
  have refits₂ : (Task.node (.binary op (.var name) b) want).Refits params c c₂ :=
    { refits with fits := fits₂ }
  have part : Part (.node (.binary op (.var name) b) want) c x.code.size (.node b none) c :=
    unknown ▸ .comparisonRight compares left
  have isTyped : y.type ≠ none := by simp [typed]
  have again := (second (refits₂.first part trivial) (absurd · isTyped)).wanted isTyped (some type)
  rw [code, ← slot, resolveParam_withParams resolved]
  refine .comparison (x := ⟨some type, [.load other.slot]⟩) compares
    (.var (reference_typed later final)) (typed ▸ rightValue) again rightValue ?_
  simp [agree, typed]

end Comparison

/-- The type of a parameter that is referred to is known with the other parameters. -/
theorem var {name : String} (found : reference name want c = .ok (x, c')) :
    Repeats params (.node (.var name) want) c x c' := by
  intro refits plain
  refine .var ?_
  have fits := refits.fits.yields (.var found) refits.tidy trivial
  cases isParam : c.param? name with
  | none =>
    have noParam := fits.param?_eq_none isParam
    rcases reference_ok found with ⟨position, param, isParam', -, -⟩ | ⟨target, -, known, rfl, rfl⟩
    · rw [isParam] at isParam'
      cases isParam'
    · have known : (c'.withParams params).scope.find? name = some target := known
      simp [reference, paramIndex?_eq_none.mpr noParam, known]
  | some place =>
    obtain ⟨position, param⟩ := place
    obtain ⟨other, later, here, slot⟩ := fits.param? isParam
    obtain ⟨code, outcome⟩ := reference_param isParam found
    obtain ⟨type, typed, final, same⟩ : ∃ type, x.type = some type ∧ other.type = some type ∧
        c'.withParams params = c.withParams params := by
      rcases outcome with ⟨known, rfl⟩ | ⟨-, type, -, typed, resolved⟩
      · cases typed : x.type with
        | none => cases plain typed
        | some type =>
          have settled := paramTypes_param isParam
          rw [← known, typed] at settled
          exact ⟨type, rfl, refits.fits.types position type settled other here, rfl⟩
      · exact ⟨type, typed, refits.fits.resolved resolved (paramTypes_param isParam) here,
          resolveParam_withParams resolved⟩
    rw [same, reference_typed later final, slot, ← code, ← typed]

section Assignment

variable {name : String} {a : Node} {position : Nat} {param : Parameter (Option Ty)} {found : Ty}
  (refits : (Task.node (.assign name a) want).Refits params c c')
  (isParam : c.param? name = some (position, param)) (typed : x.type = some found)
include refits isParam typed

theorem assign_typed (known : param.type = some type)
    (value : Yields (.value a (some type) (.newValue name)) c x c')
    (given : Repeats params (.value a (some type) (.newValue name)) c x c') :
    Yields (.node (.assign name a) want) (c.withParams params)
      ⟨some .void, x.code ++ [Instruction.store param.slot]⟩ (c'.withParams params) := by
  have fits := refits.fits.yields value refits.tidy trivial
  obtain ⟨other, later, here, slot⟩ := fits.param? isParam
  have settled := paramTypes_param isParam
  rw [known] at settled
  have final := fits.types position type settled other here
  have part : Part (.node (.assign name a) want) c 0 (.value a (some type) (.newValue name)) c :=
    known ▸ .assignParam isParam
  exact slot ▸ .assignTyped later final (given (refits.first part trivial) fun _ => rfl) typed

/-- A parameter whose type is open gets the type of the value. -/
theorem assign_open (isOpen : param.type = none)
    (value : Yields (.value a none (.newValue name)) c x c₁)
    (given : Repeats params (.value a none (.newValue name)) c x c₁)
    (resolved : resolveParam position found c₁ = .ok ((), c')) :
    Yields (.node (.assign name a) want) (c.withParams params)
      ⟨some .void, x.code ++ [Instruction.store param.slot]⟩ (c'.withParams params) := by
  have fits₁ : c₁.Fits params := refits.fits.resolve resolved fun inner settled => by
    apply Decidable.byContradiction
    intro differs
    exact refits.consistent 0 _ c .here (.assigned isParam isOpen value settled typed differs)
  have refits₁ : (Task.node (.assign name a) want).Refits params c c₁ :=
    { refits with fits := fits₁ }
  obtain ⟨other, later, here, slot⟩ := (fits₁.yields value refits.tidy trivial).param? isParam
  obtain ⟨still, isParam'⟩ := (value.grows refits.tidy).param? isParam
  have final := refits.fits.resolved resolved (paramTypes_param isParam') here
  have part : Part (.node (.assign name a) want) c 0 (.value a none (.newValue name)) c :=
    isOpen ▸ .assignParam isParam
  have again := (given (refits₁.first part trivial) fun _ => rfl).value_wanted typed
  rw [resolveParam_withParams resolved]
  exact slot ▸ .assignTyped later final again typed

end Assignment

/-- The loop takes the same slots. -/
theorem times {count : Node} {body : List Node} {threshold counter : UInt8} {c₃ : Compiler}
    (amount : Yields (.operand count .number .repeatCount) { c with scope := c.scope.enter } x c₁)
    (first : allocateScratch c₁ = .ok (threshold, c₂))
    (second : allocateScratch c₂ = .ok (counter, c₃)) (inner : Yields (.block body) c₃ y c')
    (counted : Repeats params (.operand count .number .repeatCount)
      { c with scope := c.scope.enter } x c₁)
    (round : Repeats params (.block body) c₃ y c') :
    Repeats params (.node (.times count body) want) c
      ⟨some .void, Fragment.countedLoop x.code threshold counter y.code ++ c'.frees⟩ c'.left := by
  intro refits _
  have scratch : allocateScratch (c₁.withParams params) = _ := mirrors_allocateScratch _ _ first
  have scratch' : allocateScratch (c₂.withParams params) = _ := mirrors_allocateScratch _ _ second
  have part : Part (.node (.times count body) want) c _ (.block body) c₃ :=
    .timesBody amount first second
  obtain ⟨slots, -, rfl⟩ := allocateScratch_ok first
  obtain ⟨slots', -, rfl⟩ := allocateScratch_ok second
  have entered := refits.tidy.enter
  have refits' : (Task.node (.times count body) want).Refits params c c' :=
    { refits with fits := ⟨refits.fits.places, refits.fits.types⟩ }
  have within := refits'.part part (((amount.tidy entered).addScratch threshold).addScratch counter)
    (amount.inside entered refits.inside) trivial
  have fits₃ := refits'.fits.yields inner within.tidy trivial
  refine .times (c := c.withParams params)
    (counted ⟨entered, trivial, refits.inside, ⟨fits₃.places, fits₃.types⟩, ?_⟩ fun _ => rfl)
    scratch scratch' (round within fun _ => rfl)
  exact refits.consistent.part .timesCount

theorem call {name : String} {args : List Node} {callee : Callee}
    (found : Callee.find name c = .ok (callee, c)) (arity : callee.arity = args.length)
    (given : Yields (.arguments callee 0 args) c x c₁)
    (finished : finishCall callee x.code want c₁ = .ok (y, c'))
    (arguments : Repeats params (.arguments callee 0 args) c x c₁) :
    Repeats params (.node (.call name args) want) c y c' := by
  intro refits _
  have assumes := (finishCall_ok finished).2.2
  have fits₁ := refits.fits.retyped assumes.retyped assumes.paramTypes
  have refits₁ : (Task.node (.call name args) want).Refits params c c₁ :=
    { refits with fits := fits₁ }
  have range : (Task.arguments callee 0 args).InRange := by simp [Task.InRange, arity]
  refine .call (find_withParams found) ?_
    (arguments (refits₁.first (.call found) range) fun _ => rfl)
    (mirrors_finishCall callee x.code want y c' finished)
  cases callee with
  | drafted draft =>
    have places := (fits₁.yields given refits.tidy range).places draft (find_ok found).1.1
    have lengths := congrArg List.length places
    rw [List.length_map, List.length_map] at lengths
    exact lengths.trans arity
  | defined procedure => exact arity
  | host name signature => exact arity

section Arguments

variable {callee : Callee} {position : Nat} {a : Node} {more : List Node} {found : Ty}
  (refits : (Task.arguments callee position (a :: more)).Refits params c c')
  (typed : x.type = some found)
include refits typed

theorem argument_typed (fits₁ : c₁.Fits params)
    (wanted : callee.expected position c = .ok (some type, c))
    (argument : Yields (.value a (some type) (.argument (position + 1) callee.name)) c x c₁)
    (first : Repeats params (.value a (some type) (.argument (position + 1) callee.name)) c x c₁)
    (later :
      Yields (.arguments (callee.withParams params) (position + 1) more) (c₁.withParams params) y
      (c'.withParams params)) :
    Yields (.arguments (callee.withParams params) position (a :: more)) (c.withParams params)
      ⟨none, x.code ++ y.code.shift x.code.size⟩ (c'.withParams params) := by
  have refits₁ : (Task.arguments callee position (a :: more)).Refits params c c₁ :=
    { refits with fits := fits₁ }
  have again := first (refits₁.first (.firstArgument wanted) trivial) fun _ => rfl
  refine .moreArguments ((fits₁.yields argument refits.tidy trivial).expected refits.inside wanted)
    ?_ typed rfl later
  rw [Callee.name_withParams]
  exact again

/-- A parameter of the procedure itself whose type is open gets the type of the argument. -/
theorem argument_open (fits₂ : c₂.Fits params) (wanted : callee.expected position c = .ok (none, c))
    (argument : Yields (.value a none (.argument (position + 1) callee.name)) c x c₁)
    (resolved : resolveParam position found c₁ = .ok ((), c₂))
    (first : Repeats params (.value a none (.argument (position + 1) callee.name)) c x c₁)
    (later :
      Yields (.arguments (callee.withParams params) (position + 1) more) (c₂.withParams params) y
      (c'.withParams params)) :
    Yields (.arguments (callee.withParams params) position (a :: more)) (c.withParams params)
      ⟨none, x.code ++ y.code.shift x.code.size⟩ (c'.withParams params) := by
  have inRange : position + (more.length + 1) ≤ callee.arity := refits.inRange
  obtain ⟨draft, rfl⟩ := expected_open (by omega) wanted
  have fits₁ : c₁.Fits params := fits₂.resolve resolved fun inner known => by
    apply Decidable.byContradiction
    intro differs
    exact refits.consistent 0 _ c .here (.passed wanted argument known typed differs)
  have refits₁ : (Task.arguments (.drafted draft) position (a :: more)).Refits params c c₁ :=
    { refits with fits := fits₁ }
  have again := first (refits₁.first (.firstArgument wanted) trivial) fun _ => rfl
  rw [resolveParam_withParams resolved] at later
  have wanted' :
      (Callee.drafted (draft.withParams params)).expected position (c.withParams params) = _ :=
    expected_withParams
  cases here : params[position]? with
  | none =>
    rw [here] at wanted'
    exact .moreArguments wanted' again typed
      (resolveParam_outside (List.getElem?_eq_none_iff.mp here)) later
  | some other =>
    have bound := (List.getElem?_eq_some_iff.mp here).1
    rw [fits₁.length (argument.inside refits.tidy refits.inside)] at bound
    have final := fits₂.resolved resolved (List.getElem?_eq_getElem bound) here
    rw [here, Option.bind_some, final] at wanted'
    exact .moreArguments wanted' (again.value_wanted typed) typed rfl later

end Arguments

theorem moreArguments {callee : Callee} {position : Nat} {a : Node} {more : List Node} {found : Ty}
    {expected : Option Ty} (wanted : callee.expected position c = .ok (expected, c))
    (argument : Yields (.value a expected (.argument (position + 1) callee.name)) c x c₁)
    (typed : x.type = some found)
    (resolved :
      (if expected.isNone then resolveParam position found else pure ()) c₁ = .ok ((), c₂))
    (others : Yields (.arguments callee (position + 1) more) c₂ y c')
    (first : Repeats params (.value a expected (.argument (position + 1) callee.name)) c x c₁)
    (rest : Repeats params (.arguments callee (position + 1) more) c₂ y c') :
    Repeats params (.arguments callee position (a :: more)) c
      ⟨none, x.code ++ y.code.shift x.code.size⟩ c' := by
  intro refits _
  have settled := settleOpen_retyped resolved
  have tidy₂ := settled.steady.tidy (argument.tidy refits.tidy)
  have inside₂ : c₂.draft.isSome := by
    rw [settled.steady.draft.isSome_eq]
    exact argument.inside refits.tidy refits.inside
  have range : (Task.arguments callee (position + 1) more).InRange := by
    have inRange : position + (more.length + 1) ≤ callee.arity := refits.inRange
    simp only [Task.InRange]
    omega
  have fits₂ := refits.fits.yields others tidy₂ range
  have part : Part (.arguments callee position (a :: more)) c x.code.size _ c₂ :=
    .moreArguments wanted argument typed resolved
  have later := rest (refits.part part tidy₂ inside₂ range) fun _ => rfl
  cases expected with
  | some type =>
    simp only [Option.isNone_some, Bool.false_eq_true, if_false, pure_eq_ok, Prod.mk.injEq,
      true_and] at resolved
    subst resolved
    exact argument_typed refits typed fits₂ wanted argument first later
  | none =>
    simp only [Option.isNone_none, if_true] at resolved
    exact argument_open refits typed fits₂ wanted argument resolved first later

theorem moreStatements {n : Node} {more : List Node} {code : Fragment}
    (statement : Yields (.node n none) c x c₁) (finished : finishStatement n x c₁ = .ok (code, c₂))
    (others : Yields (.statements more) c₂ y c') (first : Repeats params (.node n none) c x c₁)
    (rest : Repeats params (.statements more) c₂ y c') :
    Repeats params (.statements (n :: more)) c ⟨none, code ++ y.code.shift code.size⟩ c' := by
  intro refits _
  have settled := (finishStatement_steady finished).grows.of_prior
  have tidy₂ := settled.tidy (statement.tidy refits.tidy)
  have fits₁ : c₁.Fits params := (refits.fits.yields others tidy₂ trivial).before
    (.of_eq (finishStatement_paramTypes finished)) settled.draft
  have inside₂ : c₂.draft.isSome := by
    rw [settled.draft.isSome_eq]
    exact statement.inside refits.tidy refits.inside
  have refits₁ : (Task.statements (n :: more)).Refits params c c₁ := { refits with fits := fits₁ }
  refine .moreStatements (first (refits₁.first .firstStatement trivial) ?_)
    (mirrors_finishStatement n x code c₂ finished)
    (rest (refits.part (.moreStatements statement finished) tidy₂ inside₂ trivial) fun _ => rfl)
  intro isOpen
  obtain ⟨type, between, -, ⟨typed, -⟩ | ⟨-, -, -, name, args, rfl⟩, -⟩ :=
    finishStatement_ok finished
  · rw [isOpen] at typed
    cases typed
  · rfl

end Task.Repeats

/-- A body that is compiled with the types that are found for its parameters gives the same code, if
no type was replaced. -/
theorem Yields.repeats {params : List (Parameter (Option Ty))} {task : Task} {c c' : Compiler}
    {x : Compiled} (derivation : Yields task c x c') : task.Repeats params c x c' := by
  induction derivation with
  | literal passes => exact fun _ _ => .literal passes
  | unary _ operand =>
    exact fun refits _ => .unary (operand (refits.first .unary trivial) fun _ => rfl)
  | arith left right first second =>
    intro refits _
    have refits₁ := refits.upTo (left.tidy refits.tidy) right trivial
    exact .arith (first (refits₁.first .arithLeft trivial) fun _ => rfl)
      (second (refits.next left (.arithRight left) trivial) fun _ => rfl)
  | order left right first second =>
    intro refits _
    have refits₁ := refits.upTo (left.tidy refits.tidy) right trivial
    exact .order (first (refits₁.first .orderLeft trivial) fun _ => rfl)
      (second (refits.next left (.orderRight left) trivial) fun _ => rfl)
  | logic left right first second =>
    intro refits _
    have refits₁ := refits.upTo (left.tidy refits.tidy) right trivial
    exact .logic (first (refits₁.first .logicLeft trivial) fun _ => rfl)
      (second (refits.next left (.logicRight left) trivial) fun _ => rfl)
  | @comparison op i a b want c x c₁ y c₂ c' compares left leftValue right rightValue agreed
      first second =>
    intro refits _
    cases known : x.type with
    | some type =>
      rw [known] at right agreed second
      exact Task.Repeats.comparison_typed compares refits left known leftValue right
        rightValue agreed first second
    | none =>
      rw [known] at right agreed second
      obtain ⟨type, typed, settled⟩ := agree_open agreed
      cases a with
      | call name args =>
        exact Task.Repeats.comparison_call compares refits left rfl known leftValue right
          rightValue typed settled first second
      | var name =>
        exact Task.Repeats.comparison_param compares refits left rfl known right rightValue
          typed settled second
      | _ => simp [settle] at settled
  | result available found => exact fun _ _ => .result available (mirrors_resultSlot _ _ found)
  | var found => exact .var found
  | @declare name _ _ _ c _ _ _ c' _ fresh allocated start typed initial =>
    intro refits _
    have later : allocate (c.withParams params) = _ := mirrors_allocate _ _ allocated
    obtain ⟨slots, -, rfl⟩ := allocate_ok allocated
    have refits' : Task.Refits params _ c c' :=
      { refits with fits := ⟨refits.fits.places, refits.fits.types⟩ }
    have started := refits'.fits.yields start refits.tidy trivial
    have fits₁ : c.Fits params := ⟨started.places, started.types⟩
    exact .declare ((fits₁.isVisible name).trans fresh) later
      (initial (refits'.part (.declare allocated) refits.tidy refits.inside trivial) fun _ => rfl)
      typed
  | @assignParam _ _ _ _ _ param _ _ _ _ isParam value typed resolved given =>
    intro refits _
    cases known : param.type with
    | some type =>
      simp only [known, Option.isNone_some, Bool.false_eq_true, if_false, pure_eq_ok, Prod.mk.injEq,
        true_and] at resolved
      subst resolved
      rw [known] at value given
      exact Task.Repeats.assign_typed refits isParam typed known value given
    | none =>
      simp only [known, Option.isNone_none, if_true] at resolved
      rw [known] at value given
      exact Task.Repeats.assign_open refits isParam typed known value given resolved
  | assignVariable noParam isVariable value given =>
    intro refits _
    exact .assignVariable ((refits.fits.yields value refits.tidy trivial).param?_eq_none noParam)
      isVariable (given (refits.first (.assignVariable noParam isVariable) trivial) fun _ => rfl)
  | branch test body condition inner =>
    intro refits _
    have refits₁ := refits.upTo (test.tidy refits.tidy) body trivial
    exact .branch (condition (refits₁.first .branchTest trivial) fun _ => rfl)
      (inner (refits.next test (.branchBody test) trivial) fun _ => rfl)
  | alternative test body other condition inner otherwise =>
    intro refits _
    have tidy₁ := test.tidy refits.tidy
    have tidy₂ := body.tidy tidy₁
    have inside₁ := test.inside refits.tidy refits.inside
    have refits₂ := refits.upTo tidy₂ other trivial
    have refits₁ := refits₂.upTo tidy₁ body trivial
    exact .alternative (condition (refits₁.first .branchTest trivial) fun _ => rfl)
      (inner (refits₂.next test (.branchBody test) trivial) fun _ => rfl)
      (otherwise (refits.part (.branchOther test body) tidy₂ (body.inside tidy₁ inside₁) trivial)
        fun _ => rfl)
  | loop test body condition inner =>
    intro refits _
    have refits₁ := refits.upTo (test.tidy refits.tidy) body trivial
    exact .loop (condition (refits₁.first .loopTest trivial) fun _ => rfl)
      (inner (refits.next test (.loopBody test) trivial) fun _ => rfl)
  | times count first second body amount inner => exact .times count first second body amount inner
  | call found arity given finished arguments => exact .call found arity given finished arguments
  | define started =>
    intro refits _
    have inside := refits.inside
    rw [draft_outside (startDraft_ok started).1] at inside
    cases inside
  | convert _ typed filled converts value =>
    intro refits _
    exact .convert (value (refits.first .convert trivial) (by simp [typed])) typed filled converts
  | @giveBack _ _ c draft _ c₁ c' found within given typed noted value =>
    intro refits _
    have declared := ((given.growth refits.tidy).2 trivial).declared within
    have fits₁ := refits.fits.retyped (noteReturn_ok noted declared) (noteReturn_paramTypes noted)
    have refits₁ : Task.Refits params _ c c₁ := { refits with fits := fits₁ }
    refine .giveBack ?_ (value (refits₁.first (.giveBack within) trivial) fun _ => rfl) typed
      (mirrors_noteReturn draft found _ c' noted)
    rw [draft_withParams, within]
    rfl
  | literals all passes => exact fun _ _ => .literals all passes
  | list mixed short _ items =>
    exact fun refits _ =>
      .list mixed short (items (refits.first (.list mixed) trivial) fun _ => rfl)
  | item filled list index items place =>
    intro refits _
    have refits₁ := refits.upTo (list.tidy refits.tidy) index trivial
    exact .item filled (items (refits₁.first .itemList trivial) fun _ => rfl)
      (place (refits.next list (.itemIndex list) trivial) fun _ => rfl)
  | setItem list found index item items place value =>
    intro refits _
    have tidy₁ := list.tidy refits.tidy
    have tidy₂ := index.tidy tidy₁
    have inside₁ := list.inside refits.tidy refits.inside
    have refits₂ := refits.upTo tidy₂ item trivial
    have refits₁ := refits₂.upTo tidy₁ index trivial
    exact .setItem (items (refits₁.first .setItemList trivial) fun _ => rfl)
      ((refits₁.fits.slot? _).trans found)
      (place (refits₂.next list (.setItemIndex list) trivial) fun _ => rfl)
      (value (refits.part (.setItemValue list index) tidy₂ (index.inside tidy₁ inside₁) trivial)
        fun _ => rfl)
  | operand inner expected node =>
    intro refits _
    obtain ⟨typed, rfl⟩ := expect_wanted inner expected
    exact .operand (node (refits.first .operand trivial) (by simp [typed]))
      (by simp [expect, typed])
  | valueOf inner expected filled node =>
    intro refits _
    obtain ⟨typed, rfl⟩ := expect_wanted inner expected
    exact .valueOf (node (refits.first .value trivial) (by simp [typed]))
      (by simp [expect, typed]) filled
  | valueFound _ typed filled node =>
    intro refits _
    exact .valueFound (node (refits.first .value trivial) (by simp [typed])) typed filled
  | initialValue _ value =>
    exact fun refits _ => .initialValue (value (refits.first .initial trivial) fun _ => rfl)
  | initialDefault default passes => exact fun _ _ => .initialDefault default passes
  | giveNothing => exact fun _ _ => .giveNothing
  | giveDeclared declared _ value =>
    intro refits _
    exact .giveDeclared declared
      (value (refits.first (.giveDeclared declared) trivial) fun _ => rfl)
  | giveFound undeclared _ typed filled node =>
    intro refits _
    exact .giveFound undeclared
      (node (refits.first (.giveFound undeclared) trivial) (by simp [typed])) typed filled
  | noArguments => exact fun _ _ => .noArguments
  | moreArguments wanted argument typed resolved others first rest =>
    exact .moreArguments wanted argument typed resolved others first rest
  | noItems => exact fun _ _ => .noItems
  | moreItems item more first rest =>
    intro refits _
    have refits₁ := refits.upTo (item.tidy refits.tidy) more trivial
    exact .moreItems (first (refits₁.first .firstItem trivial) fun _ => rfl)
      (rest (refits.next item (.moreItems item) trivial) fun _ => rfl)
  | noStatements => exact fun _ _ => .noStatements
  | moreStatements statement finished others first rest =>
    exact .moreStatements statement finished others first rest
  | @block _ c _ _ _ inner =>
    intro refits _
    exact .block (c := c.withParams params) (inner ⟨refits.tidy.enter, trivial, refits.inside,
      ⟨refits.fits.places, refits.fits.types⟩, refits.consistent.part .block⟩ fun _ => rfl)

end Primer
