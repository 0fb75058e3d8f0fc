import Primer.Proofs.Compilation.Growth

/-!
The types of parameters. While a procedure is compiled, the types of parameters that were left open
are found from how the body uses them. A type that is known is never changed by a later part of the
program, and no parameter is found to be void.
-/

set_option autoImplicit false
set_option relaxedAutoImplicit false

namespace Primer

/-- What is known of the types of the parameters, if a procedure is being compiled. -/
def Compiler.paramTypes (c : Compiler) : List (Option Ty) :=
  (c.draft.map fun draft => draft.params.map (·.type)).getD []

/-- The types of parameters that are known stay as they are. -/
def Compiler.Settles (before after : Compiler) : Prop :=
  ∀ (i : Nat) (type : Ty), before.paramTypes[i]? = some (some type) →
    after.paramTypes[i]? = some (some type)

namespace Compiler

variable {c c₁ c₂ c' : Compiler}

theorem Settles.refl (c : Compiler) : c.Settles c := fun _ _ => id

theorem Settles.trans (one : c.Settles c₁) (two : c₁.Settles c₂) : c.Settles c₂ :=
  fun i type known => two i type (one i type known)

theorem Settles.of_eq (same : c₁.paramTypes = c.paramTypes) : c.Settles c₁ := by
  intro i type known
  rwa [same]

/-- A type may be found as long as it is open. -/
theorem Settles.resolve (settles : c.Settles c₁) {position : Nat} {found : Ty}
    (unknown : ∀ type, c.paramTypes[position]? ≠ some (some type))
    (done : Compile.resolveParam position found c₁ = .ok ((), c')) : c.Settles c' := by
  intro i type known
  have later := settles i type known
  have other : position ≠ i := fun same => unknown type (same ▸ known)
  have now := Compile.resolveParam_draft done
  cases inside : c₁.draft with
  | none => simp [paramTypes, inside] at later
  | some draft =>
    rw [inside] at now
    simp only [paramTypes, inside, now, Option.map_some, Option.getD_some, Draft.resolve,
      List.getElem?_map, List.getElem?_modify, other, if_false] at later ⊢
    simpa using later

end Compiler

namespace Draft

/-- A parameter keeps its position. -/
theorem Continues.find? {before after : Draft} (kept : before.Continues after) {name : String}
    {position : Nat} {param : Parameter (Option Ty)}
    (found : before.find? name = some (position, param)) :
    ∃ other, after.find? name = some (position, other) := by
  have names : after.params.map (·.name) = before.params.map (·.name) := by
    have whole := congrArg (List.map Prod.fst) kept.params
    simpa only [List.map_map, Function.comp_def] using whole
  have index := (index?_congr names name).trans (find?_eq_some.mp found).1
  obtain ⟨other, there⟩ := getElem?_of_index? index
  exact ⟨other, find?_eq_some.mpr ⟨index, there⟩⟩

end Draft

namespace Compiler

variable {c c' : Compiler}

theorem paramTypes_param {name : String} {position : Nat} {param : Parameter (Option Ty)}
    (found : c.param? name = some (position, param)) :
    c.paramTypes[position]? = some param.type := by
  obtain ⟨draft, inside, found⟩ := Option.bind_eq_some_iff.mp found
  rw [paramTypes, inside]
  simp [(Draft.find?_eq_some.mp found).2]

theorem Grows.param? (grows : c.Grows c') {name : String} {position : Nat}
    {param : Parameter (Option Ty)} (found : c.param? name = some (position, param)) :
    ∃ other, c'.param? name = some (position, other) := by
  obtain ⟨draft, inside, found⟩ := Option.bind_eq_some_iff.mp found
  have kept := grows.draft
  rw [inside] at kept
  cases later : c'.draft with
  | none => rw [later] at kept; exact kept.elim
  | some now =>
    rw [later] at kept
    rw [Compiler.param?, later]
    exact kept.find? found

end Compiler

namespace Compile

open Compiler

variable {c c₁ c' : Compiler}

theorem paramTypes_redraft {f : Draft → Draft} (name : ∀ draft, (f draft).name = draft.name)
    (params : ∀ draft, (f draft).params = draft.params) :
    (c.redraft f).paramTypes = c.paramTypes := by
  rw [paramTypes, draft_redraft name]
  cases inside : c.draft with
  | none => simp [paramTypes, inside]
  | some draft => simp [paramTypes, inside, params]

theorem noteReturn_paramTypes {draft : Draft} {type : Ty}
    (done : noteReturn draft type c = .ok ((), c')) : c'.paramTypes = c.paramTypes := by
  unfold noteReturn at done
  by_cases declared : draft.declared
  · by_cases same : draft.returns = some type
    · simp only [declared, same, ne_eq, not_true, if_true, if_false, pure_eq_ok, Prod.mk.injEq,
        true_and] at done
      rw [done]
    · simp [declared, same] at done
  · simp only [declared, Bool.false_eq_true, if_false, modifyDraft, modify_eq_ok, Prod.mk.injEq,
      true_and] at done
    rw [done]
    exact paramTypes_redraft (fun _ => rfl) fun _ => rfl

theorem resultSlot_paramTypes {slot : UInt8} (done : resultSlot c = .ok (slot, c')) :
    c'.paramTypes = c.paramTypes := by
  rcases resultSlot_ok done with
    ⟨-, -, rfl⟩ | ⟨draft, -, -, rfl⟩ | ⟨draft, slots, inside, -, -, rfl⟩
  · rfl
  · rfl
  · rw [paramTypes, paramTypes, inside, draft_resultSlot inside]
    rfl

theorem Assumes.paramTypes (assumes : Assumes c c') : c'.paramTypes = c.paramTypes := by
  rcases assumes with rfl | ⟨type, assumed⟩
  · rfl
  · rw [assumeReturn_eq assumed]
    exact paramTypes_redraft (fun _ => rfl) fun _ => rfl

theorem finishStatement_paramTypes {n : Node} {x : Compiled} {code : Fragment}
    (done : finishStatement n x c = .ok (code, c')) : c'.paramTypes = c.paramTypes := by
  obtain ⟨type, between, assumes, -, ⟨-, -, rfl⟩ | ⟨slot, after, -, found, -, rfl⟩⟩ :=
    finishStatement_ok done
  · exact assumes.paramTypes
  · exact (resultSlot_paramTypes found).trans assumes.paramTypes

/-- What is settled after a node was compiled was open before it. -/
theorem settle_settles {n : Node} {want : Option Ty} {x : Compiled} {type : Ty} {c₂ : Compiler}
    (derivation : Yields (.node n want) c x c₁) (unknown : x.type = none) (grows : c.Grows c₂)
    (settles : c.Settles c₂) (done : settle n type c₂ = .ok ((), c')) : c.Settles c' := by
  simp only [settle, get_bind] at done
  cases n with
  | var name =>
    cases derivation with
    | var found =>
      rcases reference_ok found with ⟨position, param, isParam, -, -⟩ | ⟨_, -, -, rfl, -⟩
      · obtain ⟨other, later⟩ := grows.param? isParam
        simp only [paramIndex?_of_param later] at done
        refine settles.resolve (fun type known => ?_) done
        rw [paramTypes_param isParam] at known
        rcases (reference_param isParam found).2 with ⟨same, -⟩ | ⟨_, _, _, given, _⟩
        · cases unknown.symm.trans (same.trans (Option.some.inj known))
        · rw [given] at unknown
          cases unknown
      · cases unknown
  | call name args =>
    by_cases drafting : c₂.drafting name
    · simp only [drafting, if_true] at done
      exact settles.trans (.of_eq (Assumes.paramTypes (.inr ⟨_, done⟩)))
    · simp [drafting] at done
  | _ => simp at done

theorem expect_settles {n : Node} {x : Compiled} {want : Option Ty} {type : Ty} {role : Role}
    (derivation : Yields (.node n want) c x c₁) (grows : c.Grows c₁) (settles : c.Settles c₁)
    (done : expect n x.type type role c₁ = .ok ((), c')) : c.Settles c' := by
  rcases (expect_ok done).2 with ⟨-, rfl⟩ | ⟨unknown, settled⟩
  · exact settles
  · exact settle_settles derivation unknown grows settles settled

theorem agree_settles {op : BinaryOp} {a b : Node} {first second : Option Ty} {x y : Compiled}
    {c₂ : Compiler} (left : Yields (.node a first) c x c₁) (right : Yields (.node b second) c₁ y c₂)
    (grows : c.Grows c₁) (grows' : c₁.Grows c₂) (settles : c.Settles c₁) (settles' : c₁.Settles c₂)
    (done : agree op a b x.type y.type c₂ = .ok ((), c')) : c.Settles c' := by
  unfold agree at done
  cases known : x.type with
  | none =>
    cases known' : y.type with
    | none => simp [known, known'] at done
    | some type =>
      simp only [known, known'] at done
      exact settle_settles left known (grows.trans grows') (settles.trans settles') done
  | some type =>
    cases known' : y.type with
    | none =>
      simp only [known, known'] at done
      exact settles.trans (settle_settles right known' grows' settles' done)
    | some type' =>
      by_cases same : type = type'
      · simp only [known, known', same, if_true, pure_eq_ok, Prod.mk.injEq, true_and] at done
        exact done ▸ settles.trans settles'
      · simp [known, known', same] at done

/-- A type that is found for a parameter was open. -/
theorem settleOpen_settles {known : Option Ty} {position : Nat} {type : Ty}
    (settles : c.Settles c₁)
    (here : ∀ found, c.paramTypes[position]? = some (some found) → known.isSome)
    (done : (if known.isNone then resolveParam position type else pure ()) c₁ = .ok ((), c')) :
    c.Settles c' := by
  cases known with
  | none => exact settles.resolve (fun found given => by cases here found given) done
  | some found =>
    simp only [Option.isNone_some, Bool.false_eq_true, if_false, pure_eq_ok, Prod.mk.injEq,
      true_and] at done
    exact done ▸ settles

/-- While arguments in range are compiled, a known type of a parameter is expected. -/
theorem expected_isSome {callee : Callee} {position : Nat} {expected : Option Ty}
    (inRange : position < callee.arity) (wanted : callee.expected position c = .ok (expected, c))
    {found : Ty} (known : c.paramTypes[position]? = some (some found)) : expected.isSome := by
  unfold Callee.expected at wanted
  cases callee with
  | drafted draft =>
    simp only [get_bind, pure_eq_ok, Prod.mk.injEq] at wanted
    cases inside : c.draft with
    | none => simp [paramTypes, inside] at known
    | some now =>
      simp only [paramTypes, inside, Option.map_some, Option.getD_some, List.getElem?_map,
        Option.map_eq_some_iff] at known
      obtain ⟨param, here, typed⟩ := known
      rw [wanted.1, inside, Option.getD_some, here]
      simp [typed]
  | defined procedure =>
    simp only [pure_eq_ok, Prod.mk.injEq] at wanted
    rw [wanted.1, Option.isSome_map, List.getElem?_eq_getElem inRange]
    rfl
  | host name signature =>
    simp only [pure_eq_ok, Prod.mk.injEq] at wanted
    rw [wanted.1, List.getElem?_eq_getElem inRange]
    rfl

end Compile

open Compile Compiler

/-- The arguments are those of parameters from a position on. -/
def Task.InRange : Task → Prop
  | .arguments callee position nodes => position + nodes.length ≤ callee.arity
  | _ => True

/-- No task changes the type of a parameter that is known. -/
theorem Yields.settles {task : Task} {c c' : Compiler} {x : Compiled}
    (derivation : Yields task c x c')
    (tidy : c.scope.Tidy) (inRange : task.InRange) : c.Settles c' := by
  induction derivation with
  | literal | literals | initialDefault | giveNothing | noArguments | noItems | noStatements =>
    exact .refl _
  | unary _ operand => exact operand tidy trivial
  | arith left _ first second | order left _ first second | logic left _ first second =>
    exact (first tidy trivial).trans (second (left.tidy tidy) trivial)
  | comparison _ left leftValue right rightValue agreed first second =>
    have tidy₁ := left.tidy tidy
    exact agree_settles left right (left.grows tidy) (right.grows tidy₁) (first tidy trivial)
      (second tidy₁ trivial) agreed
  | result _ found => exact .of_eq (resultSlot_paramTypes found)
  | var found =>
    rcases reference_ok found with ⟨position, param, isParam, -, -⟩ | ⟨_, _, _, _, rfl⟩
    · rcases (reference_param isParam found).2 with ⟨-, rfl⟩ | ⟨unknown, type, -, -, resolved⟩
      · exact .refl _
      · refine (Settles.refl _).resolve (fun type known => ?_) resolved
        rw [paramTypes_param isParam, unknown] at known
        cases known
    · exact .refl _
  | declare _ allocated _ _ start =>
    obtain ⟨slots, -, rfl⟩ := allocate_ok allocated
    exact start tidy trivial
  | assignParam isParam _ _ resolved value =>
    refine settleOpen_settles (value tidy trivial) (fun found known => ?_) resolved
    rw [paramTypes_param isParam] at known
    rw [Option.some.inj known]
    rfl
  | assignVariable _ _ _ value => exact value tidy trivial
  | branch test _ condition inner | loop test _ condition inner =>
    exact (condition tidy trivial).trans (inner (test.tidy tidy) trivial)
  | alternative test body _ condition inner otherwise =>
    have tidy₁ := test.tidy tidy
    exact ((condition tidy trivial).trans (inner tidy₁ trivial)).trans
      (otherwise (body.tidy tidy₁) trivial)
  | @times _ _ _ _ _ _ threshold _ counter _ _ _ count first second _ amount inner =>
    obtain ⟨slots, -, rfl⟩ := allocateScratch_ok first
    obtain ⟨slots', -, rfl⟩ := allocateScratch_ok second
    have tidy₁ := ((count.tidy tidy.enter).addScratch threshold).addScratch counter
    exact Settles.trans (amount tidy.enter trivial) (inner tidy₁ trivial)
  | call _ arity _ finished given =>
    exact (given tidy (by simp [Task.InRange, arity])).trans
      (.of_eq (finishCall_ok finished).2.2.paramTypes)
  | define started =>
    obtain ⟨outside, -⟩ := startDraft_ok started
    intro i type known
    simp [paramTypes, draft_outside outside] at known
  | convert _ _ _ _ value => exact value tidy trivial
  | giveBack _ _ _ noted given =>
    exact (given tidy trivial).trans (.of_eq (noteReturn_paramTypes noted))
  | list _ _ _ items => exact items tidy trivial
  | item _ list _ items place => exact (items tidy trivial).trans (place (list.tidy tidy) trivial)
  | setItem list _ index _ items place value =>
    have tidy₁ := list.tidy tidy
    exact ((items tidy trivial).trans (place tidy₁ trivial)).trans
      (value (index.tidy tidy₁) trivial)
  | operand inner expected node | valueOf inner expected _ node =>
    exact expect_settles inner (inner.grows tidy) (node tidy trivial) expected
  | valueFound _ _ _ node | giveFound _ _ _ _ node | initialValue _ node | giveDeclared _ _ node =>
    exact node tidy trivial
  | moreArguments wanted argument _ resolved more first rest =>
    simp only [Task.InRange, List.length_cons] at inRange
    have settled := settleOpen_settles (first tidy trivial)
      (fun found => expected_isSome (by omega) wanted) resolved
    have tidy₁ := (settleOpen_retyped resolved).steady.tidy (argument.tidy tidy)
    exact settled.trans (rest tidy₁ (by simp only [Task.InRange]; omega))
  | moreItems item _ first rest => exact (first tidy trivial).trans (rest (item.tidy tidy) trivial)
  | moreStatements statement finished _ first rest =>
    have tidy₁ := (finishStatement_steady finished).grows.of_prior.tidy (statement.tidy tidy)
    exact ((first tidy trivial).trans (.of_eq (finishStatement_paramTypes finished))).trans
      (rest tidy₁ trivial)
  | block _ inner => exact inner tidy.enter trivial

/-- No parameter is known to be void. -/
def Compiler.Filled (c : Compiler) : Prop := ∀ i : Nat, c.paramTypes[i]? ≠ some (some Ty.void)

theorem Compiler.Filled.of_eq {c c' : Compiler} (filled : c.Filled)
    (same : c'.paramTypes = c.paramTypes) : c'.Filled := by
  intro i
  rw [same]
  exact filled i

namespace Compile

variable {c c' : Compiler}

theorem resolveParam_filled {position : Nat} {type : Ty}
    (done : resolveParam position type c = .ok ((), c')) (value : type ≠ .void)
    (filled : c.Filled) : c'.Filled := by
  have now := resolveParam_draft done
  intro i void
  have before := filled i
  cases inside : c.draft with
  | none => simp [paramTypes, now, inside] at void
  | some draft =>
    rw [inside] at now
    simp only [paramTypes, inside, now, Option.map_some, Option.getD_some, Draft.resolve,
      List.getElem?_map, List.getElem?_modify] at void before
    cases here : draft.params[i]? with
    | none => simp [here] at void
    | some param =>
      by_cases same : position = i
      · simp [here, same, value] at void
      · simp only [here, same, if_false, Option.map_some] at void before
        exact before void

theorem Assumes.filled (assumes : Assumes c c') (filled : c.Filled) : c'.Filled :=
  filled.of_eq assumes.paramTypes

theorem settle_filled {n : Node} {type : Ty} (done : settle n type c = .ok ((), c'))
    (value : type ≠ .void) (filled : c.Filled) : c'.Filled := by
  simp only [settle, get_bind] at done
  cases n with
  | var name =>
    cases found : c.paramIndex? name with
    | none => simp [found] at done
    | some position =>
      simp only [found] at done
      exact resolveParam_filled done value filled
  | call name args =>
    by_cases drafting : c.drafting name
    · simp only [drafting, if_true] at done
      exact Assumes.filled (.inr ⟨_, done⟩) filled
    · simp [drafting] at done
  | _ => simp at done

theorem settleOpen_filled {p : Bool} {position : Nat} {type : Ty}
    (done : (if p then resolveParam position type else pure ()) c = .ok ((), c'))
    (value : type ≠ .void) (filled : c.Filled) : c'.Filled := by
  cases p with
  | true => exact resolveParam_filled done value filled
  | false =>
    simp only [Bool.false_eq_true, if_false, pure_eq_ok, Prod.mk.injEq, true_and] at done
    exact done ▸ filled

theorem agree_filled {op : BinaryOp} {a b : Node} {first second : Option Ty}
    (done : agree op a b first second c = .ok ((), c')) (left : first ≠ some .void)
    (right : second ≠ some .void) (filled : c.Filled) : c'.Filled := by
  unfold agree at done
  cases first with
  | none =>
    cases second with
    | none => simp at done
    | some type => exact settle_filled done (fun same => right (congrArg some same)) filled
  | some type =>
    cases second with
    | none => exact settle_filled done (fun same => left (congrArg some same)) filled
    | some type' =>
      by_cases same : type = type'
      · simp only [same, if_true, pure_eq_ok, Prod.mk.injEq, true_and] at done
        exact done ▸ filled
      · simp [same] at done

end Compile

/-- What is wanted of the task is not void. -/
def Task.WantsValue : Task → Prop
  | .node _ want => want ≠ some .void
  | .operand _ want _ => want ≠ .void
  | _ => True

theorem Yields.value_ne_void {n : Node} {expected : Option Ty} {role : Role} {c c' : Compiler}
    {x : Compiled} (derivation : Yields (.value n expected role) c x c') : x.type ≠ some .void := by
  cases derivation with
  | valueOf _ _ filled | valueFound _ _ filled => simpa using filled

theorem Yields.initial_ne_void {name : String} {type : Option Ty} {start : Option Node}
    {c c' : Compiler} {x : Compiled} (derivation : Yields (.initial name type start) c x c') :
    x.type ≠ some .void := by
  cases derivation with
  | initialValue inner => exact inner.value_ne_void
  | @initialDefault _ type _ _ default =>
    cases type <;> first | exact fun same => Ty.noConfusion (Option.some.inj same) | cases default

/-- No parameter is found to be void. -/
theorem Yields.filled {task : Task} {c c' : Compiler} {x : Compiled}
    (derivation : Yields task c x c')
    (wants : task.WantsValue) (filled : c.Filled) : c'.Filled := by
  induction derivation with
  | literal | literals | initialDefault | giveNothing | noArguments | noItems | noStatements =>
    exact filled
  | unary _ operand => exact operand (UnaryOp.type_ne_void _) filled
  | arith _ _ first second | order _ _ first second | logic _ _ first second =>
    exact second nofun (first nofun filled)
  | comparison _ _ leftValue _ rightValue agreed first second =>
    exact agree_filled agreed leftValue rightValue (second leftValue (first nofun filled))
  | result _ found => exact filled.of_eq (resultSlot_paramTypes found)
  | var found =>
    rcases reference_ok found with ⟨position, param, isParam, -, -⟩ | ⟨_, _, _, _, rfl⟩
    · rcases (reference_param isParam found).2 with ⟨-, rfl⟩ | ⟨-, type, rfl, -, resolved⟩
      · exact filled
      · exact resolveParam_filled resolved (fun same => wants (congrArg some same)) filled
    · exact filled
  | declare _ allocated _ _ start =>
    obtain ⟨slots, -, rfl⟩ := allocate_ok allocated
    exact start trivial filled
  | assignParam _ given typed resolved value =>
    refine settleOpen_filled resolved (fun same => given.value_ne_void ?_) (value trivial filled)
    rw [typed, same]
  | assignVariable _ _ _ value => exact value trivial filled
  | branch _ _ condition inner | loop _ _ condition inner =>
    exact inner trivial (condition nofun filled)
  | alternative _ _ _ condition inner otherwise =>
    exact otherwise trivial (inner trivial (condition nofun filled))
  | times _ first second _ amount inner =>
    obtain ⟨slots, -, rfl⟩ := allocateScratch_ok first
    obtain ⟨slots', -, rfl⟩ := allocateScratch_ok second
    exact inner trivial (amount nofun filled)
  | call _ _ _ finished given => exact (finishCall_ok finished).2.2.filled (given trivial filled)
  | define _ _ finished =>
    obtain ⟨draft, -, -, -, -, rfl⟩ := finishDraft_ok finished
    simp [Filled, paramTypes]
  | convert _ _ _ _ value => exact value nofun filled
  | giveBack _ _ _ noted given =>
    exact (given trivial filled).of_eq (noteReturn_paramTypes noted)
  | list _ _ _ items => exact items trivial filled
  | item _ _ _ items place => exact place nofun (items nofun filled)
  | setItem _ _ _ _ items place value => exact value trivial (place nofun (items nofun filled))
  | operand _ expected node =>
    have value : _ ≠ _ := wants
    have inner := node (fun same => value (Option.some.inj same)) filled
    rcases (expect_ok expected).2 with ⟨-, rfl⟩ | ⟨-, settled⟩
    · exact inner
    · exact settle_filled settled value inner
  | valueOf _ expected value node =>
    have inner := node (fun same => value (Option.some.inj same)) filled
    rcases (expect_ok expected).2 with ⟨-, rfl⟩ | ⟨-, settled⟩
    · exact inner
    · exact settle_filled settled value inner
  | valueFound _ _ _ node => exact node nofun filled
  | giveFound _ _ _ _ node =>
    refine node (fun same => ?_) filled
    have kept := (Option.filter_eq_some_iff.mp same).2
    simp at kept
  | initialValue _ node | giveDeclared _ _ node => exact node trivial filled
  | moreArguments _ argument typed resolved _ first rest =>
    refine rest trivial (settleOpen_filled resolved (fun same => argument.value_ne_void ?_)
      (first trivial filled))
    rw [typed, same]
  | moreItems _ _ first rest => exact rest trivial (first trivial filled)
  | moreStatements _ finished _ first rest =>
    exact rest trivial ((first nofun filled).of_eq (finishStatement_paramTypes finished))
  | block _ inner => exact inner trivial filled

/-- No variable is void, and no two of them have one name. -/
def Scope.Proper (scope : Scope) : Prop :=
  (∀ binding ∈ scope.bindings, binding.2.type ≠ .void) ∧ (scope.bindings.map (·.1)).Nodup

theorem Scope.Proper.declare {scope : Scope} (proper : scope.Proper) (name : String) {type : Ty}
    (slot : UInt8) (filled : type ≠ .void) : (scope.declare name type slot).Proper := by
  constructor
  · intro binding member
    rcases List.mem_cons.mp member with rfl | old
    · exact filled
    · exact proper.1 binding (List.mem_filter.mp old).1
  · refine List.nodup_cons.mpr ⟨fun member => ?_, proper.2.sublist (List.filter_sublist.map _)⟩
    obtain ⟨binding, kept, same⟩ := List.mem_map.mp member
    exact of_decide_eq_true (List.mem_filter.mp kept).2 same

/-- A variable is found by its name. -/
theorem Scope.Proper.find? {scope : Scope} (proper : scope.Proper) {name : String}
    {found : Variable}
    (member : (name, found) ∈ scope.bindings) : scope.find? name = some found := by
  obtain ⟨newer, older, split⟩ := List.append_of_mem member
  refine List.lookup_eq_some_iff.mpr ⟨newer, older, split, fun binding listed => ?_⟩
  have apart := proper.2
  rw [split, List.map_append, List.nodup_append] at apart
  simpa using (apart.2.2 binding.1 (List.mem_map_of_mem listed) name (by simp)).symm

theorem Yields.variables_node {n : Node} {want : Option Ty} {c c' : Compiler} {x : Compiled}
    (derivation : Yields (.node n want) c x c') (tidy : c.scope.Tidy) (proper : c.scope.Proper) :
    c'.scope.Proper := by
  cases introduces : n.introduces with
  | false => exact ((derivation.growth tidy).2 introduces).scope ▸ proper
  | true =>
    cases derivation with
    | declare fresh allocated initial typed =>
      obtain ⟨slots, -, rfl⟩ := allocate_ok allocated
      have same : _ = c.scope := ((initial.growth tidy).2 trivial).scope
      have filled : _ ≠ Ty.void := fun void =>
        initial.initial_ne_void (typed.trans (congrArg some void))
      exact (same ▸ proper).declare _ _ filled
    | define started inner finished =>
      obtain ⟨-, -, -, parameters, slots, -, -, rfl⟩ := startDraft_ok started
      obtain ⟨draft, -, -, -, -, rfl⟩ := finishDraft_ok finished
      exact ((inner.growth tidy).2 trivial).scope ▸ proper
    | _ => cases introduces

/-- No variable is declared to be void, and none takes the name of another. -/
theorem Yields.variables {task : Task} {c c' : Compiler} {x : Compiled}
    (derivation : Yields task c x c') (tidy : c.scope.Tidy) (wants : task.WantsValue)
    (proper : c.scope.Proper) : c'.scope.Proper := by
  have quiet : task.Quiet → c'.scope.Proper := fun quiet =>
    ((derivation.growth tidy).2 quiet).scope ▸ proper
  cases task with
  | node n want => exact derivation.variables_node tidy proper
  | operand n want role => exact quiet wants
  | statements nodes =>
    clear quiet
    induction nodes generalizing c x with
    | nil =>
      cases derivation
      exact proper
    | cons n more ih =>
      cases derivation with
      | moreStatements first finished rest =>
        have settled := finishStatement_steady finished
        have scope : _ = _ := settled.scope
        exact ih (settled.grows.of_prior.tidy (first.tidy tidy))
          (scope ▸ first.variables_node tidy proper) rest trivial
  | _ => exact quiet trivial

end Primer
