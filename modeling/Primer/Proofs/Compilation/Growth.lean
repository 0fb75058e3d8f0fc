import Primer.Proofs.Compilation.Derivation

/-!
How a task changes the state of the compiler. Expressions and blocks leave everything as it was but
what is found out about the procedure being compiled; declarations add variables of the current
depth; only definitions, which stand outside of blocks and procedures, add to the library.
-/

set_option autoImplicit false
set_option relaxedAutoImplicit false

namespace Primer

/-- A later state of the same draft. Its result slot may have been handed out in between. -/
structure Draft.Continues (before after : Draft) : Prop where
  name : after.name = before.name
  address : after.address = before.address
  params : after.params.map (fun p => (p.name, p.slot)) =
    before.params.map (fun p => (p.name, p.slot))
  declared : after.declared = before.declared
  resultSlot : ∀ slot, before.resultSlot = some slot → after.resultSlot = some slot
  returns : before.declared → ∀ type, before.returns = some type → after.returns = some type

namespace Draft

theorem Continues.refl (draft : Draft) : draft.Continues draft :=
  ⟨rfl, rfl, rfl, rfl, fun _ => id, fun _ _ => id⟩

theorem Continues.trans {first second third : Draft} (one : first.Continues second)
    (two : second.Continues third) : first.Continues third :=
  ⟨two.name.trans one.name, two.address.trans one.address, two.params.trans one.params,
    two.declared.trans one.declared,
    fun slot known => two.resultSlot slot (one.resultSlot slot known), fun declared type given =>
      two.returns (one.declared.trans declared) type (one.returns declared type given)⟩

theorem Retyped.continues {before after : Draft} (retyped : before.Retyped after) :
    before.Continues after :=
  ⟨retyped.name, retyped.address, retyped.params, retyped.declared,
    fun _ known => retyped.resultSlot.trans known, retyped.returns⟩

/-- Either nothing is being compiled, before and after, or one procedure is. -/
def Kept : Option Draft → Option Draft → Prop
  | none, none => True
  | some before, some after => before.Continues after
  | _, _ => False

theorem Kept.refl (draft : Option Draft) : Kept draft draft := by
  cases draft with
  | none => trivial
  | some draft => exact Continues.refl draft

theorem Kept.trans {first second third : Option Draft} (one : Kept first second)
    (two : Kept second third) : Kept first third := by
  cases first <;> cases second <;> cases third <;> simp only [Kept] at one two ⊢
  exact Continues.trans one two

theorem Kept.isSome_eq {before after : Option Draft} (kept : Kept before after) :
    after.isSome = before.isSome := by
  cases before <;> cases after <;> simp_all [Kept]

theorem Kept.eq_none {after : Option Draft} (kept : Kept none after) : after = none := by
  cases after <;> simp_all [Kept]

end Draft

/-- No variable and no scratch slot belongs to a depth beyond the current one. -/
structure Scope.Tidy (scope : Scope) : Prop where
  bindings : ∀ binding ∈ scope.bindings, binding.2.depth ≤ scope.depth
  scratch : ∀ cell ∈ scope.scratch, cell.2 ≤ scope.depth

namespace Scope

theorem Tidy.enter {scope : Scope} (tidy : scope.Tidy) : scope.enter.Tidy :=
  ⟨fun binding member => Nat.le_succ_of_le (tidy.bindings binding member),
    fun cell member => Nat.le_succ_of_le (tidy.scratch cell member)⟩

theorem Tidy.addScratch {scope : Scope} (tidy : scope.Tidy) (slot : UInt8) :
    (scope.addScratch slot).Tidy := by
  refine ⟨tidy.bindings, fun cell member => ?_⟩
  rcases List.mem_append.mp member with old | new
  · exact tidy.scratch cell old
  · rw [List.mem_singleton.mp new]
    exact Nat.le_refl _

/-- What was introduced since a scope was entered. -/
structure Opened (outer inner : Scope) (new : List (String × Variable))
    (extra : List (UInt8 × Nat)) : Prop where
  depth : inner.depth = outer.depth + 1
  bindings : inner.bindings = new ++ outer.bindings
  scratch : inner.scratch = outer.scratch ++ extra
  bindingDepths : ∀ binding ∈ new, binding.2.depth = outer.depth + 1
  scratchDepths : ∀ cell ∈ extra, cell.2 = outer.depth + 1

theorem filter_new_old {α : Type} {p : α → Bool} {new old : List α} (none : ∀ a ∈ new, p a = false)
    (all : ∀ a ∈ old, p a = true) : (new ++ old).filter p = old := by
  rw [List.filter_append, List.filter_eq_self.mpr all, List.filter_eq_nil_iff.mpr, List.nil_append]
  intro a member
  rw [none a member]
  exact Bool.false_ne_true

variable {outer inner : Scope} {new : List (String × Variable)} {extra : List (UInt8 × Nat)}

/-- Leaving a scope goes back to the one around it. -/
theorem Opened.leave_scope (opened : Opened outer inner new extra) (tidy : outer.Tidy) :
    inner.leave.2 = outer := by
  have named : inner.bindings.filter (·.2.depth ≤ outer.depth) = outer.bindings := by
    rw [opened.bindings]
    refine filter_new_old (fun binding member => ?_) (fun binding member => ?_)
    · rw [opened.bindingDepths binding member]
      simp
    · simpa using tidy.bindings binding member
  have unnamed : inner.scratch.filter (·.2 ≤ outer.depth) = outer.scratch := by
    rw [opened.scratch, List.filter_append, List.filter_eq_self.mpr, List.filter_eq_nil_iff.mpr,
      List.append_nil]
    · intro cell member
      rw [opened.scratchDepths cell member]
      simp
    · intro cell member
      simpa using tidy.scratch cell member
  simp only [leave, opened.depth, Nat.add_sub_cancel, named, unnamed]

/-- Leaving a scope gives up the slots that were introduced in it. -/
theorem Opened.leave_slots (opened : Opened outer inner new extra) (tidy : outer.Tidy) :
    inner.leave.1.Perm (new.map (·.2.slot) ++ extra.map (·.1)) := by
  have named : inner.bindings.filter (outer.depth < ·.2.depth) = new := by
    rw [opened.bindings, List.filter_append, List.filter_eq_self.mpr, List.filter_eq_nil_iff.mpr,
      List.append_nil]
    · intro binding member
      simpa using tidy.bindings binding member
    · intro binding member
      rw [opened.bindingDepths binding member]
      simp
  have unnamed : inner.scratch.filter (outer.depth < ·.2) = extra := by
    rw [opened.scratch]
    refine filter_new_old (fun cell member => ?_) (fun cell member => ?_)
    · simpa using tidy.scratch cell member
    · rw [opened.scratchDepths cell member]
      simp
  simp only [leave, slotsBeyond, opened.depth, Nat.add_sub_cancel, named, unnamed]
  exact List.mergeSort_perm _ _

/-- The two slots of a loop. -/
theorem opened_scratch (outer : Scope) (threshold counter : UInt8) :
    Opened outer ((outer.enter.addScratch threshold).addScratch counter) []
      [(threshold, outer.depth + 1), (counter, outer.depth + 1)] :=
  ⟨rfl, rfl, List.append_assoc _ _ _, by simp, by simp⟩

end Scope

/-- Nothing changed but what is known of the draft, and the slots. -/
structure Compiler.Steady (before after : Compiler) : Prop where
  hosts : after.hosts = before.hosts
  procedures : after.procedures = before.procedures
  library : after.library = before.library
  scope : after.scope = before.scope
  prior : after.prior = before.prior
  current : after.current = before.current
  draft : Draft.Kept before.draft after.draft

/-- Variables of the current depth may have been added, and procedures outside of blocks and
procedures. -/
structure Compiler.Grows (before after : Compiler) : Prop where
  hosts : after.hosts = before.hosts
  procedures : before.procedures <+: after.procedures
  library : before.library <+: after.library
  depth : after.scope.depth = before.scope.depth
  scratch : after.scope.scratch = before.scope.scratch
  bindings : ∃ new, after.scope.bindings = new ++ before.scope.bindings ∧
    ∀ binding ∈ new, binding.2.depth = before.scope.depth
  current : after.current = before.current
  draft : Draft.Kept before.draft after.draft
  within : before.draft.isSome ∨ 0 < before.scope.depth →
    after.procedures = before.procedures ∧ after.library = before.library

namespace Compiler

theorem Steady.refl (c : Compiler) : c.Steady c := ⟨rfl, rfl, rfl, rfl, rfl, rfl, .refl _⟩

theorem Steady.trans {first second third : Compiler} (one : first.Steady second)
    (two : second.Steady third) : first.Steady third :=
  ⟨two.hosts.trans one.hosts, two.procedures.trans one.procedures, two.library.trans one.library,
    two.scope.trans one.scope, two.prior.trans one.prior, two.current.trans one.current,
    one.draft.trans two.draft⟩

theorem kept_pending {c c' : Compiler} {draft changed : Draft} (inside : c.draft = some draft)
    (current : c'.current = c.current) (pending : c'.pending = some changed)
    (continues : draft.Continues changed) : Draft.Kept c.draft c'.draft := by
  rw [inside, draft_pending inside current pending continues.name]
  exact continues

theorem Retyped.steady {before after : Compiler} (retyped : before.Retyped after) :
    before.Steady after := by
  rcases retyped with rfl | ⟨draft, changed, inside, same, rfl⟩
  · exact .refl _
  · exact ⟨rfl, rfl, rfl, rfl, rfl, rfl, kept_pending inside rfl rfl same.continues⟩

theorem Steady.grows {before after : Compiler} (steady : before.Steady after) :
    before.Grows after where
  hosts := steady.hosts
  procedures := steady.procedures ▸ List.prefix_rfl
  library := steady.library ▸ List.prefix_rfl
  depth := by rw [steady.scope]
  scratch := by rw [steady.scope]
  bindings := ⟨[], by rw [steady.scope]; rfl, by simp⟩
  current := steady.current
  draft := steady.draft
  within := fun _ => ⟨steady.procedures, steady.library⟩

theorem Grows.refl (c : Compiler) : c.Grows c := (Steady.refl c).grows

theorem Grows.trans {first second third : Compiler} (one : first.Grows second)
    (two : second.Grows third) : first.Grows third where
  hosts := two.hosts.trans one.hosts
  procedures := one.procedures.trans two.procedures
  library := one.library.trans two.library
  depth := two.depth.trans one.depth
  scratch := two.scratch.trans one.scratch
  bindings := by
    obtain ⟨old, oldBindings, oldDepths⟩ := one.bindings
    obtain ⟨new, newBindings, newDepths⟩ := two.bindings
    refine ⟨new ++ old, by rw [newBindings, oldBindings, List.append_assoc], ?_⟩
    intro binding member
    rcases List.mem_append.mp member with isNew | isOld
    · rw [newDepths binding isNew, one.depth]
    · exact oldDepths binding isOld
  current := two.current.trans one.current
  draft := one.draft.trans two.draft
  within := by
    intro inside
    have still : second.draft.isSome ∨ 0 < second.scope.depth := by
      rw [one.draft.isSome_eq, one.depth]
      exact inside
    obtain ⟨procedures, library⟩ := one.within inside
    obtain ⟨procedures', library'⟩ := two.within still
    exact ⟨procedures'.trans procedures, library'.trans library⟩

theorem Grows.tidy {before after : Compiler} (grows : before.Grows after)
    (tidy : before.scope.Tidy) : after.scope.Tidy := by
  obtain ⟨new, bindings, depths⟩ := grows.bindings
  constructor
  · intro binding member
    rw [bindings] at member
    rw [grows.depth]
    rcases List.mem_append.mp member with isNew | isOld
    · exact Nat.le_of_eq (depths binding isNew)
    · exact tidy.bindings binding isOld
  · intro cell member
    rw [grows.scratch] at member
    rw [grows.depth]
    exact tidy.scratch cell member

end Compiler

/-- The node adds a name to the state. -/
def Node.introduces : Node → Bool
  | .declare .. | .define .. => true
  | _ => false

/-- The task changes nothing but what is known of the draft. An operand is one when it has to give
a value. -/
def Task.Quiet : Task → Prop
  | .node n _ => n.introduces = false
  | .operand _ want _ => want ≠ .void
  | .statements _ => False
  | _ => True

theorem UnaryOp.type_ne_void (op : UnaryOp) : op.type ≠ .void := by
  cases op <;> simp [type]

/-- What gives a value adds no name. -/
theorem Yields.introduces_eq_false {n : Node} {want : Option Ty} {c c' : Compiler} {x : Compiled}
    (derivation : Yields (.node n want) c x c') (filled : x.type ≠ some .void) :
    n.introduces = false := by
  cases derivation <;> first | rfl | exact absurd rfl filled

namespace Compile

open Compiler

variable {c c' : Compiler}

theorem resultSlot_steady {slot : UInt8} (done : resultSlot c = .ok (slot, c')) : c.Steady c' := by
  rcases resultSlot_ok done with
    ⟨-, -, rfl⟩ | ⟨draft, -, -, rfl⟩ | ⟨draft, slots, inside, unknown, -, rfl⟩
  · exact .refl _
  · exact .refl _
  · refine ⟨rfl, rfl, rfl, rfl, rfl, rfl, kept_pending inside rfl rfl ?_⟩
    refine ⟨rfl, rfl, rfl, rfl, fun slot known => ?_, fun _ _ => id⟩
    rw [unknown] at known
    cases known

theorem settleOpen_retyped {p : Bool} {position : Nat} {type : Ty}
    (done : (if p then resolveParam position type else pure ()) c = .ok ((), c')) :
    c.Retyped c' := by
  cases p with
  | true => exact resolveParam_ok done
  | false =>
    simp only [Bool.false_eq_true, if_false, pure_eq_ok, Prod.mk.injEq, true_and] at done
    exact done ▸ .refl c

/-- What is expected to have a type other than void is not void. -/
theorem expected_value {n : Node} {found : Option Ty} {want : Ty} {role : Role}
    (done : expect n found want role c = .ok ((), c')) (filled : want ≠ .void) :
    found ≠ some .void := by
  rcases (expect_ok done).2 with ⟨rfl, -⟩ | ⟨rfl, -⟩
  · simpa using filled
  · simp

/-- A finished statement changes the type of the result, and nothing else. -/
theorem finishStatement_steady {node : Node} {compiled : Compiled} {code : Fragment}
    (done : finishStatement node compiled c = .ok (code, c')) :
    c.Steady { c' with prior := c.prior } := by
  obtain ⟨type, between, assumes, -, ⟨-, -, rfl⟩ | ⟨slot, after, -, found, -, rfl⟩⟩ :=
    finishStatement_ok done
  · have steady := assumes.retyped.steady
    exact ⟨steady.hosts, steady.procedures, steady.library, steady.scope, rfl, steady.current,
      steady.draft⟩
  · have steady := assumes.retyped.steady.trans (resultSlot_steady found)
    exact ⟨steady.hosts, steady.procedures, steady.library, steady.scope, rfl, steady.current,
      steady.draft⟩

end Compile

namespace Compiler

theorem Steady.both {c c' : Compiler} (steady : c.Steady c') (p : Prop) :
    c.Grows c' ∧ (p → c.Steady c') :=
  ⟨steady.grows, fun _ => steady⟩

theorem Steady.declared {c c' : Compiler} {draft : Draft} (steady : c.Steady c')
    (inside : c.draft = some draft) (now : Draft) (later : c'.draft = some now) :
    now.declared = draft.declared := by
  have kept := steady.draft
  rw [inside, later] at kept
  exact kept.declared

theorem Steady.tidy {c c' : Compiler} (steady : c.Steady c') (tidy : c.scope.Tidy) :
    c'.scope.Tidy :=
  steady.scope ▸ tidy

/-- The type of the result is no part of what grows. -/
theorem Grows.of_prior {c c' : Compiler} {type : Ty} (grows : c.Grows { c' with prior := type }) :
    c.Grows c' :=
  ⟨grows.hosts, grows.procedures, grows.library, grows.depth, grows.scratch, grows.bindings,
    grows.current, grows.draft, grows.within⟩

/-- What a block declares is opened in it. -/
theorem Grows.opened {c inner : Compiler} (grows : c.entered.Grows inner) :
    ∃ new, Scope.Opened c.scope inner.scope new [] := by
  obtain ⟨new, bindings, depths⟩ := grows.bindings
  exact ⟨new, grows.depth, bindings, grows.scratch.trans (List.append_nil _).symm, depths, by simp⟩

/-- After a block all is as before it. -/
theorem Grows.leave_block {c inner : Compiler} (grows : c.entered.Grows inner)
    (tidy : c.scope.Tidy) : c.Steady { inner.left with prior := c.prior } := by
  obtain ⟨new, opened⟩ := grows.opened
  obtain ⟨procedures, library⟩ := grows.within (.inr (Nat.succ_pos _))
  exact ⟨grows.hosts, procedures, library, opened.leave_scope tidy, rfl, grows.current, grows.draft⟩

end Compiler

open Compile Compiler

/-- A variable that is declared anew stands before all others. -/
theorem Scope.declare_bindings {scope : Scope} {name : String} (fresh : scope.find? name = none)
    (type : Ty) (slot : UInt8) :
    (scope.declare name type slot).bindings =
      (name, ⟨type, slot, scope.depth⟩) :: scope.bindings := by
  have others : scope.bindings.filter (·.1 ≠ name) = scope.bindings := by
    rw [List.filter_eq_self]
    intro binding member
    have other := List.lookup_eq_none_iff.mp fresh binding member
    exact decide_eq_true fun same => by simp [same] at other
  simp only [declare, others]

theorem Compiler.find?_of_invisible {c : Compiler} {name : String}
    (fresh : c.isVisible name = false) : c.param? name = none ∧ c.scope.find? name = none := by
  simpa [isVisible, paramIndex?_eq_none] using fresh

/-- Every task lets the state grow, and a quiet one keeps it. -/
theorem Yields.growth {task : Task} {c c' : Compiler} {x : Compiled}
    (derivation : Yields task c x c')
    (tidy : c.scope.Tidy) : c.Grows c' ∧ (task.Quiet → c.Steady c') := by
  induction derivation with
  | literal | literals | initialDefault | giveNothing | noArguments | noItems =>
    exact (Steady.refl _).both _
  | noStatements => exact (Steady.refl _).both _
  | unary _ operand => exact ((operand tidy).2 (UnaryOp.type_ne_void _)).both _
  | arith _ _ first second | order _ _ first second | logic _ _ first second =>
    have left := (first tidy).2 (by simp [Task.Quiet])
    exact (left.trans ((second (left.tidy tidy)).2 (by simp [Task.Quiet]))).both _
  | comparison _ firstYields firstValue secondYields secondValue agreed first second =>
    have left := (first tidy).2 (firstYields.introduces_eq_false firstValue)
    have right := (second (left.tidy tidy)).2 (secondYields.introduces_eq_false secondValue)
    exact ((left.trans right).trans (agree_ok agreed).steady).both _
  | result _ found => exact (resultSlot_steady found).both _
  | var found =>
    rcases reference_ok found with ⟨_, _, _, _, retyped⟩ | ⟨_, _, _, _, rfl⟩
    · exact retyped.steady.both _
    · exact (Steady.refl _).both _
  | @declare name type _ _ c slot c₁ _ c' found fresh allocated _ _ start =>
    obtain ⟨slots, -, rfl⟩ := allocate_ok allocated
    have inner := (start tidy).2 trivial
    refine ⟨⟨inner.hosts, ?_, ?_, ?_, ?_, ?_, inner.current, inner.draft, ?_⟩, ?_⟩
    · exact inner.procedures ▸ List.prefix_rfl
    · exact inner.library ▸ List.prefix_rfl
    · show c'.scope.depth = c.scope.depth
      rw [inner.scope]
    · show c'.scope.scratch = c.scope.scratch
      rw [inner.scope]
    · have new : c'.scope.find? name = none := by
        rw [inner.scope]
        exact (find?_of_invisible fresh).2
      refine ⟨[(name, ⟨found, slot, c'.scope.depth⟩)], ?_, ?_⟩
      · rw [Scope.declare_bindings new, inner.scope]
        rfl
      · intro binding member
        rw [List.mem_singleton.mp member, inner.scope]
    · exact fun _ => ⟨inner.procedures, inner.library⟩
    · exact fun impossible => by cases impossible
  | assignParam _ _ _ resolved value =>
    have inner := (value tidy).2 trivial
    exact (inner.trans (settleOpen_retyped resolved).steady).both _
  | assignVariable _ _ _ value => exact ((value tidy).2 trivial).both _
  | branch _ _ condition inner | loop _ _ condition inner =>
    have test := (condition tidy).2 (by simp [Task.Quiet])
    exact (test.trans ((inner (test.tidy tidy)).2 trivial)).both _
  | alternative _ _ _ condition inner otherwise =>
    have test := (condition tidy).2 (by simp [Task.Quiet])
    have body := test.trans ((inner (test.tidy tidy)).2 trivial)
    exact (body.trans ((otherwise (body.tidy tidy)).2 trivial)).both _
  | @times _ _ _ c _ c₁ threshold _ counter _ _ c' _ first second _ amount inner =>
    obtain ⟨slots, -, rfl⟩ := allocateScratch_ok first
    obtain ⟨slots', -, rfl⟩ := allocateScratch_ok second
    have count := (amount tidy.enter).2 (by simp [Task.Quiet])
    have body := (inner ((((count.tidy tidy.enter)).addScratch _).addScratch _)).2 trivial
    have same : c'.scope = (c.scope.enter.addScratch threshold).addScratch counter := by
      rw [body.scope, count.scope]
    have opened := Scope.opened_scratch c.scope threshold counter
    rw [← same] at opened
    have left : Steady c c'.left :=
      ⟨body.hosts.trans count.hosts, body.procedures.trans count.procedures,
        body.library.trans count.library, opened.leave_scope tidy, body.prior.trans count.prior,
        body.current.trans count.current, count.draft.trans body.draft⟩
    exact left.both _
  | call _ _ _ finished given =>
    have arguments := (given tidy).2 trivial
    exact (arguments.trans (finishCall_ok finished).2.2.retyped.steady).both _
  | define started _ finished inner =>
    obtain ⟨outside, top, -, parameters, slots, -, -, rfl⟩ := startDraft_ok started
    obtain ⟨draft, -, -, -, -, rfl⟩ := finishDraft_ok finished
    have body := (inner tidy).2 trivial
    refine ⟨⟨body.hosts, ?_, ?_, ?_, ?_, ?_, outside.symm, ?_, ?_⟩, ?_⟩
    · exact body.procedures ▸ List.prefix_append _ _
    · exact body.library ▸ List.prefix_append _ _
    · exact congrArg Scope.depth body.scope
    · exact congrArg Scope.scratch body.scope
    · exact ⟨[], congrArg Scope.bindings body.scope, by simp⟩
    · rw [draft_outside outside]
      trivial
    · simp [draft_outside outside, top]
    · exact fun impossible => by cases impossible
  | convert valueYields typed filled _ value =>
    exact ((value tidy).2
      (valueYields.introduces_eq_false (by rw [typed]; simpa using filled))).both _
  | giveBack inside _ _ noted given =>
    have value := (given tidy).2 trivial
    exact (value.trans (noteReturn_ok noted (value.declared inside)).steady).both _
  | list _ _ _ items => exact ((items tidy).2 trivial).both _
  | item _ _ _ items place =>
    have list := (items tidy).2 (by simp [Task.Quiet])
    exact (list.trans ((place (list.tidy tidy)).2 (by simp [Task.Quiet]))).both _
  | setItem _ _ _ _ items place value =>
    have list := (items tidy).2 (by simp [Task.Quiet])
    have index := list.trans ((place (list.tidy tidy)).2 (by simp [Task.Quiet]))
    exact (index.trans ((value (index.tidy tidy)).2 trivial)).both _
  | operand innerYields expected inner =>
    have retyped := (expect_ok expected).1
    refine ⟨(inner tidy).1.trans retyped.steady.grows, fun filled => ?_⟩
    exact ((inner tidy).2 (innerYields.introduces_eq_false (expected_value expected filled))).trans
      retyped.steady
  | valueOf innerYields expected filled inner =>
    have retyped := (expect_ok expected).1
    exact (((inner tidy).2 (innerYields.introduces_eq_false
      (expected_value expected filled))).trans retyped.steady).both _
  | valueFound innerYields typed filled inner | giveFound _ innerYields typed filled inner =>
    exact ((inner tidy).2
      (innerYields.introduces_eq_false (by rw [typed]; simpa using filled))).both _
  | initialValue _ inner | giveDeclared _ _ inner => exact ((inner tidy).2 trivial).both _
  | moreArguments _ _ _ resolved _ first rest =>
    have argument := ((first tidy).2 trivial).trans (settleOpen_retyped resolved).steady
    exact (argument.trans ((rest (argument.tidy tidy)).2 trivial)).both _
  | moreItems _ _ first rest =>
    have item := (first tidy).2 trivial
    exact (item.trans ((rest (item.tidy tidy)).2 trivial)).both _
  | moreStatements _ finished _ first rest =>
    have statement := (first tidy).1.trans (finishStatement_steady finished).grows.of_prior
    exact ⟨statement.trans (rest (statement.tidy tidy)).1, False.elim⟩
  | block _ inner => exact ((inner tidy.enter).1.leave_block tidy).both _

theorem Yields.grows {task : Task} {c c' : Compiler} {x : Compiled}
    (derivation : Yields task c x c') (tidy : c.scope.Tidy) : c.Grows c' :=
  (derivation.growth tidy).1

theorem Yields.tidy {task : Task} {c c' : Compiler} {x : Compiled} (derivation : Yields task c x c')
    (tidy : c.scope.Tidy) : c'.scope.Tidy :=
  (derivation.grows tidy).tidy tidy

/-- At the end of a counted loop its scope holds the two slots of the loop. -/
theorem Yields.loop_opened {count : Node} {body : List Node} {c c₁ c₂ c₃ c' : Compiler}
    {x y : Compiled} {threshold counter : UInt8} (tidy : c.scope.Tidy)
    (amount : Yields (.operand count .number .repeatCount) { c with scope := c.scope.enter } x c₁)
    (first : allocateScratch c₁ = .ok (threshold, c₂))
    (second : allocateScratch c₂ = .ok (counter, c₃)) (inner : Yields (.block body) c₃ y c') :
    Scope.Opened c.scope c'.scope []
      [(threshold, c.scope.depth + 1), (counter, c.scope.depth + 1)] := by
  obtain ⟨slots, -, rfl⟩ := allocateScratch_ok first
  obtain ⟨slots', -, rfl⟩ := allocateScratch_ok second
  have tidy₁ := ((amount.tidy tidy.enter).addScratch threshold).addScratch counter
  have same : c'.scope = (c.scope.enter.addScratch threshold).addScratch counter := by
    rw [((inner.growth tidy₁).2 trivial).scope,
      ((amount.growth tidy.enter).2 (by simp [Task.Quiet])).scope]
  rw [same]
  exact Scope.opened_scratch c.scope threshold counter

end Primer
