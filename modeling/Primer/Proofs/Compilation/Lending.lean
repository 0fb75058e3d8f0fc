import Primer.Proofs.Compilation.Emission
import Primer.Proofs.Compilation.Shelf
import Primer.Proofs.Compilation.Surroundings

/-!
Which slots code changes, seen from an earlier state. While a task is compiled, a slot that was in
use before it stays in use, and what is handed out is none of these slots. So the code changes a
slot that was in use before only where a variable is assigned by its name.
-/

set_option autoImplicit false
set_option relaxedAutoImplicit false

namespace Primer

open Compile

/-- A draft keeps its slots, and may get one for its result. -/
theorem Draft.Continues.slots_eq {before after : Draft} (kept : before.Continues after) :
    ∃ fresh, after.slots = before.slots ++ fresh := by
  have params := congrArg (List.map Prod.snd) kept.params
  simp only [List.map_map, Function.comp_def] at params
  cases known : before.resultSlot with
  | none => exact ⟨after.resultSlot.toList, by simp [slots, params, known]⟩
  | some slot => exact ⟨[], by simp [slots, params, known, kept.resultSlot slot known]⟩

namespace Compiler

/-- The slots that came into use between two states. -/
structure Adds (before after : Compiler) (extra : List UInt8) : Prop where
  owned : after.owned.Perm (extra ++ before.owned)
  bindings : ∀ new, after.scope.bindings = new ++ before.scope.bindings →
    ∀ binding ∈ new, binding.2.slot ∈ extra
  draft : ∀ draft, after.draft = some draft → ∀ slot ∈ draft.slots,
    slot ∈ extra ∨ ∃ old, before.draft = some old ∧ slot ∈ old.slots

theorem Grows.adds {before after : Compiler} (grows : before.Grows after) :
    ∃ extra, before.Adds after extra := by
  obtain ⟨new, bindings, -⟩ := grows.bindings
  obtain ⟨more, procedures⟩ := grows.procedures
  have scope : after.scope.slots = new.map (·.2.slot) ++ before.scope.slots := by
    rw [Scope.slots, Scope.slots, bindings, grows.scratch, List.map_append, List.append_assoc]
  have kept := grows.draft
  have split : ∃ fresh, after.procedureSlots.Perm
      (fresh ++ more.flatMap Procedure.slots ++ before.procedureSlots) ∧
      ∀ draft, after.draft = some draft → ∀ slot ∈ draft.slots,
        slot ∈ fresh ∨ ∃ old, before.draft = some old ∧ slot ∈ old.slots := by
    unfold procedureSlots
    rw [← procedures, List.flatMap_append]
    cases earlier : before.draft with
    | none =>
      rw [earlier] at kept
      rw [kept.eq_none]
      exact ⟨[], by simpa using List.perm_append_comm, fun _ inside => by cases inside⟩
    | some old =>
      cases later : after.draft with
      | none => rw [earlier, later] at kept; exact kept.elim
      | some draft =>
        rw [earlier, later] at kept
        obtain ⟨fresh, slots⟩ := Draft.Continues.slots_eq kept
        refine ⟨fresh, ?_, ?_⟩
        · rw [List.perm_iff_count]
          intro a
          simp only [slots, List.count_append]
          omega
        · rintro _ ⟨⟩ slot member
          rw [slots, List.mem_append] at member
          exact member.symm.imp id fun old' => ⟨old, rfl, old'⟩
  obtain ⟨fresh, others, drafts⟩ := split
  refine ⟨new.map (·.2.slot) ++ (fresh ++ more.flatMap Procedure.slots), ?_, ?_, ?_⟩
  · rw [List.perm_iff_count] at others ⊢
    intro a
    have := others a
    simp only [owned, scope, List.count_append] at this ⊢
    omega
  · intro new' same binding member
    rw [bindings] at same
    rw [← List.append_cancel_right same] at member
    exact List.mem_append_left _ (List.mem_map_of_mem member)
  · intro draft inside slot member
    exact (drafts draft inside slot member).imp
      (fun isFresh => List.mem_append_right _ (List.mem_append_left _ isFresh)) id

/-- What came into use was not in use before. -/
theorem Adds.apart {before after : Compiler} {extra others : List UInt8}
    (adds : before.Adds after extra) (accounts : after.slots.Accounts (others ++ after.owned))
    {slot : UInt8} (new : slot ∈ extra) : slot ∉ others ++ before.owned := by
  have same : (others ++ after.owned).Perm (extra ++ (others ++ before.owned)) := by
    rw [List.perm_iff_count]
    intro a
    have := List.perm_iff_count.mp adds.owned a
    simp only [List.count_append] at this ⊢
    omega
  have distinct := same.nodup_iff.mp (List.nodup_append.mp accounts.distinct).1
  exact fun old => (List.nodup_append.mp distinct).2.2 slot new slot old rfl

/-- The slot of a name is that of a parameter or that of a variable. -/
theorem slot?_cases {c : Compiler} {name : String} {slot : UInt8}
    (known : c.slot? name = some slot) :
    (∃ draft, c.draft = some draft ∧ slot ∈ draft.slots) ∨
      ∃ found, c.scope.find? name = some found ∧ found.slot = slot := by
  unfold slot? at known
  cases isParam : c.param? name with
  | some param =>
    rw [isParam] at known
    obtain ⟨draft, inside, found⟩ := Option.bind_eq_some_iff.mp isParam
    refine .inl ⟨draft, inside, List.mem_append_left _ ?_⟩
    rw [← Option.some.inj known]
    exact List.mem_map_of_mem (List.mem_of_getElem? (Draft.find?_eq_some.mp found).2)
  | none =>
    cases isVariable : c.scope.find? name with
    | none => rw [isParam, isVariable] at known; cases known
    | some found =>
      rw [isParam, isVariable] at known
      exact .inr ⟨found, rfl, Option.some.inj known⟩

/-- A state that came out of an earlier one. Some other slots may be in use besides those of the
state. The slots that were in use at the start are in use still, and a variable or a parameter that
has one of them is a variable from before. -/
structure Since (start c : Compiler) (others : List UInt8) : Prop where
  tidy : c.scope.Tidy
  accounts : c.slots.Accounts (others ++ c.owned)
  used : start.owned ⊆ others ++ c.owned
  bindings : ∀ binding ∈ c.scope.bindings,
    binding ∈ start.scope.bindings ∨ binding.2.slot ∉ start.owned
  draft : ∀ draft, c.draft = some draft → ∀ slot ∈ draft.slots, slot ∉ start.owned

namespace Since

variable {start c c' : Compiler} {others : List UInt8} {slot : UInt8}

theorem refl (ready : start.scope.Tidy) (accounts : start.slots.Accounts start.owned)
    (outside : start.draft = none) : Since start start [] :=
  ⟨ready, accounts, fun _ => id, fun _ => .inl, by rw [outside]; exact nofun⟩

theorem grows (since : Since start c others) (grows : c.Grows c') (balanced : c.Balanced c') :
    Since start c' others := by
  obtain ⟨extra, adds⟩ := grows.adds
  have accounts := balanced others since.accounts
  have fresh : ∀ slot ∈ extra, slot ∉ start.owned :=
    fun slot new old => adds.apart accounts new (since.used old)
  refine ⟨grows.tidy since.tidy, accounts, fun slot old => ?_, fun binding member => ?_,
    fun draft inside slot member => ?_⟩
  · have := since.used old
    rw [List.mem_append] at this ⊢
    exact this.imp_right fun owned => adds.owned.mem_iff.mpr (List.mem_append_right _ owned)
  · obtain ⟨new, bindings, -⟩ := grows.bindings
    rw [bindings, List.mem_append] at member
    rcases member with isNew | isOld
    · exact .inr (fresh _ (adds.bindings new bindings binding isNew))
    · exact since.bindings binding isOld
  · rcases adds.draft draft inside slot member with isNew | ⟨old, before, isOld⟩
    · exact fresh slot isNew
    · exact since.draft old before slot isOld

theorem yields (since : Since start c others) {task : Task} {x : Compiled}
    (derivation : Yields task c x c') : Since start c' others :=
  since.grows (derivation.grows since.tidy) (derivation.balanced since.tidy)

theorem retyped (since : Since start c others) (retyped : c.Retyped c') : Since start c' others :=
  since.grows retyped.steady.grows retyped.balanced

theorem enter (since : Since start c others) :
    Since start { c with scope := c.scope.enter } others :=
  ⟨since.tidy.enter, since.accounts, since.used, since.bindings, since.draft⟩

theorem entered (since : Since start c others) : Since start c.entered others :=
  ⟨since.tidy.enter, since.accounts, since.used, since.bindings, since.draft⟩

/-- A slot that is handed out was not in use at the start. -/
theorem fresh (since : Since start c others) {slots : SlotPool}
    (found : c.slots.allocate? = some (slot, slots)) : slot ∉ start.owned := by
  have distinct := (since.accounts.allocate found).distinct
  rw [List.cons_append, List.nodup_cons] at distinct
  exact fun old => distinct.1 (List.mem_append_left _ (since.used old))

/-- The slot of the top-level result is none of those that are handed out. -/
theorem result_notMem (since : Since start c others) : Primer.resultSlot ∉ start.owned := by
  intro member
  have positive := (since.accounts.given _ (List.mem_append_left _ (since.used member))).1
  exact absurd positive (by decide)

theorem allocated (since : Since start c others) (done : allocate c = .ok (slot, c')) :
    slot ∉ start.owned ∧ Since start c' (slot :: others) := by
  obtain ⟨slots, found, rfl⟩ := allocate_ok done
  exact ⟨since.fresh found, since.tidy, since.accounts.allocate found,
    fun slot old => List.mem_cons_of_mem _ (since.used old), since.bindings, since.draft⟩

theorem scratch (since : Since start c others) (done : allocateScratch c = .ok (slot, c')) :
    slot ∉ start.owned ∧ Since start c' others := by
  have accounts := allocateScratch_balanced done others since.accounts
  obtain ⟨slots, found, rfl⟩ := allocateScratch_ok done
  refine ⟨since.fresh found, since.tidy.addScratch slot, accounts, fun slot old => ?_,
    since.bindings, since.draft⟩
  have := since.used old
  simp only [owned, procedureSlots, Scope.slots, Scope.addScratch, List.map_append,
    List.mem_append] at this ⊢
  exact this.imp_right fun own => own.imp_left fun inScope => inScope.imp_right .inl

/-- The slots of a loop were not in use at the start. -/
theorem loop (since : Since start c others) {count : Node} {x : Compiled} {c₁ c₂ c₃ : Compiler}
    {threshold counter : UInt8}
    (amount : Yields (.operand count .number .repeatCount) { c with scope := c.scope.enter } x c₁)
    (first : allocateScratch c₁ = .ok (threshold, c₂))
    (second : allocateScratch c₂ = .ok (counter, c₃)) (either : slot = threshold ∨ slot = counter) :
    slot ∉ start.owned := by
  obtain ⟨isFresh, since₂⟩ := (since.enter.yields amount).scratch first
  rcases either with rfl | rfl
  · exact isFresh
  · exact (since₂.scratch second).1

/-- The slot of a variable that was in use at the start is the variable's from then. -/
theorem slot? (since : Since start c others) {name : String} (known : c.slot? name = some slot) :
    slot ∉ start.owned ∨
      ∃ found, (name, found) ∈ start.scope.bindings ∧ found.slot = slot := by
  rcases slot?_cases known with ⟨draft, inside, own⟩ | ⟨found, isVariable, rfl⟩
  · exact .inl (since.draft draft inside slot own)
  · exact (since.bindings _ (Scope.mem_of_find? isVariable)).symm.imp id
      fun old => ⟨found, old, rfl⟩

end Since

end Compiler

open Compiler

variable {start c d : Compiler} {others : List UInt8}

/-- Where a part starts, all that was in use at the start is in use. -/
theorem Part.since {task inner : Task} {rest : Nat} (part : Part task c rest inner d)
    (since : Since start c others) : ∃ others', Since start d others' := by
  cases part with
  | arithRight first | orderRight first | logicRight first | comparisonRight _ first
  | moreItems first | setItemIndex first | itemIndex first | branchBody first | loopBody first =>
    exact ⟨_, since.yields first⟩
  | declare allocated => exact ⟨_, (since.allocated allocated).2⟩
  | branchOther condition inner => exact ⟨_, (since.yields condition).yields inner⟩
  | timesCount => exact ⟨_, since.enter⟩
  | timesBody amount first second =>
    exact ⟨_, (((since.enter.yields amount).scratch first).2.scratch second).2⟩
  | setItemValue items place => exact ⟨_, (since.yields items).yields place⟩
  | moreArguments _ first _ resolved =>
    exact ⟨_, (since.yields first).retyped (settleOpen_retyped resolved)⟩
  | moreStatements first finished =>
    exact ⟨_, (since.yields first).grows (finishStatement_steady finished).grows.of_prior
      (finishStatement_balanced finished)⟩
  | block => exact ⟨_, since.entered⟩
  | _ => exact ⟨_, since⟩

theorem Occurs.since {whole task : Task} {c d : Compiler} {offset : Nat}
    (occurs : Occurs whole c offset task d) (since : Since start c others) :
    ∃ others', Since start d others' := by
  induction occurs with
  | here => exact ⟨_, since⟩
  | part _ part ih =>
    obtain ⟨_, since'⟩ := ih
    exact part.since since'

/-- What is known in one state is known in a later one. -/
structure Compiler.Precedes (before after : Compiler) : Prop where
  procedures : before.procedures <+: after.procedures
  draft : Draft.Kept before.draft after.draft

namespace Compiler.Precedes

theorem refl (c : Compiler) : c.Precedes c := ⟨List.prefix_rfl, .refl _⟩

theorem trans {first second third : Compiler} (one : first.Precedes second)
    (two : second.Precedes third) : first.Precedes third :=
  ⟨one.procedures.trans two.procedures, one.draft.trans two.draft⟩

end Compiler.Precedes

theorem Compiler.Grows.precedes {before after : Compiler} (grows : before.Grows after) :
    before.Precedes after :=
  ⟨grows.procedures, grows.draft⟩

theorem Interlude.precedes {c c' : Compiler} (done : Interlude c c') : c.Precedes c' := by
  cases done with
  | lexical => exact ⟨List.prefix_rfl, .refl _⟩
  | agree done => exact (agree_ok done).steady.grows.precedes
  | expect done => exact (expect_ok done).1.steady.grows.precedes
  | resolve done => exact (settleOpen_retyped done).steady.grows.precedes
  | call done => exact (finishCall_ok done).2.2.retyped.steady.grows.precedes
  | statement done => exact (finishStatement_steady done).grows.of_prior.precedes

theorem Task.Proceeds.precedes {task : Task} {c d e : Compiler} {place : Nat → Nat → Prop}
    (proceeds : task.Proceeds c place d e) : d.Precedes e := by
  induction proceeds with
  | refl => exact .refl _
  | trans _ _ one two => exact one.trans two
  | between done => exact done.precedes
  | part _ tidy made => exact (made.grows tidy).precedes
  | noted _ inside tidy given _ noted =>
    have declared := ((given.growth tidy).2 trivial).declared inside
    exact (noteReturn_ok noted declared).steady.grows.precedes

/-- When a task is compiled its parts are, and what is known after a part is known after the
whole. -/
theorem Part.yields {task inner : Task} {rest : Nat} {c' : Compiler} {x : Compiled}
    (part : Part task c rest inner d) (derivation : Yields task c x c') (tidy : c.scope.Tidy) :
    ∃ y d', Yields inner d y d' ∧ d'.Precedes c' := by
  obtain ⟨y, d', surrounded⟩ := part.surrounded derivation tidy
  exact ⟨y, d', surrounded.made, surrounded.behind.precedes⟩

/-- What occurs in a task is compiled, and what is known after it is known after the task. -/
theorem Occurs.yields {whole task : Task} {offset : Nat} {c' : Compiler} {x : Compiled}
    (occurs : Occurs whole c offset task d) (derivation : Yields whole c x c')
    (since : Since start c others) :
    ∃ y d' others', Yields task d y d' ∧ Since start d others' ∧ d'.Precedes c' := by
  induction occurs with
  | here => exact ⟨_, _, _, derivation, since, .refl _⟩
  | part _ part ih =>
    obtain ⟨_, _, _, inner, since', before⟩ := ih
    obtain ⟨y, d', yields, more⟩ := part.yields inner since'.tidy
    obtain ⟨others', since''⟩ := part.since since'
    exact ⟨y, d', others', yields, since'', more.trans before⟩

/-- What is known at a place inside a task is known after the task. -/
theorem Occurs.precedes {whole task : Task} {offset : Nat} {c' : Compiler} {x : Compiled}
    (occurs : Occurs whole c offset task d) (derivation : Yields whole c x c')
    (since : Since start c others) : d.Precedes c' := by
  obtain ⟨y, d', others', yields, since', before⟩ := occurs.yields derivation since
  exact (yields.grows since'.tidy).precedes.trans before

/-- What occurs in a task is compiled, and its code stands in that of the task. -/
theorem Occurs.encloses {whole task : Task} {before c c' d : Compiler} {x : Compiled} {offset : Nat}
    {others : List UInt8} (occurs : Occurs whole c offset task d) (derivation : Yields whole c x c')
    (since : before.Since c others) :
    ∃ y d', Yields task d y d' ∧ x.code.Encloses y.code offset := by
  induction occurs with
  | here => exact ⟨_, _, derivation, .refl _⟩
  | part outer part ih =>
    obtain ⟨z, e, inner, encloses⟩ := ih
    obtain ⟨others', since'⟩ := outer.since since
    obtain ⟨y, d', yields, -⟩ := part.yields inner since'.tidy
    exact ⟨y, d', yields, encloses.trans (part.encloses inner since'.tidy yields)⟩

/-- The name by which the node changes a variable. -/
def Node.assigns? : Node → Option String
  | .assign name _ | .setItem _ (.var name) _ => some name
  | _ => none

/-- The task changes a variable of the start by its name. -/
def Task.Assigns (start : Compiler) (slot : UInt8) (task : Task) : Prop :=
  ∃ n want name found, task = .node n want ∧ n.assigns? = some name ∧
    (name, found) ∈ start.scope.bindings ∧ found.slot = slot

/-- An instruction that a task makes changes no slot that was in use at the start, but for the slot
of a variable that the task assigns by its name. -/
theorem Task.Emits.changes {task : Task} {i : Instruction} {slot : UInt8} (emits : task.Emits c i)
    (since : Since start c others) (changes : i.changes? = some slot) :
    slot ∉ start.owned ∨ task.Assigns start slot := by
  cases emits with
  | other spares => rw [spares] at changes; cases changes
  | declare allocated =>
    cases changes
    exact .inl (since.allocated allocated).1
  | assign known =>
    cases changes
    exact (since.slot? known).imp_right fun ⟨found, member, same⟩ =>
      ⟨_, _, _, found, rfl, rfl, member, same⟩
  | setItem items known =>
    cases changes
    exact ((since.yields items).slot? known).imp_right fun ⟨found, member, same⟩ =>
      ⟨_, _, _, found, rfl, rfl, member, same⟩
  | count amount first second either =>
    cases changes
    exact .inl (since.loop amount first second either)
  | endCount amount first second inner given =>
    cases changes
    have opened := Yields.loop_opened since.tidy amount first second inner
    rw [(opened.leave_slots since.tidy).mem_iff] at given
    exact .inl (since.loop amount first second (by simpa using given))
  | @call _ _ _ _ callee found => cases callee <;> cases changes
  | result first assumes found =>
    cases changes
    have since₂ := (since.yields first).retyped assumes.retyped
    rcases resultSlot_ok found with
      ⟨-, rfl, -⟩ | ⟨draft, inside, known, -⟩ | ⟨draft, slots, -, -, found, -⟩
    · exact .inl since.result_notMem
    · refine .inl (since₂.draft draft inside slot (List.mem_append_right _ ?_))
      rw [known]
      exact List.mem_singleton_self slot
    · exact .inl (since₂.fresh found)
  | endBlock inner given =>
    cases changes
    have grows := inner.grows since.entered.tidy
    obtain ⟨new, opened⟩ := grows.opened
    obtain ⟨extra, adds⟩ := grows.adds
    rw [(opened.leave_slots since.tidy).mem_iff, List.map_nil, List.append_nil] at given
    obtain ⟨binding, member, rfl⟩ := List.mem_map.mp given
    have added := adds.bindings new opened.bindings binding member
    exact .inl fun old =>
      adds.apart (since.entered.yields inner).accounts added (since.entered.used old)

namespace Making

/-- The body changes a variable from before the definition by its name. -/
def Assigns (m : Making) (slot : UInt8) : Prop :=
  ∃ offset task d, Occurs (.block m.body) m.started offset task d ∧ task.Assigns m.before slot

theorem since (m : Making) : Since m.before m.started [] := by
  obtain ⟨parameters, slots, hands, -, started⟩ := m.started_eq
  have accounts := SlotPool.accounts_lasting.hands m.ready.accounts hands
  have own : m.started.owned.Perm (parameters.map (·.slot) ++ m.before.owned) := by
    rw [started, List.perm_iff_count]
    intro a
    simp only [owned, procedureSlots, m.ready.outside, draft_mk_some, Draft.slots, Option.toList,
      List.append_nil, List.nil_append, List.count_append]
    omega
  refine ⟨m.tidy, ?_, fun slot member => own.mem_iff.mpr (List.mem_append_right _ member), ?_, ?_⟩
  · rw [started] at own ⊢
    exact accounts.perm own.symm
  · rw [started]
    exact fun _ => .inl
  · rw [started]
    intro draft inside slot member old
    rw [draft_mk_some _ _ _ _ _ _ (by rfl)] at inside
    cases inside
    rw [Draft.slots, Option.toList, List.append_nil] at member
    have distinct := (List.nodup_append.mp accounts.distinct).1
    exact (List.nodup_append.mp distinct).2.2 slot member slot old rfl

/-- Besides what the body makes, the code of a procedure has the stores of the arguments and a
return. -/
theorem mem_code (m : Making) {i : Instruction} (member : i ∈ m.code) (straight : i.jump? = none) :
    (∃ slot ∈ m.draft.slots, i = .store slot) ∨ (Task.block m.body).Makes m.started i ∨
      i = .ret := by
  have member : i ∈ m.code.plain := Fragment.mem_plain.mpr ⟨member, straight⟩
  rw [code, procedureCode_eq, Fragment.plain_sequence] at member
  simp only [List.flatMap_cons, List.flatMap_nil, List.append_nil, List.mem_append] at member
  rcases member with stores | inner | last
  · obtain ⟨slot, isParam, rfl⟩ := List.mem_map.mp (Fragment.mem_plain.mp stores).1
    refine .inl ⟨slot, ?_, rfl⟩
    rw [← Draft.finish_slots]
    exact List.mem_append_left _ (List.mem_reverse.mp isParam)
  · exact .inr (.inl (m.compiles.makes i inner))
  · have last := (Fragment.mem_plain.mp last).1
    by_cases returns : Node.blockReturns m.body
    · simp [returns] at last
    · exact .inr (.inr (by simpa [returns] using last))

/-- The code of a procedure changes no slot that was in use when it was defined, but for the slots
of variables that its body assigns by their names. -/
theorem changes (m : Making) {i : Instruction} {slot : UInt8} (member : i ∈ m.code)
    (changes : i.changes? = some slot) : slot ∉ m.before.owned ∨ m.Assigns slot := by
  have straight : i.jump? = none := by cases i <;> first | rfl | cases changes
  rcases m.mem_code member straight with ⟨_, own, rfl⟩ | ⟨offset, task, d, occurs, emits⟩ | rfl
  · cases changes
    exact .inl ((m.since.yields m.compiles).draft m.draft m.drafted slot own)
  · obtain ⟨others, since⟩ := occurs.since m.since
    exact (emits.changes since changes).imp_right fun assigns => ⟨offset, task, d, occurs, assigns⟩
  · cases changes

end Making

end Primer
