import Primer.Proofs.Compilation.Growth

/-!
Who owns which slot. Variables, loops, parameters and the results of procedures each have slots of
their own, which are distinct from each other, from the slot of the top-level result and from the
slots that wait to be used again. Every task keeps it so, and any other rule about the slots in use
that handing out a slot and giving one back keep.
-/

set_option autoImplicit false
set_option relaxedAutoImplicit false

namespace Primer

/-- The slots in use and those given back are distinct, and were handed out before. -/
structure SlotPool.Accounts (pool : SlotPool) (owned : List UInt8) : Prop where
  distinct : (owned ++ pool.freed).Nodup
  given : ∀ slot ∈ owned ++ pool.freed, 0 < slot.toNat ∧ slot.toNat < pool.next
  positive : 0 < pool.next
  bounded : pool.next ≤ slotCount

namespace SlotPool

variable {pool after : SlotPool} {slot : UInt8} {owned : List UInt8}

theorem Accounts.new : Accounts {} [] :=
  ⟨List.nodup_nil, by simp, by decide, by decide⟩

theorem Accounts.perm {others : List UInt8} (accounts : pool.Accounts owned)
    (same : owned.Perm others) : pool.Accounts others :=
  ⟨(same.append_right _).nodup_iff.mp accounts.distinct,
    fun slot member => accounts.given slot ((same.append_right _).mem_iff.mpr member),
    accounts.positive, accounts.bounded⟩

/-- A slot that is handed out was not in use. -/
theorem Accounts.allocate (accounts : pool.Accounts owned)
    (found : pool.allocate? = some (slot, after)) : after.Accounts (slot :: owned) := by
  unfold allocate? at found
  cases waiting : pool.freed with
  | cons first rest =>
    simp only [waiting, Option.some.injEq, Prod.mk.injEq] at found
    obtain ⟨rfl, rfl⟩ := found
    have same : (owned ++ pool.freed).Perm (first :: owned ++ rest) := by
      rw [waiting]
      exact List.perm_middle
    exact ⟨same.nodup_iff.mp accounts.distinct,
      fun slot member => accounts.given slot (same.mem_iff.mpr member), accounts.positive,
      accounts.bounded⟩
  | nil =>
    by_cases room : pool.next < slotCount
    · simp only [waiting, room, if_true, Option.some.injEq, Prod.mk.injEq] at found
      obtain ⟨rfl, rfl⟩ := found
      have number : (UInt8.ofNat pool.next).toNat = pool.next :=
        UInt8.toNat_ofNat_of_lt room
      have old : ∀ slot ∈ owned, 0 < slot.toNat ∧ slot.toNat < pool.next := by
        simpa [waiting] using accounts.given
      refine ⟨?_, ?_, Nat.succ_pos _, room⟩
      · simp only [List.append_nil, List.nodup_cons]
        refine ⟨fun member => ?_, by simpa [waiting] using accounts.distinct⟩
        have := (old _ member).2
        omega
      · intro slot member
        simp only [List.append_nil, List.mem_cons] at member
        show 0 < slot.toNat ∧ slot.toNat < pool.next + 1
        rcases member with rfl | member
        · have := accounts.positive
          omega
        · have := old slot member
          omega
    · simp [waiting, room] at found

theorem Accounts.release (accounts : pool.Accounts (slot :: owned)) :
    (pool.release slot).Accounts owned := by
  have same : (slot :: owned ++ pool.freed).Perm (owned ++ (pool.freed ++ [slot])) := by
    rw [List.perm_iff_count]
    intro a
    simp only [List.count_append, List.count_cons, List.count_nil]
    omega
  exact ⟨same.nodup_iff.mp accounts.distinct,
    fun slot member => accounts.given slot (same.mem_iff.mpr member), accounts.positive,
    accounts.bounded⟩

/-- A rule about the slots in use that lasts when a slot is handed out, and when one is given
back. -/
structure Lasting (rule : SlotPool → List UInt8 → Prop) : Prop where
  perm : ∀ {pool : SlotPool} {owned others : List UInt8}, rule pool owned → owned.Perm others →
    rule pool others
  allocate : ∀ {pool after : SlotPool} {slot : UInt8} {owned : List UInt8}, rule pool owned →
    pool.allocate? = some (slot, after) → rule after (slot :: owned)
  release : ∀ {pool : SlotPool} {slot : UInt8} {owned : List UInt8}, rule pool (slot :: owned) →
    rule (pool.release slot) owned

theorem accounts_lasting : Lasting Accounts := ⟨.perm, .allocate, .release⟩

theorem Lasting.hands {rule : SlotPool → List UInt8 → Prop} (lasting : Lasting rule)
    {slots : List UInt8} (holds : rule pool owned) (hands : pool.Hands slots after) :
    rule after (slots ++ owned) := by
  induction hands generalizing owned with
  | nil => exact holds
  | cons first rest ih =>
    exact lasting.perm (ih (lasting.allocate holds first)) List.perm_middle

theorem Lasting.releaseAll {rule : SlotPool → List UInt8 → Prop} (lasting : Lasting rule)
    {slots : List UInt8} (holds : rule pool (slots ++ owned)) :
    rule (slots.foldl SlotPool.release pool) owned := by
  induction slots generalizing pool with
  | nil => exact holds
  | cons slot more ih => exact ih (lasting.release holds)

end SlotPool

/-- The slots of a procedure's parameters and of its result. -/
def Draft.slots (draft : Draft) : List UInt8 :=
  draft.params.map (·.slot) ++ draft.resultSlot.toList

def Procedure.slots (procedure : Procedure) : List UInt8 :=
  procedure.params.map (·.slot) ++ procedure.resultSlot.toList

theorem Draft.finish_slots (draft : Draft) : draft.finish.slots = draft.slots := by
  simp [Procedure.slots, Draft.slots, Draft.finish, Function.comp_def]

theorem Draft.Retyped.slots_eq {before after : Draft} (retyped : before.Retyped after) :
    after.slots = before.slots := by
  have params := congrArg (List.map Prod.snd) retyped.params
  simp only [List.map_map, Function.comp_def] at params
  simp only [Draft.slots, params, retyped.resultSlot]

/-- The slots of the variables and loops that are visible. -/
def Scope.slots (scope : Scope) : List UInt8 :=
  scope.bindings.map (·.2.slot) ++ scope.scratch.map (·.1)

theorem Scope.mem_of_find? {scope : Scope} {name : String} {found : Variable}
    (known : scope.find? name = some found) : (name, found) ∈ scope.bindings := by
  obtain ⟨before, rest, split, -⟩ := List.lookup_eq_some_iff.mp known
  rw [split]
  simp

/-- The slot of a variable is in use. -/
theorem Scope.mem_slots {scope : Scope} {name : String} {found : Variable}
    (known : scope.find? name = some found) : found.slot ∈ scope.slots :=
  List.mem_append_left _ (List.mem_map.mpr ⟨_, mem_of_find? known, rfl⟩)

/-- What is in use stays in use. -/
theorem Compiler.Grows.slots_subset {before after : Compiler} (grows : before.Grows after) :
    before.scope.slots ⊆ after.scope.slots := by
  obtain ⟨new, bindings, -⟩ := grows.bindings
  rw [Scope.slots, Scope.slots, grows.scratch, bindings, List.map_append, List.append_assoc]
  exact List.subset_append_right _ _

namespace Compiler

/-- The slots of all procedures. They are never given back. -/
def procedureSlots (c : Compiler) : List UInt8 :=
  (match c.draft with
    | some draft => draft.slots
    | none => []) ++ c.procedures.flatMap Procedure.slots

/-- All slots in use. -/
def owned (c : Compiler) : List UInt8 := c.scope.slots ++ c.procedureSlots

/-- Whatever other slots are in use, a step keeps a rule. -/
def Upholds (rule : SlotPool → List UInt8 → Prop) (before after : Compiler) : Prop :=
  ∀ others, rule before.slots (others ++ before.owned) → rule after.slots (others ++ after.owned)

/-- Whatever other slots are in use, a step keeps the slots distinct. -/
def Balanced (before after : Compiler) : Prop :=
  ∀ others, before.slots.Accounts (others ++ before.owned) →
    after.slots.Accounts (others ++ after.owned)

variable {rule : SlotPool → List UInt8 → Prop}

theorem Upholds.refl (c : Compiler) : c.Upholds rule c := fun _ holds => holds

theorem Upholds.trans {first second third : Compiler} (one : first.Upholds rule second)
    (two : second.Upholds rule third) : first.Upholds rule third :=
  fun others holds => two others (one others holds)

theorem Upholds.of_eq {before after : Compiler} (slots : after.slots = before.slots)
    (owned : after.owned = before.owned) : before.Upholds rule after := by
  intro others holds
  rw [slots, owned]
  exact holds

theorem Retyped.upholds {before after : Compiler} (retyped : before.Retyped after) :
    before.Upholds rule after := by
  rcases retyped with rfl | ⟨draft, changed, inside, same, rfl⟩
  · exact .refl _
  · refine .of_eq rfl ?_
    have now : ({ before with pending := some changed } : Compiler).draft = some changed :=
      draft_pending inside rfl rfl same.name
    simp only [owned, procedureSlots, inside, now, same.slots_eq]

theorem Retyped.balanced {before after : Compiler} (retyped : before.Retyped after) :
    before.Balanced after :=
  retyped.upholds

/-- A scope that is left gives back exactly the slots that were introduced in it. -/
theorem left_upholds (lasting : SlotPool.Lasting rule) {inner : Compiler} {outer : Scope}
    {new : List (String × Variable)} {extra : List (UInt8 × Nat)}
    (opened : Scope.Opened outer inner.scope new extra) (tidy : outer.Tidy) :
    inner.Upholds rule inner.left := by
  intro others holds
  apply lasting.releaseAll
  refine lasting.perm holds ?_
  have given := opened.leave_slots tidy
  rw [List.perm_iff_count] at given ⊢
  intro a
  have := given a
  simp only [owned, procedureSlots, left, draft_mk, Scope.slots, opened.leave_scope tidy,
    opened.bindings, opened.scratch, List.map_append, List.count_append] at this ⊢
  omega

end Compiler

namespace Compile

open Compiler

variable {rule : SlotPool → List UInt8 → Prop} {c c' : Compiler} {slot : UInt8}

theorem resultSlot_upholds (lasting : SlotPool.Lasting rule)
    (done : resultSlot c = .ok (slot, c')) : c.Upholds rule c' := by
  rcases resultSlot_ok done with
    ⟨-, -, rfl⟩ | ⟨draft, -, -, rfl⟩ | ⟨draft, slots, inside, unknown, found, rfl⟩
  · exact .refl _
  · exact .refl _
  · intro others holds
    refine lasting.perm (lasting.allocate holds found) ?_
    rw [List.perm_iff_count]
    intro a
    simp only [owned, procedureSlots, inside, draft_resultSlot inside, Draft.slots, unknown,
      Option.toList, List.count_append, List.count_cons, List.count_nil]
    omega

theorem finishStatement_upholds (lasting : SlotPool.Lasting rule) {n : Node} {x : Compiled}
    {code : Fragment} (done : finishStatement n x c = .ok (code, c')) : c.Upholds rule c' := by
  obtain ⟨type, between, assumes, -, ⟨-, -, rfl⟩ | ⟨slot, after, -, found, -, rfl⟩⟩ :=
    finishStatement_ok done
  · exact assumes.retyped.upholds.trans (.of_eq rfl rfl)
  · exact (assumes.retyped.upholds.trans (resultSlot_upholds lasting found)).trans (.of_eq rfl rfl)

theorem finishStatement_balanced {n : Node} {x : Compiled} {code : Fragment}
    (done : finishStatement n x c = .ok (code, c')) : c.Balanced c' :=
  finishStatement_upholds SlotPool.accounts_lasting done

theorem allocateScratch_upholds (lasting : SlotPool.Lasting rule)
    (done : allocateScratch c = .ok (slot, c')) : c.Upholds rule c' := by
  obtain ⟨slots, found, rfl⟩ := allocateScratch_ok done
  intro others holds
  refine lasting.perm (lasting.allocate holds found) ?_
  rw [List.perm_iff_count]
  intro a
  simp only [owned, procedureSlots, draft_mk, Scope.slots, Scope.addScratch, List.map_append,
    List.map_cons, List.map_nil, List.count_append, List.count_cons, List.count_nil]
  omega

theorem allocateScratch_balanced (done : allocateScratch c = .ok (slot, c')) : c.Balanced c' :=
  allocateScratch_upholds SlotPool.accounts_lasting done

/-- The parameters of a procedure that is started own the slots that were handed out for them. -/
theorem startDraft_upholds (lasting : SlotPool.Lasting rule) {name : String} {params : List Param}
    {returns : Option Ty} (done : startDraft name params returns c = .ok ((), c')) :
    c.Upholds rule c' := by
  obtain ⟨outside, -, -, parameters, slots, hands, -, rfl⟩ := startDraft_ok done
  intro others holds
  refine lasting.perm (lasting.hands holds hands) ?_
  rw [List.perm_iff_count]
  intro a
  simp only [owned, procedureSlots, draft_outside outside, draft_mk_some, Draft.slots,
    Option.toList, List.append_nil, List.nil_append, List.count_append]
  omega

end Compile

open Compile Compiler

/-- Every task keeps a lasting rule about the slots in use. -/
theorem Yields.upholds {rule : SlotPool → List UInt8 → Prop} (lasting : SlotPool.Lasting rule)
    {task : Task} {c c' : Compiler} {x : Compiled} (derivation : Yields task c x c')
    (tidy : c.scope.Tidy) : c.Upholds rule c' := by
  induction derivation with
  | literal | literals | initialDefault | giveNothing | noArguments | noItems | noStatements =>
    exact .refl _
  | unary _ operand => exact operand tidy
  | arith left right first second | order left right first second | logic left right first second =>
    exact (first tidy).trans (second (left.tidy tidy))
  | comparison _ left _ right _ agreed first second =>
    exact ((first tidy).trans (second (left.tidy tidy))).trans (agree_ok agreed).upholds
  | result _ found => exact resultSlot_upholds lasting found
  | var found =>
    rcases reference_ok found with ⟨_, _, _, _, retyped⟩ | ⟨_, _, _, _, rfl⟩
    · exact retyped.upholds
    · exact .refl _
  | @declare name type _ _ c slot c₁ _ c' found fresh allocated initial _ start =>
    obtain ⟨slots, given, rfl⟩ := allocate_ok allocated
    have steady := (initial.growth tidy).2 trivial
    have new : c'.scope.find? name = none := by
      rw [steady.scope]
      exact (Compiler.find?_of_invisible fresh).2
    intro others holds
    -- The new slot is in use, though no variable has it yet, while the value is computed.
    have pending := start tidy (slot :: others) (lasting.allocate holds given)
    refine lasting.perm pending ?_
    rw [List.perm_iff_count]
    intro a
    simp only [owned, procedureSlots, draft_mk, Scope.slots, Scope.declare_bindings new,
      List.map_cons, List.count_append, List.count_cons]
    simp only [Scope.declare]
    omega
  | assignParam _ _ _ resolved value =>
    exact (value tidy).trans (settleOpen_retyped resolved).upholds
  | assignVariable _ _ _ value => exact value tidy
  | branch test body condition inner | loop test body condition inner =>
    exact (condition tidy).trans (inner (test.tidy tidy))
  | alternative test body other condition inner otherwise =>
    exact ((condition tidy).trans (inner (test.tidy tidy))).trans
      (otherwise (body.tidy (test.tidy tidy)))
  | @times _ _ _ c _ _ threshold _ counter _ _ c' count first second body amount inner =>
    have scratch :=
      (allocateScratch_upholds lasting first).trans (allocateScratch_upholds lasting second)
    have opened := Yields.loop_opened tidy count first second body
    obtain ⟨slots, -, rfl⟩ := allocateScratch_ok first
    obtain ⟨slots', -, rfl⟩ := allocateScratch_ok second
    have tidy₁ := ((count.tidy tidy.enter).addScratch threshold).addScratch counter
    have entered : c.Upholds rule { c with scope := c.scope.enter } := .of_eq rfl rfl
    exact (((entered.trans (amount tidy.enter)).trans scratch).trans (inner tidy₁)).trans
      (Compiler.left_upholds lasting opened tidy)
  | call _ _ _ finished given =>
    exact (given tidy).trans (finishCall_ok finished).2.2.retyped.upholds
  | define started body finished inner =>
    have begun := startDraft_upholds lasting started
    obtain ⟨-, -, -, parameters, slots, -, -, rfl⟩ := startDraft_ok started
    obtain ⟨draft, entry, -, -, -, rfl⟩ := finishDraft_ok finished
    have inside := (draft_of_current (body.grows tidy).current).trans entry
    intro others holds
    refine lasting.perm (inner tidy others (begun others holds)) ?_
    rw [List.perm_iff_count]
    intro a
    simp only [owned, procedureSlots, inside, draft_mk_none, Draft.finish_slots,
      List.flatMap_append, List.flatMap_cons, List.flatMap_nil, List.append_nil, List.nil_append,
      List.count_append]
    omega
  | convert _ _ _ _ value => exact value tidy
  | giveBack inside value _ noted given =>
    have declared := ((value.growth tidy).2 trivial).declared inside
    exact (given tidy).trans (noteReturn_ok noted declared).upholds
  | list _ _ _ items => exact items tidy
  | item _ list index items place => exact (items tidy).trans (place (list.tidy tidy))
  | setItem list _ index value items place new =>
    exact ((items tidy).trans (place (list.tidy tidy))).trans (new (index.tidy (list.tidy tidy)))
  | operand _ expected inner | valueOf _ expected _ inner =>
    exact (inner tidy).trans (expect_ok expected).1.upholds
  | valueFound _ _ _ inner | giveFound _ _ _ _ inner => exact inner tidy
  | initialValue _ inner | giveDeclared _ _ inner => exact inner tidy
  | moreArguments _ argument _ resolved more first rest =>
    have settled := settleOpen_retyped resolved
    exact ((first tidy).trans settled.upholds).trans
      (rest (settled.steady.tidy (argument.tidy tidy)))
  | moreItems item more first rest => exact (first tidy).trans (rest (item.tidy tidy))
  | moreStatements statement finished more first rest =>
    have settled := (finishStatement_steady finished).grows.of_prior
    exact ((first tidy).trans (finishStatement_upholds lasting finished)).trans
      (rest (settled.tidy (statement.tidy tidy)))
  | @block _ c x c' statements inner =>
    obtain ⟨new, opened⟩ := (statements.grows tidy.enter).opened
    have entered : c.Upholds rule c.entered := .of_eq rfl rfl
    have left : c'.left.Upholds rule { c'.left with prior := c.prior } := .of_eq rfl rfl
    exact ((entered.trans (inner tidy.enter)).trans
      (Compiler.left_upholds lasting opened tidy)).trans left

/-- Every task keeps the slots distinct. -/
theorem Yields.balanced {task : Task} {c c' : Compiler} {x : Compiled}
    (derivation : Yields task c x c') (tidy : c.scope.Tidy) : c.Balanced c' :=
  derivation.upholds SlotPool.accounts_lasting tidy

end Primer
