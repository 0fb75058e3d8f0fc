import Primer.Machine.Locals
import Primer.Proofs.Compilation.Ownership
import Primer.Proofs.Meaning.Typing

/-!
What the machine and the interpreter have in common between two statements: every variable in scope
has the same value in its slot and in the store, and the value is of the type that the compiler
knows. Writing to slots keeps the agreement, since the slots in use are distinct.
-/

set_option autoImplicit false
set_option relaxedAutoImplicit false

namespace Primer

namespace Locals

variable (locals : Locals) (slot : UInt8) (value : Value)

@[simp] theorem get?_set_self : (locals.set slot value).get? slot = some value := by
  have inside := slot_lt slot
  show (locals.cells.set slot.toNat (some value))[slot.toNat] = some value
  simp

@[simp] theorem get?_set_ne {other : UInt8} (differs : other ≠ slot) :
    (locals.set slot value).get? other = locals.get? other := by
  have apart : slot.toNat ≠ other.toNat := fun same => differs (UInt8.toNat_inj.mp same.symm)
  have inside := slot_lt slot
  have there := slot_lt other
  show (locals.cells.set slot.toNat (some value))[other.toNat] = locals.cells[other.toNat]
  simp [apart]

@[simp] theorem get?_free_ne {other : UInt8} (differs : other ≠ slot) :
    (locals.free slot).get? other = locals.get? other := by
  have apart : slot.toNat ≠ other.toNat := fun same => differs (UInt8.toNat_inj.mp same.symm)
  have inside := slot_lt slot
  have there := slot_lt other
  show (locals.cells.set slot.toNat none)[other.toNat] = locals.cells[other.toNat]
  simp [apart]

@[simp] theorem get?_free_self : (locals.free slot).get? slot = none := by
  have inside := slot_lt slot
  show (locals.cells.set slot.toNat none)[slot.toNat] = none
  simp

@[simp] theorem get?_empty : ({} : Locals).get? slot = none := by
  have inside := slot_lt slot
  show (Vector.replicate slotCount none)[slot.toNat] = none
  simp

theorem ext_get? {first second : Locals} (same : ∀ slot, first.get? slot = second.get? slot) :
    first = second := by
  obtain ⟨cells⟩ := first
  obtain ⟨cells'⟩ := second
  rw [mk.injEq]
  ext position inside : 1
  have fits : (UInt8.ofNat position).toNat = position := UInt8.toNat_ofNat_of_lt' inside
  have here := same (UInt8.ofNat position)
  simp only [get?, Vector.get, fits] at here
  exact here

/-- Free slots one after another. -/
def freeAll (locals : Locals) (slots : List UInt8) : Locals := slots.foldl free locals

theorem get?_freeAll {locals : Locals} {slots : List UInt8} {other : UInt8} (kept : other ∉ slots) :
    (locals.freeAll slots).get? other = locals.get? other := by
  induction slots generalizing locals with
  | nil => rfl
  | cons slot more ih =>
    obtain ⟨differs, rest⟩ := not_or.mp (mt List.mem_cons.mpr kept)
    exact (ih rest).trans (get?_free_ne locals slot differs)

/-- Freeing slots empties them, and fills no other. -/
theorem get?_freeAll_none {locals : Locals} {slots : List UInt8} {other : UInt8}
    (gone : other ∈ slots ∨ locals.get? other = none) :
    (locals.freeAll slots).get? other = none := by
  induction slots generalizing locals with
  | nil => exact gone.resolve_left (by simp)
  | cons slot more ih =>
    refine ih ?_
    by_cases same : other = slot
    · exact .inr (same ▸ get?_free_self locals other)
    · rw [get?_free_ne locals slot same]
      exact gone.imp_left fun listed => (List.mem_cons.mp listed).resolve_left same

end Locals

open Interpreter

/-- The slots of the variables hold the values of the store, newest first. -/
def Held (locals : Locals) : List (String × Variable) → List (String × Value) → Prop
  | [], [] => True
  | (name, known) :: bindings, (other, value) :: entries =>
    name = other ∧ locals.get? known.slot = some value ∧ value.type = known.type ∧
      known.type ≠ .void ∧ Held locals bindings entries
  | _, _ => False

namespace Held

variable {locals after : Locals} {bindings : List (String × Variable)}
  {entries : List (String × Value)}

theorem length_eq (held : Held locals bindings entries) : entries.length = bindings.length := by
  induction bindings generalizing entries with
  | nil =>
    cases entries with
    | nil => rfl
    | cons => exact held.elim
  | cons binding bindings ih =>
    cases entries with
    | nil => exact held.elim
    | cons variable' entries =>
      obtain ⟨-, -, -, -, rest⟩ := held
      rw [List.length_cons, List.length_cons, ih rest]

theorem find {name : String} {found : Variable} (held : Held locals bindings entries)
    (known : bindings.lookup name = some found) :
    ∃ value, entries.lookup name = some value ∧ locals.get? found.slot = some value ∧
      value.type = found.type ∧ found.type ≠ .void := by
  induction bindings generalizing entries with
  | nil => cases known
  | cons binding bindings ih =>
    cases entries with
    | nil => exact held.elim
    | cons first entries =>
      obtain ⟨here, type⟩ := binding
      obtain ⟨other, value⟩ := first
      obtain ⟨rfl, filled, typed, isValue, rest⟩ := held
      rw [List.lookup_cons] at known
      by_cases same : name = here
      · subst same
        simp only [BEq.rfl, Option.some.injEq] at known
        subst known
        exact ⟨value, by simp, filled, typed, isValue⟩
      · have differs : (name == here) = false := by simpa using same
        rw [differs] at known
        obtain ⟨value', listed, more⟩ := ih rest known
        exact ⟨value', by rw [List.lookup_cons, differs]; exact listed, more⟩

/-- Slots that are written to but belong to no variable do not matter. -/
theorem mono (held : Held locals bindings entries)
    (kept : ∀ slot ∈ bindings.map (·.2.slot), after.get? slot = locals.get? slot) :
    Held after bindings entries := by
  induction bindings generalizing entries with
  | nil =>
    cases entries with
    | nil => trivial
    | cons => exact held.elim
  | cons binding bindings ih =>
    cases entries with
    | nil => exact held.elim
    | cons first entries =>
      obtain ⟨same, filled, typed, isValue, rest⟩ := held
      refine ⟨same, ?_, typed, isValue, ih rest fun slot member => ?_⟩
      · rw [kept _ (by simp), filled]
      · exact kept slot (List.mem_cons_of_mem _ member)

/-- A new value for a variable, in its slot and in the store. -/
theorem assign {name : String} {found : Variable} {value : Value}
    (held : Held locals bindings entries) (distinct : (bindings.map (·.2.slot)).Nodup)
    (known : bindings.lookup name = some found) (typed : value.type = found.type) :
    Held (locals.set found.slot value) bindings (Store.replace name value entries) := by
  induction bindings generalizing entries with
  | nil => cases known
  | cons binding bindings ih =>
    cases entries with
    | nil => exact held.elim
    | cons first entries =>
      obtain ⟨here, own⟩ := binding
      obtain ⟨other, old⟩ := first
      obtain ⟨rfl, filled, oldType, isValue, rest⟩ := held
      have apart : own.slot ∉ bindings.map (·.2.slot) := (List.nodup_cons.mp distinct).1
      have others : (bindings.map (·.2.slot)).Nodup := (List.nodup_cons.mp distinct).2
      rw [List.lookup_cons] at known
      by_cases same : name = here
      · subst same
        simp only [BEq.rfl, Option.some.injEq] at known
        subst known
        rw [Store.replace, if_pos rfl]
        refine ⟨rfl, Locals.get?_set_self .., typed, isValue, rest.mono fun slot member => ?_⟩
        exact Locals.get?_set_ne _ _ _ fun equal => apart (equal ▸ member)
      · have differs : (name == here) = false := by simpa using same
        rw [differs] at known
        rw [Store.replace, if_neg fun equal => same equal.symm]
        refine ⟨rfl, ?_, oldType, isValue, ih rest others known⟩
        rw [Locals.get?_set_ne _ _ _ fun equal => apart ?_, filled]
        obtain ⟨before, rest, split, -⟩ := List.lookup_eq_some_iff.mp known
        rw [split, equal]
        simp

theorem drop {new : List (String × Variable)} (held : Held locals (new ++ bindings) entries) :
    Held locals bindings (entries.drop (entries.length - bindings.length)) := by
  have length := held.length_eq
  rw [List.length_append] at length
  rw [length, Nat.add_sub_cancel]
  induction new generalizing entries with
  | nil => exact held
  | cons binding new ih =>
    cases entries with
    | nil => exact held.elim
    | cons first entries =>
      obtain ⟨-, -, -, -, rest⟩ := held
      exact ih rest (rest.length_eq.trans List.length_append)

end Held

/-- The variables in scope and the result are the same to the machine and to the interpreter. -/
structure Agrees (scope : Scope) (locals : Locals) (store : Store) : Prop where
  held : Held locals scope.bindings store.entries
  result : locals.get? resultSlot = store.result

namespace SlotPool.Accounts

variable {pool : SlotPool} {owned : List UInt8} {slot : UInt8}

theorem nodup (accounts : pool.Accounts owned) : owned.Nodup :=
  (List.nodup_append.mp accounts.distinct).1

theorem ne_result (accounts : pool.Accounts owned) (member : slot ∈ owned) : slot ≠ resultSlot := by
  intro same
  have positive := (accounts.given slot (List.mem_append_left _ member)).1
  rw [same] at positive
  exact absurd positive (by decide)

theorem sublist {fewer : List UInt8} (accounts : pool.Accounts owned) (less : fewer.Sublist owned) :
    pool.Accounts fewer :=
  ⟨accounts.distinct.sublist (less.append_right _),
    fun slot member => accounts.given slot ((less.append_right _).subset member), accounts.positive,
    accounts.bounded⟩

end SlotPool.Accounts

namespace Agrees

variable {scope : Scope} {locals : Locals} {store : Store} {pool : SlotPool}

theorem find {name : String} {found : Variable} (agrees : Agrees scope locals store)
    (known : scope.find? name = some found) :
    ∃ value, store.find? name = some value ∧ locals.get? found.slot = some value ∧
      value.type = found.type ∧ found.type ≠ .void :=
  agrees.held.find known

theorem describes (agrees : Agrees scope locals store) : scope.Describes store := by
  intro name found known
  obtain ⟨value, held, -, typed, -⟩ := agrees.find known
  exact ⟨value, held, typed⟩

theorem mono {after : Locals} (agrees : Agrees scope locals store)
    (kept : ∀ slot ∈ scope.bindings.map (·.2.slot), after.get? slot = locals.get? slot)
    (result : after.get? resultSlot = locals.get? resultSlot) : Agrees scope after store :=
  ⟨agrees.held.mono kept, result.trans agrees.result⟩

theorem assign {name : String} {found : Variable} {value : Value}
    (agrees : Agrees scope locals store)
    (accounts : pool.Accounts scope.slots) (known : scope.find? name = some found)
    (typed : value.type = found.type) :
    Agrees scope (locals.set found.slot value) (store.assign name value) := by
  have distinct := (List.nodup_append.mp accounts.nodup).1
  refine ⟨agrees.held.assign distinct known typed, ?_⟩
  have notResult := accounts.ne_result (Scope.mem_slots known)
  exact Eq.trans (Locals.get?_set_ne _ _ _ notResult.symm) agrees.result

/-- A new variable has a slot of its own. -/
theorem declare {name : String} {slot : UInt8} {type : Ty} {value : Value}
    (agrees : Agrees scope locals store) (new : scope.find? name = none)
    (accounts : pool.Accounts (slot :: scope.slots)) (typed : value.type = type)
    (isValue : type ≠ .void) :
    Agrees (scope.declare name type slot) (locals.set slot value) (store.declare name value) := by
  have fresh := (List.nodup_cons.mp accounts.nodup).1
  constructor
  · rw [Scope.declare_bindings new]
    refine ⟨rfl, Locals.get?_set_self .., typed, isValue, agrees.held.mono fun other member => ?_⟩
    refine Locals.get?_set_ne _ _ _ fun same => fresh ?_
    exact same ▸ List.mem_append_left _ member
  · rw [Locals.get?_set_ne _ _ _ (accounts.ne_result List.mem_cons_self).symm]
    exact agrees.result

/-- The variables that were declared since are dropped. -/
theorem keep {outer : Scope} {new : List (String × Variable)}
    (agrees : Agrees scope locals store) (grown : scope.bindings = new ++ outer.bindings) :
    Agrees outer locals (store.keep outer.bindings.length) := by
  have held := agrees.held
  rw [grown] at held
  exact ⟨held.drop, agrees.result⟩

/-- A new result touches no variable. -/
theorem setResult (agrees : Agrees scope locals store) (accounts : pool.Accounts scope.slots)
    (value : Value) :
    Agrees scope (locals.set resultSlot value) { store with result := some value } := by
  refine ⟨agrees.held.mono fun slot member => ?_, Locals.get?_set_self ..⟩
  exact Locals.get?_set_ne _ _ _ (accounts.ne_result (List.mem_append_left _ member))

/-- The slot of a loop is no variable's. -/
theorem setScratch {slot : UInt8} (agrees : Agrees scope locals store)
    (accounts : pool.Accounts scope.slots) (scratch : slot ∈ scope.scratch.map (·.1))
    (value : Value) : Agrees scope (locals.set slot value) store := by
  have apart := (List.nodup_append.mp accounts.nodup).2.2
  have notResult := accounts.ne_result (List.mem_append_right _ scratch)
  refine agrees.mono (fun other member => ?_) (Locals.get?_set_ne _ _ _ notResult.symm)
  exact Locals.get?_set_ne _ _ _ fun same => apart other member slot scratch same

theorem freeAll {slots : List UInt8} (agrees : Agrees scope locals store)
    (accounts : pool.Accounts (slots ++ scope.slots)) :
    Agrees scope (locals.freeAll slots) store := by
  have apart := (List.nodup_append.mp accounts.nodup).2.2
  refine agrees.mono (fun slot member => ?_) ?_
  · exact Locals.get?_freeAll fun freed => apart slot freed slot (List.mem_append_left _ member) rfl
  · exact Locals.get?_freeAll fun freed =>
      accounts.ne_result (List.mem_append_left _ freed) rfl

end Agrees

end Primer
