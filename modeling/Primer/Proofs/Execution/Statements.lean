import Primer.Proofs.Execution.Expressions

/-!
The code of statements changes the slots as the interpreter changes the store. `Acts` is to
execution what `Carries` is to evaluation. Between statements the slots and the store agree; while a
block is executed, the slots of the loops around it are left alone.
-/

set_option autoImplicit false
set_option relaxedAutoImplicit false

namespace Primer

open Compile Interpreter

variable {σ α β : Type}

/-- A node that is no definition, or does not stand at the top, defines no procedure. -/
theorem Yields.procedures_eq {n : Node} {want : Option Ty} {c c' : Compiler} {x : Compiled}
    (derivation : Yields (.node n want) c x c') (tidy : c.scope.Tidy)
    (plain : 0 < c.scope.depth ∨ n.isDefinition = false) : c'.procedures = c.procedures := by
  rcases plain with deep | other
  · exact ((derivation.grows tidy).within (.inr deep)).1
  · cases introduces : n.introduces with
    | false => exact ((derivation.growth tidy).2 introduces).procedures
    | true =>
      cases derivation with
      | declare fresh allocated initial typed =>
        obtain ⟨slots, -, rfl⟩ := allocate_ok allocated
        exact ((initial.growth tidy).2 trivial).procedures
      | define => cases other
      | _ => cases introduces

namespace Launch

variable {launch : Launch σ}

variable (launch) in
/-- From one address to another, the code does what the execution does: it changes the locals as the
store is changed, or ends as the execution halts. Halting leaves the variables from before the unit
in agreement, and a strict execution does not get stuck. -/
def Acts (start finish : Nat) (locals : Locals) (store : Store) (given : List Value)
    (work : Perform σ α) (after : α → List Value → Locals → Store → Prop) : Prop :=
  ∀ stack count w,
    (∀ a store' w' values locals' later, work store w = ((.ok a, store'), w') →
      after a values locals' store' → count ≤ later →
      launch.plan.Leads (launch.plan.state finish (values ++ stack) locals' later) w') →
    (∀ halt store' w' locals', work store w = ((.error halt, store'), w') →
      (halt = .stuck → launch.rules.strict = false) →
      Agrees launch.before.scope locals' (store'.keep launch.before.scope.bindings.length) →
      launch.plan.Settles locals' halt w') →
    launch.plan.Leads (launch.plan.state start (given ++ stack) locals count) w

namespace Acts

variable {start middle finish : Nat} {locals : Locals} {store : Store} {given : List Value}
  {work : Perform σ α} {after : α → List Value → Locals → Store → Prop}

theorem bind {next : α → Perform σ β} {last : β → List Value → Locals → Store → Prop}
    (first : launch.Acts start middle locals store given work after)
    (rest : ∀ a values locals' store', after a values locals' store' →
      launch.Acts middle finish locals' store' values (next a) last) :
    launch.Acts start finish locals store given (work >>= next) last := by
  intro stack count w good bad
  refine first stack count w (fun a store' w' values locals' later done reached more => ?_)
    fun halt store' w' locals' done => bad halt store' w' locals' (Perform.bind_error done)
  refine rest a values locals' store' reached stack later w'
    (fun b store'' w'' values' locals'' later' done' reached' more' => ?_)
    fun halt store'' w'' locals'' done' => bad halt store'' w'' locals'' ?_
  · exact good b store'' w'' values' locals'' later' (by rw [Perform.bind_ok done, done']) reached'
      (Nat.le_trans more more')
  · rw [Perform.bind_ok done, done']

/-- Values that lie deeper are left alone. -/
theorem frame (acts : launch.Acts start finish locals store given work after)
    (deeper : List Value) :
    launch.Acts start finish locals store (given ++ deeper) work
      fun a values locals' store' => ∃ top, values = top ++ deeper ∧
      after a top locals' store' := by
  intro stack count w good bad
  rw [List.append_assoc]
  refine acts (deeper ++ stack) count w
    (fun a store' w' values locals' later done reached more => ?_) bad
  have next := good a store' w' (values ++ deeper) locals' later done ⟨values, rfl, reached⟩ more
  rwa [List.append_assoc] at next

theorem imp {weaker : α → List Value → Locals → Store → Prop}
    (acts : launch.Acts start finish locals store given work after)
    (follows : ∀ a values locals' store', after a values locals' store' →
      weaker a values locals' store') :
    launch.Acts start finish locals store given work weaker :=
  fun stack count w good bad => acts stack count w
    (fun a store' w' values locals' later done reached =>
      good a store' w' values locals' later done (follows a values locals' store' reached)) bad

theorem pure {a : α} (reached : after a given locals store) :
    launch.Acts start start locals store given (pure a) after :=
  fun _ count w good _ => good a store w given locals count rfl reached (Nat.le_refl _)

end Acts

/-- What is evaluated safely can be observed. -/
theorem Carries.observed {start finish : Nat} {locals : Locals} {store : Store} {given : List Value}
    (look : Store → Evaluate σ α) {made : α → List Value → Prop} {good : α → Prop}
    (carries : launch.Carries start finish locals given (look store) made)
    (safe : Safe good (look store))
    (kept : Agrees launch.before.scope locals (store.keep launch.before.scope.bindings.length)) :
    launch.Acts start finish locals store given (observe look)
      fun a values locals' store' => made a values ∧ good a ∧ locals' = locals ∧
      store' = store := by
  intro stack count w next bad
  refine carries stack count w (fun a w' values later done makes more => ?_) fun halt w' done => ?_
  · have isGood := safe w
    rw [done] at isGood
    exact next a store w' values locals later (by simp only [observe, done])
      ⟨makes, isGood, rfl, rfl⟩ more
  · have notStuck := safe w
    rw [done] at notStuck
    exact bad halt store w' locals (by simp only [observe, done])
      (fun stuck => absurd stuck notStuck) kept

/-- A value is taken off the stack and stored, and the store is changed. -/
theorem acts_store {ip : Nat} {locals : Locals} {store : Store} {slot : UInt8} {value : Value}
    {change : Store → Store} (settled : launch.Settled locals)
    (fetches : launch.base.code.Fetches ip (.store slot)) :
    launch.Acts ip (ip + (Instruction.store slot).size) locals store [value] (modify change)
      fun _ values locals' store' =>
        values = [] ∧ locals' = locals.set slot value ∧ store' = change store := by
  intro stack count w good bad
  refine Plan.leads_store fetches (settled.watched fetches (by simp) _ _) ?_
  exact good ⟨⟩ (change store) w [] (locals.set slot value) (count + 1) rfl ⟨rfl, rfl, rfl⟩
    (Nat.le_succ count)

namespace Inside

variable {c c' : Compiler}

theorem enter (inside : launch.Inside c) : launch.Inside { c with scope := c.scope.enter } :=
  ⟨⟨inside.plain.outside, inside.plain.noProcedures, inside.plain.hosts⟩, inside.tidy.enter,
    inside.accounts, inside.grown⟩

theorem reprior (inside : launch.Inside c) (type : Ty) : launch.Inside { c with prior := type } :=
  ⟨⟨inside.plain.outside, inside.plain.noProcedures, inside.plain.hosts⟩, inside.tidy,
    inside.accounts, inside.grown⟩

theorem entered (inside : launch.Inside c) : launch.Inside c.entered := (inside.enter).reprior .void

/-- A slot that is handed out belongs to nothing else. -/
theorem allocate {slot : UInt8} (inside : launch.Inside c) (done : allocate c = .ok (slot, c')) :
    launch.Inside c' ∧ c'.slots.Accounts (slot :: c'.scope.slots) := by
  obtain ⟨slots, given, rfl⟩ := allocate_ok done
  have accounts := inside.accounts.allocate given
  refine ⟨⟨⟨inside.plain.outside, inside.plain.noProcedures, inside.plain.hosts⟩, inside.tidy,
    accounts.sublist (List.sublist_cons_self _ _), inside.grown⟩, ?_⟩
  exact accounts.sublist ((List.sublist_append_left _ _).cons_cons slot)

theorem allocateScratch {slot : UInt8} (inside : launch.Inside c)
    (done : allocateScratch c = .ok (slot, c')) : launch.Inside c' := by
  have balanced := allocateScratch_balanced done [] inside.accounts
  obtain ⟨slots, given, rfl⟩ := allocateScratch_ok done
  exact ⟨⟨inside.plain.outside, inside.plain.noProcedures, inside.plain.hosts⟩,
    inside.tidy.addScratch slot, balanced, inside.grown⟩

/-- A task that defines no procedure stays inside the unit. -/
theorem yields {task : Task} {x : Compiled} (inside : launch.Inside c)
    (derivation : Yields task c x c') (none : c'.procedures = c.procedures) : launch.Inside c' := by
  have grows := derivation.grows inside.tidy
  refine ⟨⟨?_, none.trans inside.plain.noProcedures, fun name => ?_⟩, grows.tidy inside.tidy,
    derivation.balanced inside.tidy [] inside.accounts, ?_⟩
  · have kept := grows.draft
    rw [inside.plain.outside] at kept
    exact kept.eq_none
  · rw [grows.hosts]
    exact inside.plain.hosts name
  · obtain ⟨older, grown⟩ := inside.grown
    obtain ⟨new, bindings, -⟩ := grows.bindings
    exact ⟨new ++ older, by rw [bindings, grown, List.append_assoc]⟩

end Inside

/-- What is in scope before and after decides what happens to the slots: those of the loops around
are left alone, the result is not lost, and what belongs to nothing afterwards is not filled. -/
structure Keeps (before after : Scope) (locals locals' : Locals) : Prop where
  scratch : ∀ cell ∈ before.scratch, locals'.get? cell.1 = locals.get? cell.1
  result : (locals.get? resultSlot).isSome → (locals'.get? resultSlot).isSome
  empty : ∀ slot, slot ≠ resultSlot → slot ∉ after.slots → locals.get? slot = none →
    locals'.get? slot = none

theorem Keeps.refl (before after : Scope) (locals : Locals) : Keeps before after locals locals :=
  ⟨fun _ _ => rfl, id, fun _ _ _ => id⟩

theorem Keeps.trans {before middle after : Scope} {first second third : Locals}
    (one : Keeps before middle first second) (two : Keeps before after second third)
    (grown : middle.slots ⊆ after.slots) : Keeps before after first third :=
  ⟨fun cell member => (two.scratch cell member).trans (one.scratch cell member),
    fun filled => two.result (one.result filled),
    fun slot other outside none =>
      two.empty slot other outside
        (one.empty slot other (fun member => outside (grown member)) none)⟩

/-- The slot of a variable is no loop's. -/
theorem Inside.binding_apart {c : Compiler} {name : String} {found : Variable}
    (inside : launch.Inside c) (known : c.scope.find? name = some found) :
    c.slots.Accounts (found.slot :: c.scope.scratch.map (·.1)) := by
  refine inside.slots.sublist ?_
  obtain ⟨newer, older, split, -⟩ := List.lookup_eq_some_iff.mp known
  have member : [found.slot].Sublist (c.scope.bindings.map (·.2.slot)) := by
    rw [split]
    simp
  exact member.append_right _

/-- A slot of no loop is written to. -/
theorem Keeps.set {before after : Scope} {pool : SlotPool} {slot : UInt8} (locals : Locals)
    (value : Value) (accounts : pool.Accounts (slot :: before.scratch.map (·.1)))
    (owned : slot ∈ after.slots) : Keeps before after locals (locals.set slot value) := by
  have apart := (List.nodup_cons.mp accounts.nodup).1
  have notResult := accounts.ne_result List.mem_cons_self
  refine ⟨fun cell member => Locals.get?_set_ne _ _ _ fun same => apart ?_, fun filled => ?_,
    fun other _ outside none => ?_⟩
  · exact same ▸ List.mem_map_of_mem member
  · rwa [Locals.get?_set_ne _ _ _ notResult.symm]
  · have differs : other ≠ slot := fun same => outside (same ▸ owned)
    rwa [Locals.get?_set_ne _ _ _ differs]

section Expressions

variable {offset : Nat} {locals : Locals} {store : Store} {c c' : Compiler} {x : Compiled}

theorem Typed.filled {scope : Scope} {strict : Bool} {prior : Ty} (typed : Typed prior locals)
    (agrees : Agrees scope locals store) (available : prior ≠ .void) :
    ∃ value, store.result = some value ∧ (strict = true ∨ value.type = prior) := by
  obtain ⟨value, filled, same⟩ := typed available
  exact ⟨value, agrees.result.symm.trans filled, .inr same⟩

/-- An operand is evaluated to a value of its type. -/
theorem acts_operand {n : Node} {want : Ty} {role : Role}
    (derivation : Yields (.operand n want role) c x c')
    (site : launch.Site offset (.operand n want role) c x.code)
    (agrees : Agrees c.scope locals store) (typed : Typed c.prior locals) (isValue : want ≠ .void) :
    launch.Acts (launch.entry + offset) (launch.entry + offset + x.code.size) locals store []
      (observe fun store => evaluate launch.rules store c.prior n (some want))
      fun found values locals' store' => (∃ value, found = some value ∧ values = [value] ∧
        value.type = want) ∧ locals' = locals ∧ store' = store := by
  have carries := derivation.simulates agrees site typed.fresh isValue
  have safe := derivation.safe site.plain agrees.describes (typed.filled agrees) isValue
  refine (Carries.observed _ carries safe (site.keep agrees)).imp fun found values locals' store' =>
    ?_
  rintro ⟨⟨value, rfl, rfl⟩, same, unchanged⟩
  exact ⟨⟨value, rfl, rfl, (Option.some.inj same).symm⟩, unchanged⟩

theorem acts_value {n : Node} {expected : Option Ty} {role : Role}
    (derivation : Yields (.value n expected role) c x c')
    (site : launch.Site offset (.value n expected role) c x.code)
    (agrees : Agrees c.scope locals store) (typed : Typed c.prior locals) :
    launch.Acts (launch.entry + offset) (launch.entry + offset + x.code.size) locals store []
      (observe fun store => evaluate launch.rules store c.prior n expected)
      fun found values locals' store' => Single found values ∧ locals' = locals ∧
      store' = store := by
  have carries :
      launch.Carries (launch.entry + offset) (launch.entry + offset + x.code.size) locals []
      (evaluate launch.rules store c.prior n expected) Single :=
    derivation.simulates agrees site typed.fresh
  have safe := (derivation.safe site.plain agrees.describes (typed.filled agrees)).2.2
  refine (Carries.observed _ carries safe (site.keep agrees)).imp fun found values locals' store' =>
    ?_
  rintro ⟨single, -, unchanged⟩
  exact ⟨single, unchanged⟩

/-- What has to give a value is evaluated to one. -/
theorem acts_required {n : Node} {expected : Option Ty} {role : Role}
    (derivation : Yields (.value n expected role) c x c')
    (site : launch.Site offset (.value n expected role) c x.code)
    (agrees : Agrees c.scope locals store) (typed : Typed c.prior locals) :
    launch.Acts (launch.entry + offset) (launch.entry + offset + x.code.size) locals store []
      (observe fun store => required launch.rules store c.prior n expected)
      fun value values locals' store' => (values = [value] ∧ x.type = some value.type ∧
        value.type ≠ .void ∧ ∀ want, expected = some want → value.type = want) ∧
        locals' = locals ∧ store' = store := by
  obtain ⟨isValue, sameType, safe⟩ :=
    derivation.safe site.plain agrees.describes (typed.filled agrees)
  have carries :
      launch.Carries (launch.entry + offset) (launch.entry + offset + x.code.size) locals []
      (required launch.rules store c.prior n expected) fun value values => values = [value] := by
    refine (derivation.simulates agrees site typed.fresh).bind fun _ _ => ?_
    rintro ⟨value, rfl, rfl⟩
    exact .pure rfl
  have gives : Safe (fun value => x.type = some value.type)
      (required launch.rules store c.prior n expected) := by
    refine safe.bind fun found same => ?_
    obtain ⟨value, rfl, same⟩ := same.some isValue
    exact Safe.conclude same
  refine (Carries.observed _ carries gives (site.keep agrees)).imp
    fun value values locals' store' => ?_
  rintro ⟨rfl, same, unchanged⟩
  refine ⟨⟨rfl, same, ?_, fun want wanted => ?_⟩, unchanged⟩
  · rw [same] at isValue
    simpa using isValue
  · have agreed := sameType want wanted
    rw [same, wanted, Option.some.injEq] at agreed
    exact agreed

/-- The value of a variable is looked up. -/
theorem acts_known {start : Nat} {given : List Value} {name : String} {value : Value}
    (held : store.find? name = some value) :
    launch.Acts start start locals store given
      (observe fun store => conclude (known (store.find? name)))
      fun found values locals' store' =>
        found = value ∧ values = given ∧ locals' = locals ∧ store' = store := by
  intro stack count w good bad
  exact good value store w given locals count (by simp only [observe, held]; rfl)
    ⟨rfl, rfl, rfl, rfl⟩ (Nat.le_refl count)

end Expressions

/-- A statement was executed: nothing is left on the stack, the slots of what is in scope afterwards
agree with the store, and the loops around were left alone. -/
def Done (before after : Scope) (locals : Locals) (values : List Value) (locals' : Locals)
    (store' : Store) : Prop :=
  values = [] ∧ Agrees after locals' store' ∧ Keeps before after locals locals'

section Assignments

variable {offset : Nat} {locals : Locals} {store : Store} {c c₁ c' : Compiler} {x : Compiled}
  {want : Option Ty} {name : String}

/-- The value that a variable starts with. -/
def starting (rules : Rules σ) (prior : Ty) (type : Option Ty) : Option Node → Perform σ Value
  | none => observe fun _ => conclude (defaultValue type)
  | some start => observe fun store => required rules store prior start type

theorem perform_declare (rules : Rules σ) (prior : Ty) (name : String) (type : Option Ty)
    (start : Option Node) :
    perform rules prior (.declare name type start) = (do
      let value ← starting rules prior type start
      modify (·.declare name value)) := by
  cases start <;> rw [perform] <;> rfl

theorem acts_starting {type : Option Ty} {start : Option Node}
    (derivation : Yields (.initial name type start) c x c')
    (site : launch.Site offset (.initial name type start) c x.code)
    (agrees : Agrees c.scope locals store) (typed : Typed c.prior locals) :
    launch.Acts (launch.entry + offset) (launch.entry + offset + x.code.size) locals store []
      (starting launch.rules c.prior type start)
      fun value values locals' store' => (values = [value] ∧ x.type = some value.type ∧
        value.type ≠ .void) ∧ locals' = locals ∧ store' = store := by
  cases derivation with
  | initialValue inner =>
    refine (acts_required inner (site.first site.toInside .initial site.placed) agrees typed).imp
      fun value values locals' store' => ?_
    rintro ⟨⟨rfl, same, isValue, -⟩, unchanged⟩
    exact ⟨⟨rfl, same, isValue⟩, unchanged⟩
  | @initialDefault _ type value _ default passes =>
    have same : value.type = type := by cases type <;> cases default <;> rfl
    intro stack count w good bad
    have fetches := site.placed.head
    refine Plan.leads_compute [] (Plan.computes_push value) fetches
      ((site.settled agrees).watched fetches (by simp [Instruction.shift]) _ _)
      (fun made done => ?_) nofun
    cases done
    refine good value store w [value] locals (count + 1) ?_ ⟨⟨rfl, by rw [same], ?_⟩, rfl, rfl⟩
      (Nat.le_succ count)
    · have gives : defaultValue (some type) = .ok value := congrArg known default
      simp only [starting, observe, gives]
      rfl
    · exact Value.type_ne_void_of_check passes

theorem acts_declare {type : Option Ty} {start : Option Node} {slot : UInt8} {found : Ty}
    (site :
      launch.Site offset (.node (.declare name type start) want) c
        (x.code ++ [Instruction.store slot]))
    (invisible : c.isVisible name = false) (allocated : allocate c = .ok (slot, c₁))
    (initial : Yields (.initial name type start) c₁ x c') (same : x.type = some found)
    (agrees : Agrees c.scope locals store) (typed : Typed c.prior locals) :
    launch.Acts (launch.entry + offset)
      (launch.entry + offset + Fragment.size (x.code ++ [Instruction.store slot])) locals store []
      (perform launch.rules c.prior (.declare name type start))
      fun _ => Done c.scope (c'.scope.declare name found slot) locals := by
  obtain ⟨inside, accounts⟩ := site.toInside.allocate allocated
  have part : Part (.node (.declare name type start) want) c 0 (.initial name type start) c₁ :=
    .declare allocated
  have fetches : launch.base.code.Fetches (launch.entry + offset + x.code.size) (.store slot) :=
    site.placed.fetches rfl
  obtain ⟨slots, -, rfl⟩ := allocate_ok allocated
  have unchanged := initial.unchanged inside.plain.outside trivial
  subst unchanged
  rw [perform_declare, Fragment.size_append, ← Nat.add_assoc]
  refine (acts_starting initial (site.first inside part site.placed.left) agrees typed).bind
    fun value _ _ _ => ?_
  rintro ⟨⟨rfl, valueType, isValue⟩, rfl, rfl⟩
  refine (acts_store (site.settled agrees) fetches).imp fun _ values locals' store' => ?_
  rintro ⟨rfl, rfl, rfl⟩
  have type' : value.type = found := Option.some.inj (valueType.symm.trans same)
  have new := (Compiler.find?_of_invisible invisible).2
  refine ⟨rfl, agrees.declare new accounts type' (type' ▸ isValue),
    .set _ _ (accounts.sublist ?_) ?_⟩
  · exact (List.sublist_append_right _ _).cons_cons slot
  · rw [Scope.slots, Scope.declare_bindings new]
    exact List.mem_cons_self

theorem acts_assign {a : Node} {target : Variable}
    (site :
      launch.Site offset (.node (.assign name a) want) c
        (x.code ++ [Instruction.store target.slot]))
    (noParam : c.param? name = none) (known : c.scope.find? name = some target)
    (value : Yields (.value a (some target.type) (.newValue name)) c x c')
    (agrees : Agrees c.scope locals store) (typed : Typed c.prior locals) :
    launch.Acts (launch.entry + offset)
      (launch.entry + offset + Fragment.size (x.code ++ [Instruction.store target.slot]))
      locals store []
      (perform launch.rules c.prior (.assign name a)) fun _ => Done c.scope c.scope locals := by
  have fetches : launch.base.code.Fetches (launch.entry + offset + x.code.size)
      (.store target.slot) := site.placed.fetches rfl
  obtain ⟨old, held, -, oldType, -⟩ := agrees.find known
  have part : Part (.node (.assign name a) want) c 0
      (.value a (some target.type) (.newValue name)) c := .assignVariable noParam known
  rw [perform, Fragment.size_append, ← Nat.add_assoc]
  refine (acts_known held).bind fun _ _ _ _ => ?_
  rintro ⟨rfl, rfl, rfl, rfl⟩
  rw [oldType]
  refine (acts_required value (site.first site.toInside part site.placed.left) agrees typed).bind
    fun new _ _ _ => ?_
  rintro ⟨⟨rfl, -, -, sameType⟩, rfl, rfl⟩
  refine (acts_store (site.settled agrees) fetches).imp fun _ values locals' store' => ?_
  rintro ⟨rfl, rfl, rfl⟩
  exact ⟨rfl, agrees.assign site.slots known (sameType _ rfl),
    .set _ _ (site.binding_apart known) (Scope.mem_slots known)⟩

/-- The list that an item is changed in is the value of its variable. -/
theorem acts_list {role : Role} (items : Yields (.operand (.var name) .list role) c x c')
    (site : launch.Site offset (.operand (.var name) .list role) c x.code)
    (agrees : Agrees c.scope locals store) (typed : Typed c.prior locals) :
    launch.Acts (launch.entry + offset) (launch.entry + offset + x.code.size) locals store []
      (observe fun store => conclude (known (store.find? name)))
      fun value values locals' store' =>
        (values = [value] ∧ value.type = .list ∧ store.find? name = some value) ∧ locals' = locals ∧
          store' = store := by
  obtain ⟨target, old, known', held⟩ : ∃ target old, c.scope.find? name = some target ∧
      store.find? name = some old := by
    cases items with
    | operand inner _ =>
      cases inner with
      | var found =>
        obtain ⟨target, known', -⟩ := reference_plain site.plain.outside found
        obtain ⟨old, held, -⟩ := agrees.find known'
        exact ⟨target, old, known', held⟩
  intro stack count w good bad
  refine acts_operand items site agrees typed (by simp) stack count w ?_ ?_
  · rintro found store' w' values locals' later done ⟨⟨value, rfl, rfl, isList⟩, rfl, rfl⟩ more
    simp only [observe, evaluate, held] at done
    cases done
    exact good old store' w [old] locals' later (by simp only [observe, held]; rfl)
      ⟨⟨rfl, isList, held⟩, rfl, rfl⟩ more
  · intro halt store' w' locals' done
    simp only [observe, evaluate, held] at done
    cases done

/-- An item is changed. -/
theorem acts_change {ip : Nat} {list index new : Value} (isList : list.type = .list)
    (isNumber : index.type = .number)
    (kept : Agrees launch.before.scope locals (store.keep launch.before.scope.bindings.length))
    (fetches : launch.base.code.Fetches ip .setItem) :
    launch.Acts ip (ip + Instruction.setItem.size) locals store [new, index, list]
      (observe fun _ => conclude (changedList list (some index) (some new)))
      fun changed values locals' store' =>
        values = [changed] ∧ changed.type = .list ∧ locals' = locals ∧ store' = store := by
  have settled : launch.Settled locals := ⟨_, kept.held⟩
  have safe : Safe (fun changed : Value => changed.type = .list)
      (conclude (changedList list (some index) (some new)) : Evaluate σ Value) := by
    have listed : OfType (some .list) (some list) := congrArg some isList.symm
    have numbered : OfType (some .number) (some index) := congrArg some isNumber.symm
    obtain ⟨items, ⟨⟩⟩ := listed.list
    obtain ⟨n, ⟨⟩⟩ := numbered.number
    refine Safe.conclude ?_
    rcases place_cases n items with ⟨k, -, found, -⟩ | ⟨missing, -⟩
    · simp only [changedList, found]
      rfl
    · simp only [changedList, missing]
      intro faulty
      cases faulty
  have carries : launch.Carries ip (ip + Instruction.setItem.size) locals [new, index, list]
      (conclude (changedList list (some index) (some new))) fun changed values =>
      values = [changed] := by
    intro stack count w good bad
    refine Plan.leads_compute [new, index, list] (Plan.computes_setItem list index new) fetches
      (settled.watched fetches (by simp) _ _) (fun made done => ?_) fun halt done => ?_
    · cases changes : changedList list (some index) (some new) with
      | error halt => rw [changes] at done; cases done
      | ok changed =>
        rw [changes] at done
        cases done
        exact good changed w [changed] (count + 1) (by rw [changes]; rfl) rfl (Nat.le_succ count)
    · cases changes : changedList list (some index) (some new) with
      | ok changed => rw [changes] at done; cases done
      | error halt' =>
        rw [changes] at done
        cases done
        exact bad halt w (by rw [changes]; rfl)
  exact Carries.observed (fun _ => conclude (changedList list (some index) (some new)))
    carries safe kept

theorem acts_setItem {index a : Node} {slot : UInt8} {c₂ : Compiler} {y z : Compiled}
    (site : launch.Site offset (.node (.setItem index (.var name) a) want) c
      (Fragment.sequence [x.code, y.code, z.code, [.setItem, .store slot]]))
    (items : Yields (.operand (.var name) .list (.named name)) c x c₁)
    (found : c₁.slot? name = some slot) (place : Yields (.operand index .number .setIndex) c₁ y c₂)
    (value : Yields (.value a none .newItem) c₂ z c')
    (agrees : Agrees c.scope locals store) (typed : Typed c.prior locals) :
    launch.Acts (launch.entry + offset) (launch.entry + offset +
        (Fragment.sequence [x.code, y.code, z.code, [.setItem, .store slot]]).size) locals store []
      (perform launch.rules c.prior (.setItem index (.var name) a))
      fun _ => Done c.scope c.scope locals := by
  have same := items.unchanged site.plain.outside (by simp [Task.Evaluates])
  subst same
  have same' := place.unchanged site.plain.outside (by simp [Task.Evaluates])
  subst same'
  obtain ⟨first, rest⟩ := site.placed.cons
  obtain ⟨second, rest⟩ := rest.cons
  obtain ⟨third, rest⟩ := rest.cons
  obtain ⟨changes, stores⟩ := (rest.cons.1.spells rfl).next
  have noParam : c₂.param? name = none := by rw [Compiler.param?, site.plain.outside]; rfl
  obtain ⟨target, known', rfl⟩ :
      ∃ target, c₂.scope.find? name = some target ∧ target.slot = slot := by
    simp only [Compiler.slot?, noParam] at found
    cases known' : c₂.scope.find? name with
    | none => simp [known'] at found
    | some target => exact ⟨target, rfl, by simpa [known'] using found⟩
  obtain ⟨old, held, -, oldType, -⟩ := agrees.find known'
  have indexPart : Part (.node (.setItem index (.var name) a) want) c₂ x.code.size
      (.operand index .number .setIndex) c₂ := .setItemIndex items
  have valuePart : Part (.node (.setItem index (.var name) a) want) c₂ (x.code.size + y.code.size)
      (.value a none .newItem) c₂ := .setItemValue items place
  have indexActs :=
    acts_operand place (site.part site.toInside indexPart second) agrees typed (by simp)
  have valueActs := acts_value value
    (site.part site.toInside valuePart (by rwa [← Nat.add_assoc])) agrees typed
  simp only [← Nat.add_assoc] at indexActs valueActs
  rw [perform]
  refine (acts_list items (site.first site.toInside .setItemList first) agrees typed).bind
    fun list _ _ _ => ?_
  rintro ⟨⟨rfl, isList, listed⟩, rfl, rfl⟩
  refine (indexActs.frame [list]).bind fun _ _ _ _ => ?_
  rintro ⟨_, rfl, ⟨number, rfl, rfl, isNumber⟩, rfl, rfl⟩
  refine (valueActs.frame [number, list]).bind fun _ _ _ _ => ?_
  rintro ⟨_, rfl, ⟨new, rfl, rfl⟩, rfl, rfl⟩
  refine (acts_change isList isNumber (site.keep agrees) changes).bind fun changed _ _ _ => ?_
  rintro ⟨rfl, stillList, rfl, rfl⟩
  have finish : launch.entry + offset +
      (Fragment.sequence [x.code, y.code, z.code, [.setItem, .store target.slot]]).size =
      launch.entry + offset + x.code.size + y.code.size + z.code.size + Instruction.setItem.size +
        (Instruction.store target.slot).size := by
    simp [Nat.add_assoc]
  rw [finish]
  refine (acts_store (site.settled agrees) stores.next.1).imp fun _ values locals' store' => ?_
  rintro ⟨rfl, rfl, rfl⟩
  have changedType : changed.type = target.type := by
    rw [held, Option.some.injEq] at listed
    rw [stillList, ← oldType, listed, isList]
  exact ⟨rfl, agrees.assign site.slots known' changedType,
    .set _ _ (site.binding_apart known') (Scope.mem_slots known')⟩

end Assignments

end Launch

end Primer
