import Primer.Proofs.Execution.Agreement
import Primer.Proofs.Execution.Placement

/-!
Runs of a unit's code. A launch is a unit together with the machine that its code is run on; it is
watched what the slots hold that the code reads. `Carries` says that a piece of code does the same
as an evaluation of the interpreter, so that code is put together as evaluations are.
-/

set_option autoImplicit false
set_option relaxedAutoImplicit false

namespace Primer

open Interpreter

/-- The task stands in the test of a loop, which is executed again after the loop's body. -/
def Retested (program : Program) (before : Compiler) (offset : Nat) (task : Task) (c : Compiler) :
    Prop :=
  ∃ ahead back test d, offset = ahead + back ∧
    Occurs (.statements program) before ahead (.operand test .boolean .whileCondition) d ∧
    Occurs (.operand test .boolean .whileCondition) d back task c

/-- What a load at an offset of a unit's code stands for, and the type that was found for it: a
variable, the result, or a number that a loop counts with. -/
inductive Source (program : Program) (before : Compiler) (offset : Nat) (slot : UInt8) : Ty → Prop
  | variable {name : String} {want : Option Ty} {c : Compiler} {found : Variable}
      (occurs : Occurs (.statements program) before offset (.node (.var name) want) c)
      (known : c.scope.find? name = some found) (same : slot = found.slot) :
      Source program before offset slot found.type
  | result {want : Option Ty} {c : Compiler}
      (occurs : Occurs (.statements program) before offset (.node .result want) c)
      (same : slot = resultSlot) : Source program before offset slot c.prior
  | counter {ahead back : Nat} {count : Node} {body : List Node} {want : Option Ty}
      {c c₁ c₂ c₃ c' : Compiler} {x y : Compiled} {threshold counter : UInt8}
      (occurs : Occurs (.statements program) before ahead (.node (.times count body) want) c)
      (amount : Yields (.operand count .number .repeatCount) { c with scope := c.scope.enter } x c₁)
      (first : Compile.allocateScratch c₁ = .ok (threshold, c₂))
      (second : Compile.allocateScratch c₂ = .ok (counter, c₃))
      (inner : Yields (.block body) c₃ y c')
      (place : offset =
        ahead + (Fragment.roundStart x.code threshold counter + y.code.size + back))
      (found : (Fragment.advance threshold counter).at? back = some (.load slot)) :
      Source program before offset slot .number

/-- The slot that a load reads holds a value of the type that was found for it, though in the test
of a loop the result may be of any type. -/
def Reading (program : Program) (before : Compiler) (offset : Nat) (slot : UInt8)
    (locals : Locals) : Prop :=
  ∃ type value, Source program before offset slot type ∧ locals.get? slot = some value ∧
    (value.type = type ∨ ∃ want c, type = c.prior ∧ slot = resultSlot ∧
      Retested program before offset (.node .result want) c)

/-- A load at an offset of a unit's code stands for the result in the test of a loop, and the result
is not of the type that was found for it. -/
def Misreading (program : Program) (before : Compiler) (offset : Nat) (locals : Locals) : Prop :=
  ∃ want c value, Retested program before offset (.node .result want) c ∧
    locals.get? resultSlot = some value ∧ value.type ≠ c.prior

/-- A unit that is run. -/
structure Launch (σ : Type) where
  rules : Rules σ
  program : Program
  /-- The compiler before the unit. -/
  before : Compiler
  /-- Where the code of the unit stands. -/
  entry : Nat
  /-- The machine at the start of the run. -/
  base : Machine
  arrives : Machine → σ → Prop
  ends : Finished → σ → Prop

variable {σ α β : Type}

namespace Launch

/-- The variables from before the unit hold values of their types. -/
def Settled (launch : Launch σ) (locals : Locals) : Prop :=
  ∃ entries, Held locals launch.before.scope.bindings entries

/-- The variables from before the unit hold values of their types, and so does every slot that is
about to be read. -/
structure Watched (launch : Launch σ) (m : Machine) : Prop where
  holds : launch.Settled m.locals
  reads : ∀ slot, m.code.Fetches m.ip (.load slot) → ∃ offset, m.ip = launch.entry + offset ∧
    Reading launch.program launch.before offset slot m.locals

def plan (launch : Launch σ) : Plan σ where
  hosts := launch.rules.hosts
  base := launch.base
  passes := launch.Watched
  arrives := launch.arrives
  ends := launch.ends
  rounds := launch.rules.rounds
  misreads m := launch.rules.strict = true ∧ ∃ offset, m.ip = launch.entry + offset ∧
    Misreading launch.program launch.before offset m.locals

variable (launch : Launch σ)

/-- A state of the compiler inside the unit. -/
structure Inside (c : Compiler) : Prop where
  plain : c.Plain launch.rules.hosts
  tidy : c.scope.Tidy
  accounts : c.slots.Accounts c.owned
  grown : ∃ new, c.scope.bindings = new ++ launch.before.scope.bindings

/-- A task of the unit, with the state that it is compiled in and the place of its code. -/
structure Site (offset : Nat) (task : Task) (c : Compiler) (code : Fragment) : Prop
    extends launch.Inside c where
  occurs : Occurs (.statements launch.program) launch.before offset task c
  placed : launch.base.code.Places (launch.entry + offset) code

/-- The result has the type of the statement before. -/
def Typed (prior : Ty) (locals : Locals) : Prop :=
  prior ≠ .void → ∃ value, locals.get? resultSlot = some value ∧ value.type = prior

/-- The result is of the type of the statement before, unless the task is executed again in a
loop. -/
def Fresh (offset : Nat) (task : Task) (c : Compiler) (locals : Locals) : Prop :=
  c.prior ≠ .void → ∃ value, locals.get? resultSlot = some value ∧
    (value.type = c.prior ∨ Retested launch.program launch.before offset task c)

variable {launch}

theorem Typed.fresh {offset : Nat} {task : Task} {c : Compiler} {locals : Locals}
    (typed : Typed c.prior locals) : launch.Fresh offset task c locals := by
  intro available
  obtain ⟨value, filled, same⟩ := typed available
  exact ⟨value, filled, .inl same⟩

theorem Fresh.part {offset rest : Nat} {task inner : Task} {c : Compiler} {locals : Locals}
    (fresh : launch.Fresh offset task c locals) (part : Part task c rest inner c) :
    launch.Fresh (offset + rest) inner c locals := by
  intro available
  obtain ⟨value, filled, typed⟩ := fresh available
  refine ⟨value, filled, typed.imp_right ?_⟩
  rintro ⟨ahead, back, test, d, rfl, occurs, inside⟩
  exact ⟨ahead, back + rest, test, d, Nat.add_assoc _ _ _, occurs, inside.part part⟩

theorem Fresh.first {offset : Nat} {task inner : Task} {c : Compiler} {locals : Locals}
    (fresh : launch.Fresh offset task c locals) (part : Part task c 0 inner c) :
    launch.Fresh offset inner c locals :=
  fresh.part part

theorem Site.part {offset rest : Nat} {task inner : Task} {c d : Compiler} {code less : Fragment}
    (site : launch.Site offset task c code) (inside : launch.Inside d)
    (part : Part task c rest inner d)
    (placed : launch.base.code.Places (launch.entry + offset + rest) less) :
    launch.Site (offset + rest) inner d less :=
  ⟨inside, site.occurs.part part, by rwa [← Nat.add_assoc]⟩

theorem Site.first {offset : Nat} {task inner : Task} {c d : Compiler} {code less : Fragment}
    (site : launch.Site offset task c code) (inside : launch.Inside d)
    (part : Part task c 0 inner d) (placed : launch.base.code.Places (launch.entry + offset) less) :
    launch.Site offset inner d less :=
  site.part inside part placed

theorem Inside.slots {c : Compiler} (inside : launch.Inside c) : c.slots.Accounts c.scope.slots :=
  inside.accounts.sublist (List.sublist_append_left _ _)

theorem Inside.keep {c : Compiler} {locals : Locals} {store : Store} (inside : launch.Inside c)
    (agrees : Agrees c.scope locals store) :
    Agrees launch.before.scope locals (store.keep launch.before.scope.bindings.length) := by
  obtain ⟨new, grown⟩ := inside.grown
  exact agrees.keep grown

theorem Inside.settled {c : Compiler} {locals : Locals} {store : Store} (inside : launch.Inside c)
    (agrees : Agrees c.scope locals store) : launch.Settled locals :=
  ⟨_, (inside.keep agrees).held⟩

/-- Nothing is read by an instruction that is not a load. -/
theorem Settled.watched {locals : Locals} (settled : launch.Settled locals) {ip : Nat}
    {i : Instruction}
    (fetches : launch.base.code.Fetches ip i) (quiet : ∀ slot, i ≠ .load slot) (stack : List Value)
    (count : Nat) : launch.plan.passes (launch.plan.state ip stack locals count) := by
  refine ⟨settled, fun slot loads => ?_⟩
  have same := fetches.1.symm.trans loads.1
  simp only [Except.ok.injEq, Prod.mk.injEq] at same
  exact absurd same.1 (quiet slot)

/-- The slot that a load reads holds what it should. -/
theorem Settled.watched_load {locals : Locals} (settled : launch.Settled locals) {offset : Nat}
    {slot : UInt8} (fetches : launch.base.code.Fetches (launch.entry + offset) (.load slot))
    (reading : Reading launch.program launch.before offset slot locals) (stack : List Value)
    (count : Nat) :
    launch.plan.passes (launch.plan.state (launch.entry + offset) stack locals count) := by
  refine ⟨settled, fun other loads => ⟨offset, rfl, ?_⟩⟩
  have same := fetches.1.symm.trans loads.1
  simp only [Except.ok.injEq, Prod.mk.injEq, Instruction.load.injEq] at same
  exact same.1 ▸ reading

variable (launch) in
/-- From one address to another, the code does what the evaluation does: it takes some values off
the stack and leaves what was made, or ends as the evaluation halts. -/
def Carries (start finish : Nat) (locals : Locals) (given : List Value) (work : Evaluate σ α)
    (made : α → List Value → Prop) : Prop :=
  ∀ stack count w,
    (∀ a w' values later, work w = (.ok a, w') → made a values → count ≤ later →
      launch.plan.Leads (launch.plan.state finish (values ++ stack) locals later) w') →
    (∀ halt w', work w = (.error halt, w') → launch.plan.Settles locals halt w') →
    launch.plan.Leads (launch.plan.state start (given ++ stack) locals count) w

namespace Carries

variable {start middle finish : Nat} {locals : Locals} {given : List Value} {work : Evaluate σ α}
  {made : α → List Value → Prop}

theorem bind {next : α → Evaluate σ β} {better : β → List Value → Prop}
    (first : launch.Carries start middle locals given work made)
    (rest : ∀ a values, made a values →
      launch.Carries middle finish locals values (next a) better) :
    launch.Carries start finish locals given (work >>= next) better := by
  intro stack count w good bad
  refine first stack count w (fun a w' values later done makes more => ?_) fun halt w' done => ?_
  · refine rest a values makes stack later w' (fun b w'' values' last done' makes' more' => ?_)
      fun halt w'' done' => ?_
    · exact good b w'' values' last (by rw [Evaluate.bind_ok done, done']) makes'
        (Nat.le_trans more more')
    · exact bad halt w'' (by rw [Evaluate.bind_ok done, done'])
  · exact bad halt w' (Evaluate.bind_error done)

/-- Values that lie deeper are left alone. -/
theorem frame (carries : launch.Carries start finish locals given work made) (deeper : List Value) :
    launch.Carries start finish locals (given ++ deeper) work
      fun a values => ∃ top, values = top ++ deeper ∧ made a top := by
  intro stack count w good bad
  rw [List.append_assoc]
  refine carries (deeper ++ stack) count w (fun a w' values later done makes more => ?_) bad
  have next := good a w' (values ++ deeper) later done ⟨values, rfl, makes⟩ more
  rwa [List.append_assoc] at next

theorem imp {weaker : α → List Value → Prop}
    (carries : launch.Carries start finish locals given work made)
    (follows : ∀ a values, made a values → weaker a values) :
    launch.Carries start finish locals given work weaker :=
  fun stack count w good bad => carries stack count w
    (fun a w' values later done makes => good a w' values later done (follows a values makes)) bad

theorem pure {a : α} (makes : made a given) :
    launch.Carries start start locals given (pure a) made :=
  fun _ count w good _ => good a w given count rfl makes (Nat.le_refl _)

end Carries

/-- A test whether a value decides, and the jump that depends on it. -/
theorem leads_decision {start target count : Nat} {op : Logic} {code : Fragment} {locals : Locals}
    {stack : List Value} {value : Value} {w : σ} (settled : launch.Settled locals)
    (placed : launch.base.code.Places start (Fragment.deciding op code))
    (fetches : launch.base.code.Fetches (start + (Fragment.deciding op code).size) (.jumpIf target))
    (inside : target ≤ launch.base.code.size)
    (taken : ∀ b later, count < later → value = .boolean b → op.decides b = true →
      launch.plan.Leads (launch.plan.state target stack locals later) w)
    (falls : ∀ b later, count < later → value = .boolean b → op.decides b = false →
      launch.plan.Leads (launch.plan.state (start + Fragment.rightStart op code) stack locals later)
        w)
    (bad : (∀ b, value ≠ .boolean b) → launch.plan.Settles locals .stuck w) :
    launch.plan.Leads (launch.plan.state (start + code.size) (value :: stack) locals count) w := by
  have passed := fun stack count => settled.watched fetches (by simp) stack count
  cases op with
  | or =>
    refine Plan.leads_jumpIf inside fetches (passed _ _) (fun same => ?_) (fun same => ?_) bad
    · exact taken true (count + 1) (Nat.lt_succ_self count) same rfl
    · exact falls false (count + 1) (Nat.lt_succ_self count) same rfl
  | and =>
    have inverts : launch.base.code.Fetches (start + code.size) .invert :=
      Bytecode.Places.fetches placed rfl
    have next : start + code.size + UnaryOp.invert.instruction.size =
        start + (Fragment.deciding .and code).size := by
      simp [Fragment.deciding, UnaryOp.instruction, Nat.add_assoc]
    refine Plan.leads_compute [value] (Plan.computes_unary .invert value) inverts
      (settled.watched inverts (by simp) _ _) (fun made done => ?_) fun halt done => ?_
    · cases value with
      | boolean b =>
        cases done
        rw [next]
        refine Plan.leads_jumpIf inside fetches (passed _ _) (fun same => ?_) (fun same => ?_)
          fun other => absurd rfl (other !b)
        · exact taken b (count + 2) (by omega) rfl (by simpa [Logic.decides] using same)
        · exact falls b (count + 2) (by omega) rfl (by simpa [Logic.decides] using same)
      | _ => cases done
    · cases value with
      | boolean b => cases done
      | _ =>
        cases done
        exact bad (by simp)

theorem carries_compute {ip : Nat} {locals : Locals} {given : List Value} {i : Instruction}
    {outcome : Except Halt (Option Value)} (settled : launch.Settled locals)
    (computes : Plan.Computes i given outcome) (fetches : launch.base.code.Fetches ip i)
    (quiet : ∀ slot, i ≠ .load slot) :
    launch.Carries ip (ip + i.size) locals given (conclude outcome)
      fun found values => outcome = .ok found ∧ values = found.toList := by
  intro stack count w good bad
  refine Plan.leads_compute given computes fetches (settled.watched fetches quiet _ _)
    (fun found done => ?_) fun halt done => ?_
  · exact good found w _ (count + 1) (by rw [conclude, done]) ⟨done, rfl⟩ (Nat.le_succ count)
  · exact bad halt w (by rw [conclude, done])

end Launch

end Primer
