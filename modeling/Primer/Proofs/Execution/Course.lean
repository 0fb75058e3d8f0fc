import Primer.Proofs.Execution.Control
import Primer.Proofs.Regions
import Primer.Proofs.Sessions

/-!
The course of a unit without definitions. A run that keeps to its plan does so after every turn,
until it comes to where it may be left, and it ends as the plan says, unless a limit is exceeded. So
the run of a unit goes as the interpreter goes: when both are over, the machine and the compiler
correspond to what the interpreter remembers.
-/

set_option autoImplicit false
set_option relaxedAutoImplicit false

namespace Primer

open Compile Interpreter

variable {σ : Type}

namespace Plan

variable {plan : Plan σ} {m : Machine} {w : σ}

/-- After any number of turns a run still keeps to its plan, unless it has come to where it may be
left. -/
theorem Leads.along {count : Nat} {last : Machine} {w' : σ}
    (leads : plan.Leads m w) (reaches : Machine.Reaches plan.hosts count m w last w') :
    (∃ less left w₁, less ≤ count ∧ Machine.Reaches plan.hosts less m w left w₁ ∧
        plan.arrives left w₁) ∨
      plan.Leads last w' := by
  induction reaches with
  | refl m w => exact .inr leads
  | turn turns rest ih =>
    cases leads with
    | here arrived => exact .inl ⟨0, _, _, Nat.zero_le _, .refl _ _, arrived⟩
    | limit inside exceeds passed =>
      rw [Machine.turn_exceeded inside exceeds] at turns
      cases turns
    | turn passed turns' rest' =>
      rw [turns] at turns'
      cases turns'
      rcases ih rest' with ⟨less, left, w₁, fewer, reached, arrived⟩ | leads
      · exact .inl ⟨less + 1, left, w₁, by omega, .turn turns reached, arrived⟩
      · exact .inr leads
    | stop passed turns' ended =>
      rw [turns] at turns'
      cases turns'

/-- Where a run is not left, it passes. -/
theorem Leads.passes (leads : plan.Leads m w) : plan.arrives m w ∨ plan.passes m := by
  cases leads with
  | here arrived => exact .inl arrived
  | limit inside exceeds passed | turn passed turns rest | stop passed turns ended =>
    exact .inr passed

/-- How a run that keeps to its plan can have ended: it was left, it has exceeded a limit, or it
ended as planned. -/
theorem Leads.finished {fuel : Nat} {finished : Finished} {w' : σ} (leads : plan.Leads m w)
    (done : m.runFrom plan.hosts fuel w = (some finished, w')) :
    (∃ count left w₁, count < fuel ∧ Machine.Reaches plan.hosts count m w left w₁ ∧
        plan.arrives left w₁) ∨
      (∃ count last w₁ mishap, Machine.Reaches plan.hosts count m w last w₁ ∧ plan.passes last ∧
        Machine.exceeded? { last with steps := last.steps + 1 } = some mishap ∧ finished =
          ⟨Machine.abandon { last with steps := last.steps + 1 }, some (.runtime mishap [])⟩) ∨
      plan.ends finished w' := by
  obtain ⟨count, last, w₁, reaches, ended⟩ := Machine.runFrom_finished done
  have fewer := reaches.lt_fuel done
  rcases leads.along reaches with ⟨less, left, w₂, early, reached, arrived⟩ | leads
  · exact .inl ⟨less, left, w₂, by omega, reached, arrived⟩
  · cases leads with
    | here arrived => exact .inl ⟨count, last, w₁, fewer, reaches, arrived⟩
    | limit inside exceeds passed =>
      rw [Machine.turn_exceeded inside exceeds] at ended
      cases ended
      exact .inr (.inl ⟨count, last, _, _, reaches, passed, exceeds, rfl⟩)
    | turn passed turns rest =>
      rw [ended] at turns
      cases turns
    | stop passed turns ends =>
      rw [ended] at turns
      cases turns
      exact .inr (.inr ends)

/-- A run that is never left and exceeds no limit ends as planned. -/
theorem Leads.ends (leads : plan.Leads m w) (stays : ∀ left w', ¬plan.arrives left w')
    (within : ∀ count last w', Machine.Reaches plan.hosts count m w last w' →
      Machine.exceeded? { last with steps := last.steps + 1 } = none) :
    ∃ fuel finished w', (∀ more, m.runFrom plan.hosts (fuel + more) w = (some finished, w')) ∧
      plan.ends finished w' := by
  induction leads with
  | here arrived => exact absurd arrived (stays _ _)
  | limit inside exceeds passed =>
    rw [within 0 _ _ (.refl _ _)] at exceeds
    cases exceeds
  | turn passed turns rest ih =>
    obtain ⟨fuel, finished, w', done, ended⟩ := ih fun count last w' reaches =>
      within (count + 1) last w' (.turn turns reaches)
    refine ⟨fuel + 1, finished, w', fun more => ?_, ended⟩
    rw [Nat.add_right_comm, Machine.runFrom_succ, turns]
    exact done more
  | stop passed turns ended =>
    exact ⟨1, _, _, fun more => by rw [Nat.add_comm, Machine.runFrom_succ, turns], ended⟩

/-- At the top level a return ends the run. -/
theorem leads_halt {ip count : Nat} {stack : List Value} {locals : Locals}
    (fetches : plan.base.code.Fetches ip .ret) (idle : plan.base.calls = [])
    (passed : plan.passes (plan.state ip stack locals count))
    (ended : plan.ends ⟨plan.state (ip + Instruction.ret.size) stack locals (count + 1), none⟩ w) :
    plan.Leads (plan.state ip stack locals count) w := by
  rcases step_state fetches plan.hosts.signature? stack locals count with
    ⟨mishap, exceeds⟩ | stepped
  · exact .limit fetches.2 exceeds passed
  · have inactive : (plan.state (ip + Instruction.ret.size) stack locals (count + 1)).calls = [] :=
      idle
    refine .stop passed ?_ ended
    rw [Machine.turn, stepped]
    simp only [Machine.execute, inactive]
    rfl

end Plan

/-- The machine holds what the interpreter remembers, for a compiler: every variable in its slot and
the result in the slot of the result, of the types that the compiler knows. -/
structure Corresponds (c : Compiler) (locals : Locals) (memory : Memory) : Prop where
  agrees : Agrees c.scope locals memory.store
  prior : memory.prior = c.prior
  typed : Launch.Typed c.prior locals

/-- How a run ends when the interpreter comes to an outcome. After a unit that did not come to its
end the compiler is as it was, but the result is not available. -/
inductive Concluded (before after : Compiler) (start : Machine) :
    Except Halt Unit → Memory → Finished → Prop
  | normal {m : Machine} {memory : Memory} (config : m.config = start.config)
      (corresponds : Corresponds after m.locals memory)
      (keeps : Launch.Keeps before.scope after.scope start.locals m.locals) :
      Concluded before after start (.ok ()) memory ⟨m, none⟩
  | mishap {m : Machine} {memory : Memory} {x : Mishap} (config : m.config = start.config)
      (corresponds : Corresponds before.forgetResult m.locals memory) :
      Concluded before after start (.error (.mishap x)) memory ⟨m, some (.runtime x [])⟩
  | stuck {m : Machine} {memory : Memory} {fault : Fault} {offset : Nat}
      (config : m.config = start.config)
      (corresponds : Corresponds before.forgetResult m.locals memory) :
      Concluded before after start (.error .stuck) memory ⟨m, some (.fatal fault offset)⟩

/-- A unit without definitions that compiled, and the machine that it is to be run on. -/
structure Prepared (rules : Rules σ) (program : Program) (before after : Compiler) (code : Bytecode)
    (m : Machine) (memory : Memory) : Prop where
  ready : before.Ready
  plain : before.Plain rules.hosts
  compiled : before.compile program = .ok (code, after)
  procedureless : Program.Procedureless program
  short : code.size < 0x80000000
  idle : m.calls = []
  corresponds : Corresponds before m.locals memory

namespace Prepared

variable {rules : Rules σ} {program : Program} {before after : Compiler} {code : Bytecode}
  {m : Machine} {memory : Memory}

/-- The run of the unit is left where the interpreter refuses to read the result, or when the
machine has taken as many steps as a loop may make rounds; otherwise it ends as the interpreter
does. -/
def launch (_ : Prepared rules program before after code m memory) (w : σ) : Launch σ where
  rules
  program
  before
  entry := after.libraryEnd
  base := m.started code
  arrives left w' := ∃ halt memory',
    Interpreter.unit rules program memory w = ((.error halt, memory'), w') ∧
      (halt = .misread ∧ rules.strict = true ∧ (∃ offset, left.ip = after.libraryEnd + offset ∧
          Misreading program before offset left.locals) ∨
        halt = .exhausted ∧ rules.rounds ≤ left.steps)
  ends finished w' := ∃ outcome memory',
    Interpreter.unit rules program memory w = ((outcome, memory'), w') ∧
      Concluded before after m outcome memory' finished ∧
      (outcome = .error .stuck → rules.strict = false)

variable (prepared : Prepared rules program before after code m memory)

include prepared

theorem unit_ok {w w' : σ} {type : Ty} {store : Store}
    (done : performAll rules before.prior program memory.store w = ((.ok type, store), w')) :
    Interpreter.unit rules program memory w = ((.ok (), ⟨store, type⟩), w') := by
  rw [Interpreter.unit, prepared.corresponds.prior, done]

theorem unit_error {w w' : σ} {halt : Halt} {store : Store}
    (done : performAll rules before.prior program memory.store w = ((.error halt, store), w')) :
    Interpreter.unit rules program memory w =
      ((.error halt, ⟨store.keep before.scope.bindings.length, .void⟩), w') := by
  rw [Interpreter.unit, prepared.corresponds.prior, done]
  rw [prepared.corresponds.agrees.held.length_eq]

/-- Halting settles the run of the unit. -/
theorem settles {w w' : σ} {halt : Halt} {store : Store} {locals : Locals}
    (done : performAll rules before.prior program memory.store w = ((.error halt, store), w'))
    (lenient : halt = .stuck → rules.strict = false)
    (agrees : Agrees before.scope locals (store.keep before.scope.bindings.length)) :
    (prepared.launch w).plan.Settles locals halt w' := by
  have halted := prepared.unit_error done
  have corresponds : Corresponds before.forgetResult locals
      ⟨store.keep before.scope.bindings.length, .void⟩ :=
      ⟨agrees, rfl, fun filled => absurd rfl filled⟩
  have idle : (m.started code).calls.reverse = [] := by
    rw [show (m.started code).calls = [] from prepared.idle]
    rfl
  cases halt with
  | mishap x =>
    intro ip count
    refine ⟨_, _, halted, ?_, nofun⟩
    show Concluded before after m _ _ ⟨_, some (.runtime x (m.started code).calls.reverse)⟩
    rw [idle]
    exact .mishap rfl corresponds
  | stuck =>
    intro ip count fault offset
    exact ⟨_, _, halted, .stuck rfl corresponds, fun _ => lenient rfl⟩
  | misread =>
    rintro left rfl ⟨strict, offset, place, misreading⟩
    exact ⟨_, _, halted, .inl ⟨rfl, strict, offset, place, misreading⟩⟩
  | exhausted =>
    intro ip stack count enough
    exact ⟨_, _, halted, .inr ⟨rfl, Nat.le_trans enough (Nat.le_add_left _ _)⟩⟩

/-- The run of the unit goes as the interpreter goes. -/
theorem leads (w : σ) : (prepared.launch w).plan.Leads (m.started code) w := by
  obtain ⟨top, derivation, rfl⟩ := Compiler.compile_ok prepared.compiled
  have ready := prepared.ready
  have after' := ready.yields derivation
  obtain ⟨⟨rest, front⟩, placed⟩ := Compiler.spells_unit after'.library after'.outside
    (derivation.sound ready.tidy) prepared.short
  have placed : (m.started (after.assemble (top ++ [Instruction.ret]))).code.Places after.libraryEnd
      (top ++ [Instruction.ret]) := placed
  have inside : (prepared.launch w).Inside before :=
    ⟨prepared.plain, ready.tidy, ready.accounts, [], rfl⟩
  have site : (prepared.launch w).Site 0 (.statements program) before top :=
    ⟨inside, .here, placed.left⟩
  have agrees := prepared.corresponds.agrees
  have settled := inside.settled agrees
  have jump := front.next.1
  have within : after.libraryEnd ≤ (after.assemble (top ++ [Instruction.ret])).size :=
    Nat.le_trans (Nat.le_add_right _ _) placed.fits
  show (prepared.launch w).plan.Leads ((prepared.launch w).plan.state 0 m.stack m.locals 0) w
  refine Plan.leads_jump within jump (settled.watched jump (by simp) _ _) ?_
  refine derivation.executes site (.inr prepared.procedureless) agrees prepared.corresponds.typed
    m.stack 1 w ?_ fun halt store w' locals done lenient kept => prepared.settles done lenient kept
  rintro type store w' values locals later done ⟨⟨rfl, agrees', keeps⟩, rfl, typed⟩ more
  have finish : (m.started (after.assemble (top ++ [Instruction.ret]))).code.Fetches
      (after.libraryEnd + top.size) .ret := placed.fetches rfl
  have settled' : (prepared.launch w).Settled locals := by
    obtain ⟨new, grown, -⟩ := (derivation.grows ready.tidy).bindings
    exact ⟨_, (agrees'.keep grown).held⟩
  refine Plan.leads_halt finish prepared.idle (settled'.watched finish (by simp) _ _) ?_
  exact ⟨_, _, prepared.unit_ok done, .normal rfl ⟨agrees', rfl, typed⟩ keeps, nofun⟩

/-- A run whose unit is interpreted to an outcome is not left. -/
theorem stays {outcome : Except Halt Unit} {memory' : Memory} {w w' : σ}
    (lenient : rules.strict = false)
    (interpreted : Interpreter.unit rules program memory w = ((outcome, memory'), w'))
    (enough : outcome ≠ .error .exhausted) (left : Machine) (w₁ : σ) :
    ¬(prepared.launch w).plan.arrives left w₁ := by
  rintro ⟨halt, memory'', halted, ⟨-, strict, -⟩ | ⟨rfl, -⟩⟩
  · rw [lenient] at strict
    cases strict
  · rw [interpreted] at halted
    cases halted
    exact enough rfl

omit prepared in
/-- A run with fewer steps than a loop may make rounds is only left where the interpreter refuses to
read the result. -/
theorem left_misreads {hosts : HostTable (StateM σ)} {rounds count : Nat} {strict : Bool}
    (prepared : Prepared ⟨hosts, rounds, strict⟩ program before after code m memory)
    {left : Machine} {w w₁ : σ} (reaches : Machine.Reaches hosts count (m.started code) w left w₁)
    (few : count < rounds) (arrived : (prepared.launch w).plan.arrives left w₁) :
    strict = true ∧ ∃ offset, left.ip = after.libraryEnd + offset ∧
      Misreading program before offset left.locals := by
  obtain ⟨halt, memory', -, ⟨-, strict, misreading⟩ | ⟨-, enough⟩⟩ := arrived
  · exact ⟨strict, misreading⟩
  · have steps := reaches.steps
    have none : (m.started code).steps = 0 := rfl
    have enough : rounds ≤ left.steps := enough
    omega

omit prepared in
/-- A run of the unit that has ended: a limit was exceeded, or it ended as the interpreter does that
makes enough rounds. -/
theorem finished {hosts : HostTable (StateM σ)} {fuel : Nat} {finished : Finished} {w w' : σ}
    (prepared : Prepared ⟨hosts, fuel, false⟩ program before after code m memory)
    (ran : (m.started code).runFrom hosts fuel w = (some finished, w')) :
    (∃ mishap entries, finished.error = some (.runtime mishap []) ∧
        Held finished.machine.locals before.scope.bindings entries) ∨
      ∃ outcome memory', Concluded before after m outcome memory' finished := by
  rcases (prepared.leads w).finished ran with ⟨count, left, w₁, fewer, reaches, arrived⟩ |
    ⟨-, last, -, mishap, -, passed, -, rfl⟩ | ⟨outcome, memory', -, concluded, -⟩
  · cases (prepared.left_misreads reaches fewer arrived).1
  · obtain ⟨entries, held⟩ := passed.holds
    exact .inl ⟨mishap, entries, rfl, held⟩
  · exact .inr ⟨outcome, memory', concluded⟩

end Prepared

end Primer
