import Primer.Proofs.Variables

/-!
Sessions and the interpreter. Units without definitions are run in a session, and at the same time
they are interpreted. As long as no limit is exceeded, both come to the same outcome and leave the
host in the same state, and then the variables and the result are the same to both.
-/

set_option autoImplicit false
set_option relaxedAutoImplicit false

namespace Primer

open Interpreter

variable {σ : Type}

/-- The interpreter's variables have the values of the slots. -/
theorem Held.lookup_eq {locals : Locals} {bindings : List (String × Variable)}
    {entries : List (String × Value)} (held : Held locals bindings entries) (name : String) :
    entries.lookup name = (bindings.lookup name).bind fun found => locals.get? found.slot := by
  induction bindings generalizing entries with
  | nil =>
    cases entries with
    | nil => rfl
    | cons => exact held.elim
  | cons binding bindings ih =>
    cases entries with
    | nil => exact held.elim
    | cons first entries =>
      obtain ⟨here, own⟩ := binding
      obtain ⟨other, value⟩ := first
      obtain ⟨rfl, filled, -, -, rest⟩ := held
      rw [List.lookup_cons, List.lookup_cons]
      cases name == here with
      | true => exact filled.symm
      | false => exact ih rest

/-- The stack keeps to a limit until the run ends, which it does within a number of turns. -/
def Machine.keepsTo (hosts : HostTable (StateM σ)) (limit : Nat) : Nat → Machine → σ → Bool
  | 0, _, _ => false
  | turns + 1, m, w => m.stack.length ≤ limit &&
    match m.turn hosts w with
    | (.inl next, w') => keepsTo hosts limit turns next w'
    | (.inr _, _) => true

theorem Machine.Reaches.keepsTo {hosts : HostTable (StateM σ)} {limit turns count : Nat}
    {m last : Machine} {w w' : σ} (reaches : Reaches hosts count m w last w')
    (keeps : m.keepsTo hosts limit turns w = true) : last.stack.length ≤ limit := by
  induction reaches generalizing turns with
  | refl m w =>
    cases turns with
    | zero => cases keeps
    | succ turns => exact of_decide_eq_true (Bool.and_eq_true_iff.mp keeps).1
  | turn turned rest ih =>
    cases turns with
    | zero => cases keeps
    | succ turns =>
      have later := (Bool.and_eq_true_iff.mp keeps).2
      rw [turned] at later
      exact ih later

namespace Session

/-- What is known of a variable by its name. -/
def value? (s : Session (StateM σ)) (name : String) : Option Value :=
  (s.compiler.scope.find? name).bind fun found => s.machine.locals.get? found.slot

/-- No machine that a run of the code comes to has more values on its stack than the limit
allows. -/
def HasRoom (s : Session (StateM σ)) (code : Bytecode) (w : σ) : Prop :=
  ∀ count m w', Machine.Reaches s.hosts count (s.machine.started code) w m w' →
    m.stack.length ≤ s.machine.config.maxStackSize

theorem HasRoom.within {s : Session (StateM σ)} {code : Bytecode} {w w' : σ}
    (room : s.HasRoom code w) (unlimited : s.machine.config.maxSteps = none) {count : Nat}
    {last : Machine}
    (reaches : Machine.Reaches s.hosts count (s.machine.started code) w last w') :
    Machine.exceeded? { last with steps := last.steps + 1 } = none := by
  have same : last.config = s.machine.config := reaches.config
  refine (Machine.exceeded?_eq_none_iff ?_).mpr ?_
  · exact (congrArg Config.maxSteps same).trans unlimited
  · rw [show _ = _ from congrArg Config.maxStackSize same]
    exact room count last w' reaches

/-- The error that a session reports for an outcome of the interpreter. -/
def Reports : Except Halt Unit → Option SessionError → Prop
  | .ok (), error => error = none
  | .error (.mishap x), error => error = some (.machine (.runtime x []))
  | .error .stuck, error => ∃ fault offset, error = some (.machine (.fatal fault offset))
  | .error _, _ => False

/-- A session, and what an interpreter remembers after the same units: all without definitions, and
all of them over in both. -/
inductive Alongside (hosts : HostTable (StateM σ)) (config : Config) :
    Session (StateM σ) → Memory → Prop
  | new : Alongside hosts config (.new hosts config) {}
  | refused {s s' : Session (StateM σ)} {memory : Memory} {fuel : Nat} {program : Program}
      {fault : CompileError} {error : Option SessionError} {w w' : σ}
      (before : Alongside hosts config s memory) (kind : Program.Procedureless program)
      (failed : s.compiler.compile program = .error fault)
      (done : s.run fuel program w = (some (error, s'), w')) : Alongside hosts config s' memory
  | run {s s' : Session (StateM σ)} {memory memory' : Memory} {fuel rounds : Nat}
      {program : Program}
      {code : Bytecode} {after : Compiler} {error : Option SessionError}
      {outcome : Except Halt Unit} {w w' w'' : σ} (before : Alongside hosts config s memory)
      (kind : Program.Procedureless program)
      (compiled : s.compiler.compile program = .ok (code, after)) (short : code.size < 0x80000000)
      (room : s.HasRoom code w)
      (interpreted : Interpreter.unit ⟨hosts, rounds, false⟩ program memory w =
        ((outcome, memory'), w''))
      (enough : outcome ≠ .error .exhausted)
      (done : s.run fuel program w = (some (error, s'), w')) : Alongside hosts config s' memory'

namespace Alongside

variable {hosts : HostTable (StateM σ)} {config : Config} {s : Session (StateM σ)} {memory : Memory}

/-- The session corresponds to what the interpreter remembers. -/
theorem corresponds (alongside : Alongside hosts config s memory)
    (unlimited : config.maxSteps = none) :
    (∃ smooth, Driven (· = hosts) Program.Procedureless smooth s) ∧ s.machine.config = config ∧
      Corresponds s.compiler s.machine.locals memory := by
  induction alongside with
  | new =>
    refine ⟨⟨true, .fresh hosts config⟩, rfl, ⟨trivial, Locals.get?_empty _⟩, rfl, fun filled => ?_⟩
    exact absurd rfl filled
  | refused before kind failed done ih =>
    obtain ⟨⟨smooth, driven⟩, same, corresponds⟩ := ih
    have again := driven.again kind (short_of_refused failed) done
    rcases driven.run_cases (short_of_refused failed) done with
      ⟨fault, -, rfl, rfl, -⟩ | ⟨code, after, last, problem, compiled, -⟩
    · exact ⟨⟨_, again⟩, same, corresponds⟩
    · rw [failed] at compiled
      cases compiled
  | @run s s' memory memory' fuel rounds program code after error outcome w w' w'' before
      kind compiled short room interpreted enough done ih =>
    obtain ⟨⟨smooth, driven⟩, same, corresponds⟩ := ih
    have again := driven.again kind (short_of_compiled compiled short) done
    have prepared := driven.prepared corresponds kind compiled short rounds false
    obtain rfl : s.hosts = hosts := driven.given
    rcases driven.run_cases (short_of_compiled compiled short) done with
      ⟨fault, failed, -⟩ | ⟨code', after', last, problem, compiled', ran, rfl, rfl⟩
    · rw [compiled] at failed
      cases failed
    rw [compiled] at compiled'
    cases compiled'
    refine ⟨⟨_, again⟩, ?_⟩
    rcases (prepared.leads w).finished ran with ⟨count, left, w₁, -, -, arrived⟩ |
      ⟨count, last, w₁, mishap, reaches, -, exceeds, -⟩ | ⟨outcome', memory'', halted, concluded, -⟩
    · exact absurd arrived (prepared.stays rfl interpreted enough left w₁)
    · have limits : s.machine.config.maxSteps = none := same ▸ unlimited
      rw [room.within limits reaches] at exceeds
      cases exceeds
    · have both := interpreted.symm.trans halted
      cases both
      cases concluded with
      | normal config corresponds' => exact ⟨config.trans same, corresponds'⟩
      | mishap config corresponds' | stuck config corresponds' =>
        exact ⟨config.trans same, corresponds'⟩

/-- A procedure of the host that notes the texts it is given. -/
def noting : HostTable (StateM (List String)) where
  entries := [("note", {
    signature := ⟨[.string], .void⟩
    perform := fun given notes => (.ok none, notes ++ given.filterMap fun
      | .string text => some text
      | _ => none) })]

end Alongside

end Session

end Primer
