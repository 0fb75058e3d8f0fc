import Primer.Machine.Run
import Primer.Proofs.Flow

/-!
Runs taken apart. A turn is one step together with the host's reply, if the step asks for one; a run
takes turn after turn. What an instruction can change is said once, for all of them.
-/

set_option autoImplicit false
set_option relaxedAutoImplicit false

namespace Primer

namespace Machine

/-- Where control goes when an instruction is carried out. The machine before points behind the
instruction. -/
inductive Control (i : Instruction) (before after : Machine) : Prop
  | falls (goesOn : i.goesOn) (stays : i.isCall = false) (ip : after.ip = before.ip)
      (calls : after.calls = before.calls)
  | jumps (leads : i.jump? = some after.ip) (calls : after.calls = before.calls)
  | enters (call : i = .call after.ip) (calls : after.calls = before.ip :: before.calls)
  | returns (ret : i = .ret) (calls : before.calls = after.ip :: after.calls)

/-- What an instruction can change. -/
structure Carried (i : Instruction) (before after : Machine) : Prop where
  config : after.config = before.config
  code : after.code = before.code
  steps : after.steps = before.steps
  locals : after.locals = before.locals ∨
    (∃ slot value, i = .store slot ∧ after.locals = before.locals.set slot value) ∨
    ∃ slot, i = .free slot ∧ after.locals = before.locals.free slot
  control : Control i before after

theorem bind_eq_ok {α β ε : Type} {first : Except ε α} {next : α → Except ε β} {result : β} :
    (first >>= next) = .ok result ↔ ∃ a, first = .ok a ∧ next a = .ok result := by
  cases first with
  | error fault => simp [bind, Except.bind]
  | ok a => simp [bind, Except.bind]

/-- An instruction that only works on the stack. -/
theorem Carried.stack {i : Instruction} (m : Machine) (stack : List Value) (goesOn : i.goesOn)
    (stays : i.isCall = false) : Carried i m { m with stack } :=
  ⟨rfl, rfl, rfl, .inl rfl, .falls goesOn stays rfl rfl⟩

/-- The stack does not matter. -/
theorem Carried.restack {i : Instruction} {before after : Machine}
    (carried : Carried i before after)
    (stack : List Value) : Carried i before { after with stack } := by
  refine ⟨carried.config, carried.code, carried.steps, carried.locals, ?_⟩
  cases carried.control with
  | falls goesOn stays ip calls => exact .falls goesOn stays ip calls
  | jumps leads calls => exact .jumps leads calls
  | enters call calls => exact .enters call calls
  | returns ret calls => exact .returns ret calls

/-- A return goes on where the last call said. -/
theorem Carried.returned {before after : Machine} (carried : Carried .ret before after) :
    before.calls = after.ip :: after.calls := by
  cases carried.control with
  | falls goesOn => cases goesOn
  | jumps leads => cases leads
  | enters call => cases call
  | returns _ calls => exact calls

theorem jump_ok {m next : Machine} {target : Nat} (done : m.jump target = .ok next) :
    next = { m with ip := target } := by
  unfold jump at done
  split at done
  · exact (Except.ok.inj done).symm
  · cases done

/-- What an instruction leads to. Only a return without an active call halts. -/
def Leaves (i : Instruction) (m : Machine) : Effect → Prop
  | .next after | .request _ after => Carried i m after
  | .halt after => after = m ∧ i = .ret ∧ m.calls = []

theorem execute_leaves {hosts : String → Option Signature} {m : Machine} {i : Instruction}
    {effect : Effect} (done : m.execute hosts i = .ok effect) : Leaves i m effect := by
  cases i with
  | jump target =>
    obtain ⟨landed, jumped, last⟩ := bind_eq_ok.mp done
    cases last
    rw [jump_ok jumped]
    exact ⟨rfl, rfl, rfl, .inl rfl, .jumps rfl rfl⟩
  | jumpIf target =>
    obtain ⟨⟨taken, stack⟩, popped, rest⟩ := bind_eq_ok.mp done
    cases taken with
    | true =>
      obtain ⟨landed, jumped, last⟩ := bind_eq_ok.mp rest
      cases last
      rw [jump_ok jumped]
      exact ⟨rfl, rfl, rfl, .inl rfl, .jumps rfl rfl⟩
    | false =>
      cases rest
      exact .stack m stack rfl rfl
  | push value =>
    cases done
    exact .stack m _ rfl rfl
  | pop | dup | equal | notEqual | invert | negate | makeList count =>
    obtain ⟨_, _, last⟩ := bind_eq_ok.mp done
    cases last
    exact .stack m _ rfl rfl
  | arith op | order op =>
    obtain ⟨_, _, rest⟩ := bind_eq_ok.mp done
    obtain ⟨_, _, last⟩ := bind_eq_ok.mp rest
    cases last
    exact .stack m _ rfl rfl
  | load slot =>
    simp only [execute] at done
    split at done
    · cases done
      exact .stack m _ rfl rfl
    · cases done
  | store slot =>
    obtain ⟨⟨value, stack⟩, _, last⟩ := bind_eq_ok.mp done
    cases last
    exact ⟨rfl, rfl, rfl, .inr (.inl ⟨slot, value, rfl, rfl⟩), .falls rfl rfl rfl rfl⟩
  | free slot =>
    cases done
    exact ⟨rfl, rfl, rfl, .inr (.inr ⟨slot, rfl, rfl⟩), .falls rfl rfl rfl rfl⟩
  | convert target =>
    obtain ⟨⟨value, stack⟩, _, rest⟩ := bind_eq_ok.mp done
    simp only at rest
    split at rest
    · split at rest
      · cases rest
        exact .stack m _ rfl rfl
      · cases rest
    · cases rest
  | call target =>
    simp only [execute] at done
    split at done
    · cases done
    · obtain ⟨landed, jumped, last⟩ := bind_eq_ok.mp done
      cases last
      rw [jump_ok jumped]
      exact ⟨rfl, rfl, rfl, .inl rfl, .enters rfl rfl⟩
  | ret =>
    simp only [execute] at done
    split at done
    · rename_i inactive
      cases done
      exact ⟨rfl, rfl, inactive⟩
    · rename_i address calls active
      split at done
      · cases done
        exact ⟨rfl, rfl, rfl, .inl rfl, .returns rfl active⟩
      · cases done
  | callHost name =>
    simp only [execute] at done
    split at done
    · obtain ⟨_, _, rest⟩ := bind_eq_ok.mp done
      obtain ⟨_, _, last⟩ := bind_eq_ok.mp rest
      cases last
      exact .stack m _ rfl rfl
    · cases done
  | getItem expected =>
    obtain ⟨_, _, rest⟩ := bind_eq_ok.mp done
    obtain ⟨_, _, rest⟩ := bind_eq_ok.mp rest
    obtain ⟨_, _, rest⟩ := bind_eq_ok.mp rest
    simp only at rest
    split at rest
    · cases rest
      exact .stack m _ rfl rfl
    · cases rest
  | setItem =>
    obtain ⟨_, _, rest⟩ := bind_eq_ok.mp done
    obtain ⟨_, _, rest⟩ := bind_eq_ok.mp rest
    obtain ⟨_, _, rest⟩ := bind_eq_ok.mp rest
    obtain ⟨_, _, rest⟩ := bind_eq_ok.mp rest
    cases rest
    exact .stack m _ rfl rfl

/-- The effect of the instruction that a step has carried out, if the run goes on after it. -/
def ongoing? : Progress → Option Effect
  | .running after => some (.next after)
  | .calling call waiting => some (.request call waiting)
  | _ => none

theorem step_ongoing {hosts : String → Option Signature} {before : Machine} (effect : Effect)
    (stepped : ongoing? (before.step hosts) = some effect) :
    ∃ i behind, before.code.decodeAt before.ip = .ok (i, behind) ∧
      execute hosts { before with ip := behind, steps := before.steps + 1 } i = .ok effect := by
  unfold step at stepped
  split at stepped
  · simp only at stepped
    split at stepped
    · cases stepped
    · split at stepped
      · cases stepped
      · rename_i i behind decoded
        split at stepped
        · rename_i done
          cases stepped
          exact ⟨i, behind, decoded, done⟩
        · cases stepped
        · rename_i done
          cases stepped
          exact ⟨i, behind, decoded, done⟩
        · rename_i trouble _
          cases trouble <;> cases stepped
  · cases stepped

/-- How a turn can be the last of its run. After a failure the machine that counts is the one that
had moved behind the instruction. -/
inductive Ends (hosts : String → Option Signature) (m : Machine) : Finished → Prop
  | beyond (outside : m.code.size ≤ m.ip) : Ends hosts m ⟨m, none⟩
  | halt {behind : Nat} (decoded : m.code.decodeAt m.ip = .ok (.ret, behind))
      (idle : m.calls = []) :
      Ends hosts m ⟨{ m with ip := behind, steps := m.steps + 1 }, none⟩
  | limit {mishap : Mishap} (exceeds : exceeded? { m with steps := m.steps + 1 } = some mishap) :
      Ends hosts m ⟨abandon { m with steps := m.steps + 1 }, some (.runtime mishap [])⟩
  | undecodable {fault : DecodeFault} (inside : m.ip < m.code.size)
      (undecoded : m.code.decodeAt m.ip = .error fault) :
      Ends hosts m ⟨abandon { m with steps := m.steps + 1 },
        some (.fatal (.undecodable fault) fault.offset)⟩
  | fault {i : Instruction} {behind : Nat} {fault : Fault}
      (decoded : m.code.decodeAt m.ip = .ok (i, behind))
      (failed : execute hosts { m with ip := behind, steps := m.steps + 1 } i =
        .error (.fault fault)) :
      Ends hosts m ⟨abandon { m with ip := behind, steps := m.steps + 1 }, some (.fatal fault m.ip)⟩
  | mishap {i : Instruction} {behind : Nat} {mishap : Mishap}
      (decoded : m.code.decodeAt m.ip = .ok (i, behind))
      (failed : execute hosts { m with ip := behind, steps := m.steps + 1 } i =
        .error (.mishap mishap)) :
      Ends hosts m ⟨abandon { m with ip := behind, steps := m.steps + 1 },
        some (.runtime mishap m.calls.reverse)⟩
  | host {i : Instruction} {behind : Nat} {call : HostCall} {waiting : Machine} {mishap : Mishap}
      (decoded : m.code.decodeAt m.ip = .ok (i, behind))
      (asked : execute hosts { m with ip := behind, steps := m.steps + 1 } i =
        .ok (.request call waiting)) :
      Ends hosts m ⟨abandon waiting, some (.runtime mishap waiting.calls.reverse)⟩

/-- A step that halts or fails. -/
theorem step_ends {hosts : String → Option Signature} {m last : Machine} :
    (m.step hosts = .halted last → Ends hosts m ⟨last, none⟩) ∧
      ∀ error, m.step hosts = .failed error last → Ends hosts m ⟨last, some error⟩ := by
  unfold step
  split
  · rename_i inside
    simp only
    split
    · rename_i exceeds
      exact ⟨nofun, fun error failed => by cases failed; exact .limit exceeds⟩
    · split
      · rename_i undecoded
        exact ⟨nofun, fun error failed => by cases failed; exact .undecodable inside undecoded⟩
      · rename_i i behind decoded
        split
        · exact ⟨nofun, nofun⟩
        · rename_i done
          obtain ⟨rfl, rfl, idle⟩ := execute_leaves done
          exact ⟨fun halted => by cases halted; exact .halt decoded idle, nofun⟩
        · exact ⟨nofun, nofun⟩
        · rename_i trouble failed
          cases trouble with
          | fault fault =>
            exact ⟨nofun, fun error ended => by cases ended; exact .fault decoded failed⟩
          | mishap mishap =>
            exact ⟨nofun, fun error ended => by cases ended; exact .mishap decoded failed⟩
  · rename_i outside
    exact ⟨fun halted => by cases halted; exact .beyond (Nat.not_lt.mp outside), nofun⟩

/-- A reply leaves at most a value on the stack. -/
theorem resume_cases (waiting : Machine) (call : HostCall) (reply : HostReply) :
    (∃ mishap, waiting.resume call reply =
        .failed (.runtime mishap waiting.calls.reverse) waiting.abandon) ∨
      ∃ stack, waiting.resume call reply = .running { waiting with stack } := by
  unfold resume
  cases reply with
  | error reason => exact .inl ⟨_, rfl⟩
  | ok answer =>
    by_cases silent : call.signature.returns = .void
    · exact .inr ⟨waiting.stack, by simp only [if_pos silent]⟩
    · cases answer with
      | none => exact .inl ⟨_, by simp only [if_neg silent]; rfl⟩
      | some value =>
        by_cases same : value.type = call.signature.returns
        · exact .inr ⟨value :: waiting.stack, by simp only [if_neg silent, if_pos same]; rfl⟩
        · exact .inl ⟨_, by simp only [if_neg silent, if_neg same]; rfl⟩

end Machine

variable {σ : Type}

namespace Machine

/-- One step, and the host's reply to it: the machine goes on, or the run is finished. -/
def turn (hosts : HostTable (StateM σ)) (m : Machine) : StateM σ (Machine ⊕ Finished) := fun w =>
  match m.step hosts.signature? with
  | .running m => (.inl m, w)
  | .halted m => (.inr ⟨m, none⟩, w)
  | .failed error m => (.inr ⟨m, some error⟩, w)
  | .calling call m =>
    let (reply, w) := (hosts.call? call.name call.arguments).getD (pure (.ok none)) w
    match m.resume call reply with
    | .failed error m => (.inr ⟨m, some error⟩, w)
    | .running m | .halted m | .calling _ m => (.inl m, w)

variable (hosts : HostTable (StateM σ))

/-- A run takes a turn and goes on from there. -/
theorem runFrom_succ (fuel : Nat) (m : Machine) (w : σ) :
    runFrom hosts (fuel + 1) m w =
      match m.turn hosts w with
      | (.inl next, w') => runFrom hosts fuel next w'
      | (.inr finished, w') => (some finished, w') := by
  rw [runFrom, turn]
  cases m.step hosts.signature? with
  | running next => rfl
  | halted last => rfl
  | failed error last => rfl
  | calling call waiting =>
    show (_ : Option Finished × σ) = _
    simp only [bind, StateT.bind]
    rcases (hosts.call? call.name call.arguments).getD (pure (.ok none)) w with ⟨reply, w'⟩
    cases resumed : waiting.resume call reply with
    | running next | halted next | calling call next => simp only [resumed]
    | failed error last =>
      simp only [resumed]
      rfl

variable {hosts}

/-- A turn that goes on carries out the instruction that the machine points to, and the host may
have replied to it. -/
theorem turn_execute {m next : Machine} {w w' : σ} (turns : m.turn hosts w = (.inl next, w')) :
    ∃ i behind, m.code.decodeAt m.ip = .ok (i, behind) ∧
      (execute hosts.signature? { m with ip := behind, steps := m.steps + 1 } i = .ok (.next next) ∨
        ∃ call waiting reply, waiting.resume call reply = .running next ∧
          execute hosts.signature? { m with ip := behind, steps := m.steps + 1 } i =
            .ok (.request call waiting)) := by
  unfold turn at turns
  cases stepped : m.step hosts.signature? with
  | halted last => rw [stepped] at turns; cases turns
  | failed error last => rw [stepped] at turns; cases turns
  | running after =>
    rw [stepped] at turns
    cases turns
    obtain ⟨i, behind, decoded, done⟩ := step_ongoing (.next next) (by rw [stepped]; rfl)
    exact ⟨i, behind, decoded, .inl done⟩
  | calling call waiting =>
    obtain ⟨i, behind, decoded, done⟩ :=
      step_ongoing (.request call waiting) (by rw [stepped]; rfl)
    rw [stepped] at turns
    simp only at turns
    rcases answered : (hosts.call? call.name call.arguments).getD (pure (.ok none)) w
      with ⟨reply, w₁⟩
    rw [answered] at turns
    rcases resume_cases waiting call reply with ⟨mishap, resumed⟩ | ⟨stack, resumed⟩
    · simp only [resumed] at turns
      cases turns
    · simp only [resumed] at turns
      cases turns
      exact ⟨i, behind, decoded, .inr ⟨call, waiting, reply, resumed, done⟩⟩

/-- What a turn that goes on can change. -/
theorem turn_carried {m next : Machine} {w w' : σ} (turns : m.turn hosts w = (.inl next, w')) :
    ∃ i behind, m.code.decodeAt m.ip = .ok (i, behind) ∧
      Carried i { m with ip := behind, steps := m.steps + 1 } next := by
  obtain ⟨i, behind, decoded, done | ⟨call, waiting, reply, resumed, done⟩⟩ := turn_execute turns
  · exact ⟨i, behind, decoded, execute_leaves done⟩
  · have carried : Carried i _ waiting := execute_leaves done
    refine ⟨i, behind, decoded, ?_⟩
    rcases resume_cases waiting call reply with ⟨mishap, failed⟩ | ⟨stack, running⟩
    · rw [failed] at resumed
      cases resumed
    · rw [running] at resumed
      cases resumed
      exact carried.restack stack

/-- A call leads to its target and leaves the slots as they are. -/
theorem turn_called {m next : Machine} {w w' : σ} {target behind : Nat}
    (turns : m.turn hosts w = (.inl next, w'))
    (decoded : m.code.decodeAt m.ip = .ok (.call target, behind)) :
    next.ip = target ∧ next.code = m.code ∧ next.locals = m.locals := by
  obtain ⟨i, behind', read, carried⟩ := turn_carried turns
  cases decoded.symm.trans read
  refine ⟨?_, carried.code, ?_⟩
  · rcases carried.control with ⟨-, stays, -, -⟩ | ⟨jumps, -⟩ | ⟨call, -⟩ | ⟨ret, -⟩
    · cases stays
    · cases jumps
    · exact (Instruction.call.inj call).symm
    · cases ret
  · rcases carried.locals with same | ⟨_, _, store, -⟩ | ⟨_, free, -⟩
    · exact same
    · cases store
    · cases free

/-- A store takes the value on top of the stack. -/
theorem turn_stored {m next : Machine} {w w' : σ} {slot : UInt8} {behind : Nat}
    (turns : m.turn hosts w = (.inl next, w'))
    (decoded : m.code.decodeAt m.ip = .ok (.store slot, behind)) :
    ∃ value, m.stack = value :: next.stack ∧ next.locals = m.locals.set slot value ∧
      next.ip = behind ∧ next.code = m.code := by
  obtain ⟨i, behind', read, done⟩ := turn_execute turns
  cases decoded.symm.trans read
  rcases done with done | ⟨call, waiting, reply, -, done⟩
  · obtain ⟨⟨value, stack⟩, popped, last⟩ := bind_eq_ok.mp done
    cases last
    refine ⟨value, ?_, rfl, rfl, rfl⟩
    cases held : m.stack with
    | nil =>
      simp only [held] at popped
      cases popped
    | cons top rest =>
      simp only [held] at popped
      cases popped
      rfl
  · obtain ⟨_, -, last⟩ := bind_eq_ok.mp done
    cases last

theorem turn_ends {m : Machine} {finished : Finished} {w w' : σ}
    (turns : m.turn hosts w = (.inr finished, w')) : Ends hosts.signature? m finished := by
  unfold turn at turns
  cases stepped : m.step hosts.signature? with
  | running after => rw [stepped] at turns; cases turns
  | halted last =>
    rw [stepped] at turns
    cases turns
    exact step_ends.1 stepped
  | failed error last =>
    rw [stepped] at turns
    cases turns
    exact step_ends.2 error stepped
  | calling call waiting =>
    obtain ⟨i, behind, decoded, done⟩ :=
      step_ongoing (.request call waiting) (by rw [stepped]; rfl)
    rw [stepped] at turns
    simp only at turns
    rcases answered : (hosts.call? call.name call.arguments).getD (pure (.ok none)) w
      with ⟨reply, w₁⟩
    rw [answered] at turns
    rcases resume_cases waiting call reply with ⟨mishap, resumed⟩ | ⟨stack, resumed⟩
    · simp only [resumed] at turns
      cases turns
      exact .host decoded done
    · simp only [resumed] at turns
      cases turns

/-- While steps are left, only the size of the stack is limited. -/
theorem exceeded?_of_left {m : Machine} (left : ∀ k ∈ m.config.maxSteps, m.steps ≤ k) :
    m.exceeded? = if m.config.maxStackSize < m.stack.length
      then some (.stackLimit m.config.maxStackSize) else none := by
  unfold exceeded?
  split
  · rename_i k limited
    have early := left k limited
    rw [if_neg (by omega)]
  · rfl

/-- Without a limit on the steps there has to be room for the stack only. -/
theorem exceeded?_eq_none_iff {m : Machine} (unlimited : m.config.maxSteps = none) :
    m.exceeded? = none ↔ m.stack.length ≤ m.config.maxStackSize := by
  simp [exceeded?, unlimited]

/-- A machine that exceeds a limit fails. -/
theorem turn_exceeded {m : Machine} {w : σ} {mishap : Mishap} (inside : m.ip < m.code.size)
    (exceeds : exceeded? { m with steps := m.steps + 1 } = some mishap) :
    m.turn hosts w = (.inr ⟨abandon { m with steps := m.steps + 1 }, some (.runtime mishap [])⟩,
      w) := by
  have stepped : m.step hosts.signature? =
      .failed (.runtime mishap []) (abandon { m with steps := m.steps + 1 }) := by
    rw [step, if_pos inside]
    simp only [exceeds]
  rw [turn, stepped]

/-- A machine beyond its code has halted. -/
theorem turn_beyond {m : Machine} {w : σ} (outside : m.code.size ≤ m.ip) :
    m.turn hosts w = (.inr ⟨m, none⟩, w) := by
  have stepped : m.step hosts.signature? = .halted m := by
    rw [step, if_neg (by omega)]
  rw [turn, stepped]

variable (hosts) in
/-- A machine comes to another by a number of turns. -/
inductive Reaches : Nat → Machine → σ → Machine → σ → Prop
  | refl (m : Machine) (w : σ) : Reaches 0 m w m w
  | turn {count : Nat} {m next last : Machine} {w w' w'' : σ}
      (turns : m.turn hosts w = (.inl next, w'))
      (rest : Reaches count next w' last w'') : Reaches (count + 1) m w last w''

theorem Reaches.trans {count more : Nat} {m middle last : Machine} {w w' w'' : σ}
    (first : Reaches hosts count m w middle w') (second : Reaches hosts more middle w' last w'') :
    Reaches hosts (count + more) m w last w'' := by
  induction first with
  | refl m w => rwa [Nat.zero_add]
  | turn turns rest ih =>
    rw [Nat.add_right_comm]
    exact .turn turns (ih second)

theorem Reaches.steps {count : Nat} {m last : Machine} {w w' : σ}
    (reaches : Reaches hosts count m w last w') : last.steps = m.steps + count := by
  induction reaches with
  | refl m w => rfl
  | turn turns rest ih =>
    obtain ⟨i, behind, -, carried⟩ := turn_carried turns
    have counted := carried.steps
    simp only at counted
    omega

theorem Reaches.config {count : Nat} {m last : Machine} {w w' : σ}
    (reaches : Reaches hosts count m w last w') : last.config = m.config := by
  induction reaches with
  | refl m w => rfl
  | turn turns rest ih =>
    obtain ⟨i, behind, -, carried⟩ := turn_carried turns
    exact ih.trans carried.config

/-- The machine that is reached by a number of turns, if the run does not end before. -/
def reached? (hosts : HostTable (StateM σ)) : Nat → Machine → σ → Option (Machine × σ)
  | 0, m, w => some (m, w)
  | count + 1, m, w =>
    match m.turn hosts w with
    | (.inl next, w') => reached? hosts count next w'
    | (.inr _, _) => none

theorem reaches_of_reached? {count : Nat} {m last : Machine} {w w' : σ}
    (found : reached? hosts count m w = some (last, w')) : Reaches hosts count m w last w' := by
  induction count generalizing m w with
  | zero =>
    cases found
    exact .refl _ _
  | succ count ih =>
    rw [reached?] at found
    split at found
    · rename_i next w₁ turns
      exact .turn turns (ih found)
    · cases found

theorem exists_of_reached? {α : Type} {count : Nat} {m : Machine} {w : σ} (view : Machine → σ → α)
    {seen : α} (found : (reached? hosts count m w).map (fun p => view p.1 p.2) = some seen) :
    ∃ last w', Reaches hosts count m w last w' ∧ view last w' = seen := by
  obtain ⟨⟨last, w'⟩, found, same⟩ := Option.map_eq_some_iff.mp found
  exact ⟨last, w', reaches_of_reached? found, same⟩

/-- A run that comes to its last turn ends there, however much fuel is left. -/
theorem Reaches.run_ends {count fuel : Nat} {m last : Machine} {w w' w'' : σ} {finished : Finished}
    (reaches : Reaches hosts count m w last w') (ended : last.turn hosts w' = (.inr finished, w''))
    (enough : count < fuel) : runFrom hosts fuel m w = (some finished, w'') := by
  induction reaches generalizing fuel with
  | refl m w =>
    obtain ⟨fuel, rfl⟩ := Nat.exists_eq_add_of_lt enough
    rw [runFrom_succ, ended]
  | turn turns rest ih =>
    obtain ⟨fuel, rfl⟩ := Nat.exists_eq_add_of_lt enough
    rw [runFrom_succ, turns]
    exact ih ended (by omega)

/-- A run that ends has come to a machine whose turn is the last. -/
theorem runFrom_finished {fuel : Nat} {m : Machine} {w w' : σ} {finished : Finished}
    (done : runFrom hosts fuel m w = (some finished, w')) :
    ∃ count last w₁, Reaches hosts count m w last w₁ ∧
      last.turn hosts w₁ = (.inr finished, w') := by
  induction fuel generalizing m w with
  | zero => cases done
  | succ fuel ih =>
    rw [runFrom_succ] at done
    rcases turns : m.turn hosts w with ⟨next | last, w₁⟩
    · rw [turns] at done
      obtain ⟨count, last, w₂, rest, ended⟩ := ih done
      exact ⟨count + 1, last, w₂, .turn turns rest, ended⟩
    · rw [turns] at done
      cases done
      exact ⟨0, m, w, .refl m w, turns⟩

/-- A run that ends within its fuel does not pass more machines than that. -/
theorem Reaches.lt_fuel {count fuel : Nat} {m last : Machine} {w w' w'' : σ} {finished : Finished}
    (reaches : Reaches hosts count m w last w')
    (done : runFrom hosts fuel m w = (some finished, w'')) : count < fuel := by
  induction reaches generalizing fuel with
  | refl m w =>
    cases fuel with
    | zero => cases done
    | succ fuel => exact Nat.succ_pos fuel
  | turn turns rest ih =>
    cases fuel with
    | zero => cases done
    | succ fuel =>
      rw [runFrom_succ, turns] at done
      exact Nat.succ_lt_succ (ih done)

variable (hosts) in
/-- A run of the machine comes to its end without an error. -/
def Halts (m : Machine) (w : σ) (last : Machine) (w' : σ) : Prop :=
  ∃ fuel, m.runFrom hosts fuel w = (some ⟨last, none⟩, w')

variable {m next last : Machine} {w w₁ w' : σ}

theorem halts_of_turn (turns : m.turn hosts w = (.inl next, w₁)) :
    m.Halts hosts w last w' ↔ next.Halts hosts w₁ last w' := by
  constructor
  · rintro ⟨fuel, done⟩
    cases fuel with
    | zero => cases done
    | succ fuel =>
      rw [runFrom_succ, turns] at done
      exact ⟨fuel, done⟩
  · rintro ⟨fuel, done⟩
    refine ⟨fuel + 1, ?_⟩
    rw [runFrom_succ, turns]
    exact done

theorem halts_of_ended {finished : Finished} (turns : m.turn hosts w = (.inr finished, w₁)) :
    m.Halts hosts w last w' ↔ finished = ⟨last, none⟩ ∧ w' = w₁ := by
  constructor
  · rintro ⟨fuel, done⟩
    cases fuel with
    | zero => cases done
    | succ fuel =>
      rw [runFrom_succ, turns] at done
      cases done
      exact ⟨rfl, rfl⟩
  · rintro ⟨rfl, rfl⟩
    refine ⟨1, ?_⟩
    rw [runFrom_succ, turns]

theorem Reaches.halts_iff {count : Nat} (reaches : Reaches hosts count m w next w₁) :
    m.Halts hosts w last w' ↔ next.Halts hosts w₁ last w' := by
  induction reaches with
  | refl => exact Iff.rfl
  | turn turns rest ih => exact (halts_of_turn turns).trans ih

/-- A run has one end. -/
theorem Halts.unique {last' : Machine} {w'' : σ} (first : m.Halts hosts w last w')
    (second : m.Halts hosts w last' w'') : last' = last ∧ w'' = w' := by
  obtain ⟨fuel, done⟩ := first
  induction fuel generalizing m w with
  | zero => cases done
  | succ fuel ih =>
    rw [runFrom_succ] at done
    rcases turns : m.turn hosts w with ⟨next | finished, w₁⟩
    · rw [turns] at done
      exact ih ((halts_of_turn turns).mp second) done
    · rw [turns] at done
      cases done
      obtain ⟨same, rfl⟩ := (halts_of_ended turns).mp second
      cases same
      exact ⟨rfl, rfl⟩

/-- A machine that comes to the end has room for its stack. -/
theorem Halts.room (halts : m.Halts hosts w last w') (unlimited : m.config.maxSteps = none)
    (inside : m.ip < m.code.size) : m.stack.length ≤ m.config.maxStackSize := by
  cases exceeds : exceeded? { m with steps := m.steps + 1 } with
  | none =>
    exact (exceeded?_eq_none_iff (m := { m with steps := m.steps + 1 }) unlimited).mp exceeds
  | some mishap =>
    obtain ⟨failed, -⟩ := (halts_of_ended (turn_exceeded inside exceeds)).mp halts
    cases failed

end Machine

end Primer
