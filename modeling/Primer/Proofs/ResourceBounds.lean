import Primer.Proofs.Execution.Exchange
import Primer.Proofs.Execution.Verified

/-!
The limits of a machine. The size of the operand stack is checked once for each instruction, before
it is carried out, and the number of active calls at a call; so both are bounded at every point of a
run, as an instruction, with the reply of the host to it, leaves at most one value more.

The same analysis tells the mishaps apart. A limit that is found to be exceeded before an
instruction is told without the active calls, and every other mishap with all of them.
-/

set_option autoImplicit false
set_option relaxedAutoImplicit false

namespace Primer

/-- The limits that are checked before an instruction is carried out. -/
def Mishap.isPreliminary : Mishap → Bool
  | .stepLimit _ | .stackLimit _ => true
  | _ => false

namespace Stack

variable {α : Type} {stack : List Value} {height : Nat}

/-- Values were taken off a stack of at most a height; a failure to do so is a fault. -/
def Shortens (height : Nat) : Except Trouble (α × List Value) → Prop
  | .ok (_, left) => left.length ≤ height
  | .error (.fault _) => True
  | .error (.mishap _) => False

theorem shortens_pop (low : stack.length ≤ height) : Shortens height (pop stack) := by
  cases stack with
  | nil => trivial
  | cons top rest => exact Nat.le_of_succ_le low

theorem shortens_top {next : Value × List Value → Except Trouble (α × List Value)}
    (low : stack.length ≤ height)
    (shortens : ∀ top rest, rest.length ≤ height → Shortens height (next (top, rest))) :
    Shortens height (pop stack >>= next) := by
  cases stack with
  | nil => trivial
  | cons top rest => exact shortens top rest (Nat.le_of_succ_le low)

theorem shortens_popNumber (low : stack.length ≤ height) : Shortens height (popNumber stack) := by
  refine shortens_top low fun top rest short => ?_
  cases top with
  | number n => exact short
  | _ => trivial

theorem shortens_popBoolean (low : stack.length ≤ height) : Shortens height (popBoolean stack) := by
  refine shortens_top low fun top rest short => ?_
  cases top with
  | boolean b => exact short
  | _ => trivial

theorem shortens_popList (low : stack.length ≤ height) : Shortens height (popList stack) := by
  refine shortens_top low fun top rest short => ?_
  cases top with
  | list items => exact short
  | _ => trivial

theorem shortens_popSame (low : stack.length ≤ height) : Shortens height (popSame stack) := by
  refine shortens_top low fun b rest short => shortens_top short fun a rest short => ?_
  simp only
  split
  · exact short
  · trivial

theorem shortens_popMany (count : Nat) (low : stack.length ≤ height) :
    Shortens height (popMany count stack) := by
  unfold popMany
  split
  · exact Nat.le_trans (List.length_drop ▸ Nat.sub_le _ _) low
  · trivial

end Stack

namespace Machine

open Stack

/-- An instruction leaves at most one value more than there were, and none when the host still has
to reply, to the calls that were active; and it does not fail for a limit that is checked before
it. -/
def Grows (m : Machine) : Except Trouble Effect → Prop
  | .ok (.next after) => after.stack.length ≤ m.stack.length + 1
  | .ok (.request _ waiting) => waiting.stack.length ≤ m.stack.length ∧ waiting.calls = m.calls
  | .ok (.halt _) => True
  | .error (.fault _) => True
  | .error (.mishap mishap) => mishap.isPreliminary = false

variable {m : Machine}

theorem Grows.pops {α : Type} {popped : Except Trouble (α × List Value)}
    {next : α × List Value → Except Trouble Effect} (shortens : Shortens m.stack.length popped)
    (grows : ∀ a left, left.length ≤ m.stack.length → Grows m (next (a, left))) :
    Grows m (popped >>= next) := by
  rcases popped with (fault | mishap) | ⟨a, left⟩
  · trivial
  · exact shortens.elim
  · exact grows a left shortens

theorem grows_jump (after : Machine) (target : Nat) (low : after.stack.length ≤ m.stack.length) :
    Grows m (after.jump target >>= fun landed => .ok (.next landed)) := by
  unfold jump
  split
  · exact Nat.le_succ_of_le low
  · trivial

theorem grows_item {index : Number} {length : Nat} {next : Nat → Except Trouble Effect}
    (grows : ∀ place, Grows m (next place)) : Grows m (itemPlace index length >>= next) := by
  unfold itemPlace
  split
  · split
    · exact grows _
    · rfl
  · rfl

theorem grows_checked {values : List Value} {types : List Ty} {next : Unit → Except Trouble Effect}
    (grows : Grows m (next ())) : Grows m (checkArguments values types >>= next) := by
  induction values generalizing types with
  | nil => exact grows
  | cons value values ih =>
    cases types with
    | nil => exact grows
    | cons type types =>
      rw [checkArguments]
      split
      · exact ih
      · trivial

theorem execute_grows (hosts : String → Option Signature) (m : Machine) (i : Instruction) :
    Grows m (m.execute hosts i) := by
  have low : m.stack.length ≤ m.stack.length := Nat.le_refl _
  cases i with
  | jump target => exact grows_jump m target low
  | jumpIf target =>
    refine .pops (shortens_popBoolean low) fun taken left short => ?_
    cases taken with
    | true => exact grows_jump _ target short
    | false => exact Nat.le_succ_of_le short
  | push value => exact Nat.succ_le_succ low
  | dup => exact .pops (shortens_pop low) fun _ _ _ => Nat.succ_le_succ low
  | free slot => exact Nat.le_succ _
  | pop | store slot => exact .pops (shortens_pop low) fun _ _ short => Nat.le_succ_of_le short
  | invert => exact .pops (shortens_popBoolean low) fun _ _ short => Nat.succ_le_succ short
  | negate => exact .pops (shortens_popNumber low) fun _ _ short => Nat.succ_le_succ short
  | equal | notEqual => exact .pops (shortens_popSame low) fun _ _ short => Nat.succ_le_succ short
  | makeList count => exact .pops (shortens_popMany _ low) fun _ _ short => Nat.succ_le_succ short
  | arith op | order op =>
    exact .pops (shortens_popNumber low) fun _ _ short =>
      .pops (shortens_popNumber short) fun _ _ short => Nat.succ_le_succ short
  | load slot =>
    simp only [execute]
    split
    · exact Nat.succ_le_succ low
    · trivial
  | convert target =>
    refine .pops (shortens_pop low) fun value left short => ?_
    simp only
    split
    · split
      · exact Nat.succ_le_succ short
      · rfl
    · trivial
  | call target =>
    simp only [execute]
    split
    · rfl
    · exact grows_jump _ target low
  | ret =>
    simp only [execute]
    split
    · trivial
    · split
      · exact Nat.le_succ _
      · trivial
  | callHost name =>
    simp only [execute]
    split
    · exact .pops (shortens_popMany _ low) fun _ _ short => grows_checked ⟨short, rfl⟩
    · trivial
  | getItem expected =>
    refine .pops (shortens_popNumber low) fun index left short => ?_
    refine .pops (shortens_popList short) fun items left short => grows_item fun place => ?_
    simp only
    split
    · exact Nat.succ_le_succ short
    · rfl
  | setItem =>
    refine .pops (shortens_pop low) fun value left short => ?_
    refine .pops (shortens_popNumber short) fun index left short => ?_
    exact .pops (shortens_popList short) fun items left short =>
      grows_item fun place => Nat.succ_le_succ short

/-- Calls are limited where they are made. -/
theorem execute_calls {hosts : String → Option Signature} {m after : Machine} {i : Instruction}
    {effect : Effect} (done : m.execute hosts i = .ok effect) (carried : Carried i m after) :
    after.calls.length ≤ max m.calls.length m.config.maxCallDepth := by
  cases carried.control with
  | falls goesOn stays ip calls => exact calls ▸ Nat.le_max_left _ _
  | jumps leads calls => exact calls ▸ Nat.le_max_left _ _
  | returns ret calls => exact Nat.le_trans (calls ▸ Nat.le_succ _) (Nat.le_max_left _ _)
  | enters call calls =>
    have room : m.calls.length < m.config.maxCallDepth := by
      rw [call, execute] at done
      split at done
      · cases done
      · omega
    exact calls ▸ Nat.le_trans room (Nat.le_max_right _ _)

end Machine

variable {σ : Type} {hosts : HostTable (StateM σ)}

namespace Machine

/-- The sizes of the two stacks are within bounds. -/
structure Bounded (stack calls : Nat) (m : Machine) : Prop where
  stack : m.stack.length ≤ stack
  calls : m.calls.length ≤ calls

/-- A machine that carries out an instruction is below its limits. -/
theorem exceeded?_none {m : Machine} (free : m.exceeded? = none) :
    m.stack.length ≤ m.config.maxStackSize ∧ ∀ limit ∈ m.config.maxSteps, m.steps ≤ limit := by
  unfold exceeded? at free
  split at free
  · rename_i limit limited
    split at free
    · cases free
    · split at free
      · cases free
      · refine ⟨by omega, fun other member => ?_⟩
        cases limited.symm.trans member
        omega
  · rename_i unlimited
    split at free
    · cases free
    · exact ⟨by omega, fun limit member => by cases unlimited.symm.trans member⟩

theorem isPreliminary_of_exceeded? {m : Machine} {mishap : Mishap}
    (exceeds : m.exceeded? = some mishap) : mishap.isPreliminary := by
  unfold exceeded? at exceeds
  split at exceeds <;> (repeat' split at exceeds) <;> cases exceeds <;> rfl

/-- A step that goes on is below the limits. -/
theorem step_free {hosts : String → Option Signature} {m : Machine} {effect : Effect}
    (stepped : ongoing? (m.step hosts) = some effect) :
    exceeded? { m with steps := m.steps + 1 } = none := by
  unfold step at stepped
  split at stepped
  · simp only at stepped
    split at stepped
    · cases stepped
    · assumption
  · cases stepped

theorem turn_free {m next : Machine} {w w' : σ} (turns : m.turn hosts w = (.inl next, w')) :
    exceeded? { m with steps := m.steps + 1 } = none := by
  obtain ⟨i, behind, decoded, -⟩ := turn_execute turns
  have inside : m.ip < m.code.size := by
    have onward := Bytecode.decodeAt_onward decoded
    omega
  cases exceeds : exceeded? { m with steps := m.steps + 1 } with
  | none => rfl
  | some mishap =>
    rw [turn_exceeded inside exceeds] at turns
    cases turns

section Instruction

variable {m after : Machine} {i : Instruction}
  (low : m.stack.length ≤ m.config.maxStackSize)
include low

theorem execute_next_bounded {hosts : String → Option Signature}
    (done : m.execute hosts i = .ok (.next after)) :
    Bounded (m.config.maxStackSize + 1)
      (max m.calls.length m.config.maxCallDepth) after := by
  have grows := execute_grows hosts m i
  rw [done] at grows
  exact ⟨Nat.le_trans grows (Nat.succ_le_succ low), execute_calls done (execute_leaves done)⟩

theorem execute_request_bounded {hosts : String → Option Signature} {call : HostCall}
    (done : m.execute hosts i = .ok (.request call after)) :
    Bounded m.config.maxStackSize
      (max m.calls.length m.config.maxCallDepth) after := by
  have grows := execute_grows hosts m i
  rw [done] at grows
  exact ⟨Nat.le_trans grows.1 low, execute_calls done (execute_leaves done)⟩

end Instruction

theorem height_le_one (type : Ty) : type.height ≤ 1 := by
  cases type <;> decide

/-- A reply adds at most a value. -/
theorem Bounded.resume {stack calls : Nat} {waiting next : Machine} {call : HostCall}
    {reply : HostReply} (bounded : Bounded stack calls waiting)
    (resumed : waiting.resume call reply = .running next) : Bounded (stack + 1) calls next := by
  obtain ⟨values, count, left⟩ := resume_stack resumed
  have single : values.length ≤ 1 := count ▸ height_le_one _
  rcases resume_cases waiting call reply with ⟨mishap, failed⟩ | ⟨stack', running⟩
  · rw [failed] at resumed
    cases resumed
  · rw [running] at resumed
    cases resumed
    have low := bounded.stack
    refine ⟨?_, bounded.calls⟩
    rw [left, List.length_append]
    omega

/-- However large the stacks were before, a turn leaves them within the limits. -/
theorem turn_bounded {m next : Machine} {w w' : σ} (turns : m.turn hosts w = (.inl next, w')) :
    Bounded (m.config.maxStackSize + 1) (max m.calls.length m.config.maxCallDepth) next := by
  have low : m.stack.length ≤ m.config.maxStackSize := (exceeded?_none (turn_free turns)).1
  obtain ⟨i, behind, -, done | ⟨call, waiting, reply, resumed, asked⟩⟩ := turn_execute turns
  · exact execute_next_bounded (m := { m with ip := behind, steps := m.steps + 1 }) low done
  · exact (execute_request_bounded (m := { m with ip := behind, steps := m.steps + 1 }) low
      asked).resume resumed

/-- A machine keeps to the limits that hold at the start, with the sizes that its stacks had
there. -/
theorem Reaches.bounded {count : Nat} {m last : Machine} {w w' : σ}
    (reaches : Reaches hosts count m w last w') :
    Bounded (max m.stack.length (m.config.maxStackSize + 1))
      (max m.calls.length m.config.maxCallDepth) last := by
  induction reaches with
  | refl m w => exact ⟨Nat.le_max_left _ _, Nat.le_max_left _ _⟩
  | turn turns rest ih =>
    obtain ⟨i, behind, -, carried⟩ := turn_carried turns
    obtain ⟨short, shallow⟩ := turn_bounded turns
    obtain ⟨stack, calls⟩ := ih
    rw [carried.config] at stack calls
    exact ⟨by simp only at stack; omega, by simp only at calls; omega⟩

theorem step_calling_bounded {m waiting : Machine} {call : HostCall}
    (asks : m.step hosts.signature? = .calling call waiting) :
    Bounded m.config.maxStackSize (max m.calls.length m.config.maxCallDepth) waiting := by
  have ongoing : ongoing? (m.step hosts.signature?) = some (.request call waiting) := by
    rw [asks]; rfl
  obtain ⟨i, behind, -, asked⟩ := step_ongoing _ ongoing
  exact execute_request_bounded (m := { m with ip := behind, steps := m.steps + 1 })
    (exceeded?_none (step_free ongoing)).1 asked

variable (hosts) in
/-- The machines that a run shows: between its turns, while the host works on its reply, and at the
end. -/
inductive Shows (m : Machine) (w : σ) : Machine → Prop
  | between {count : Nat} {last : Machine} {w' : σ} (reaches : Reaches hosts count m w last w') :
      Shows m w last
  | waiting {count : Nat} {last waiting : Machine} {w' : σ} {call : HostCall}
      (reaches : Reaches hosts count m w last w')
      (asks : last.step hosts.signature? = .calling call waiting) : Shows m w waiting
  | finished {count : Nat} {last : Machine} {finished : Finished} {w' w'' : σ}
      (reaches : Reaches hosts count m w last w')
      (ends : last.turn hosts w' = (.inr finished, w'')) : Shows m w finished.machine

theorem Bounded.ends {stack calls : Nat} {m : Machine} {finished : Finished}
    (bounded : Bounded stack calls m) (ends : Ends hosts.signature? m finished) :
    Bounded stack calls finished.machine := by
  cases ends with
  | beyond => exact bounded
  | halt => exact ⟨bounded.stack, bounded.calls⟩
  | limit | undecodable | fault | mishap | host => exact ⟨Nat.zero_le _, Nat.zero_le _⟩

/-- A failure leaves nothing on the stacks. -/
theorem Ends.cleared {m : Machine} {finished : Finished} (ends : Ends hosts.signature? m finished)
    (failed : finished.error ≠ none) :
    finished.machine.stack = [] ∧ finished.machine.calls = [] := by
  cases ends with
  | beyond | halt => exact absurd rfl failed
  | limit | undecodable | fault | mishap | host => exact ⟨rfl, rfl⟩

/-- At every point of a run, of any code and with any host, the operand stack holds at most one
value more than its limit and the active calls are at most as many as their limit, unless there were
more at the start. A run that fails leaves both stacks empty. -/
theorem run_bounded (m : Machine) (hosts : HostTable (StateM σ)) (w : σ) :
    (∀ shown, Shows hosts { m with steps := 0 } w shown →
      shown.stack.length ≤ max m.stack.length (m.config.maxStackSize + 1) ∧
        shown.calls.length ≤ max m.calls.length m.config.maxCallDepth) ∧
    ∀ fuel finished w', m.run hosts fuel w = (some finished, w') → finished.error ≠ none →
      finished.machine.stack = [] ∧ finished.machine.calls = [] := by
  refine ⟨fun shown shows => ?_, fun fuel finished w' done failed => ?_⟩
  · cases shows with
    | between reaches => exact ⟨reaches.bounded.stack, reaches.bounded.calls⟩
    | waiting reaches asks =>
      obtain ⟨-, shallow⟩ := reaches.bounded
      obtain ⟨stack, calls⟩ := step_calling_bounded asks
      rw [reaches.config] at stack calls
      exact ⟨by simp only at stack; omega, by simp only at calls shallow; omega⟩
    | finished reaches ends =>
      obtain ⟨stack, calls⟩ := reaches.bounded.ends (turn_ends ends)
      exact ⟨stack, calls⟩
  · obtain ⟨count, last, w₁, reaches, ended⟩ := runFrom_finished done
    exact (turn_ends ended).cleared failed

/-- A call and three values, with room for one of each. -/
def narrow : Machine where
  config := { maxStackSize := 1, maxCallDepth := 1 }
  code := .ofList [21, 5, 0, 0, 0, 2, 2, 1, 2, 2, 1, 2, 2, 1]

/-- The bounds are attained, and the run fails where it exceeds them. -/
theorem run_bounded_narrow : ∃ shown finished,
    Shows (σ := Nat) {} { narrow with steps := 0 } 7 shown ∧
      shown.stack.length = 2 ∧ shown.stack.length ≤ max 0 (1 + 1) ∧
      shown.calls.length = 1 ∧ shown.calls.length ≤ max 0 1 ∧
      narrow.run (μ := StateM Nat) {} 4 7 = (some finished, 7) ∧
      finished.error = some (.runtime (.stackLimit 1) []) ∧
      finished.machine.stack = [] ∧ finished.machine.calls = [] := by
  obtain ⟨last, w, reaches, seen⟩ := exists_of_reached?
    (fun m w => (m.stack.length, m.calls.length, m.ip, m.code.size, m.config, w))
    (by decide +kernel : (reached? (σ := Nat) {} 3 narrow 7).map _ =
      some (2, 1, 11, 14, narrow.config, 7))
  simp only [Prod.mk.injEq] at seen
  obtain ⟨stack, calls, ip, size, config, rfl⟩ := seen
  have exceeds : exceeded? { last with steps := last.steps + 1 } = some (.stackLimit 1) := by
    simp only [exceeded?, config, stack]
    rfl
  have done := reaches.run_ends (turn_exceeded (by omega) exceeds) (by decide : 3 < 4)
  obtain ⟨bounded, cleared⟩ := run_bounded narrow (σ := Nat) {} 7
  exact ⟨last, _, .between reaches, stack, (bounded last (.between reaches)).1, calls,
    (bounded last (.between reaches)).2, done, rfl, cleared 4 _ 7 done (Option.some_ne_none _)⟩

theorem resume_mishap {waiting last : Machine} {call : HostCall} {reply : HostReply}
    {mishap : Mishap}
    {calls : List Nat} (failed : waiting.resume call reply = .failed (.runtime mishap calls) last) :
    mishap.isPreliminary = false := by
  unfold resume at failed
  split at failed
  · cases failed
    rfl
  · split at failed
    · cases failed
    · split at failed
      · cases failed
        rfl
      · split at failed <;> cases failed
        rfl

theorem step_mishap {hosts : String → Option Signature} {m last : Machine} {mishap : Mishap}
    {calls : List Nat} (failed : m.step hosts = .failed (.runtime mishap calls) last) :
    exceeded? { m with steps := m.steps + 1 } = some mishap ∧ calls = [] ∨
      mishap.isPreliminary = false ∧ calls = m.calls.reverse := by
  unfold step at failed
  split at failed
  · simp only at failed
    split at failed
    · rename_i exceeds
      cases failed
      exact .inl ⟨exceeds, rfl⟩
    · split at failed
      · cases failed
      · rename_i i behind decoded
        split at failed
        · cases failed
        · cases failed
        · cases failed
        · rename_i trouble troubled
          have grows := execute_grows hosts { m with ip := behind, steps := m.steps + 1 } i
          rw [troubled] at grows
          cases trouble <;> cases failed
          exact .inr ⟨grows, rfl⟩
  · cases failed

/-- A mishap is a limit that is exceeded before an instruction, and then the calls are not told; or
it comes about with the instruction, and they are. -/
theorem turn_mishap {m : Machine} {finished : Finished} {mishap : Mishap} {calls : List Nat}
    {w w' : σ} (turns : m.turn hosts w = (.inr finished, w'))
    (failed : finished.error = some (.runtime mishap calls)) :
    exceeded? { m with steps := m.steps + 1 } = some mishap ∧ calls = [] ∨
      mishap.isPreliminary = false ∧ calls = m.calls.reverse := by
  unfold turn at turns
  cases stepped : m.step hosts.signature? with
  | running after => rw [stepped] at turns; cases turns
  | halted last =>
    rw [stepped] at turns
    cases turns
    cases failed
  | failed error last =>
    rw [stepped] at turns
    cases turns
    cases failed
    exact step_mishap stepped
  | calling call waiting =>
    obtain ⟨i, behind, -, asked⟩ := step_ongoing (.request call waiting) (by rw [stepped]; rfl)
    have grows := execute_grows hosts.signature? { m with ip := behind, steps := m.steps + 1 } i
    rw [asked] at grows
    rw [stepped] at turns
    simp only at turns
    rcases answered : (hosts.call? call.name call.arguments).getD (pure (.ok none)) w
      with ⟨reply, w₁⟩
    rw [answered] at turns
    rcases resume_cases waiting call reply with ⟨unexpected, resumed⟩ | ⟨stack, resumed⟩
    · simp only [resumed] at turns
      cases turns
      cases failed
      exact .inr ⟨resume_mishap resumed, congrArg List.reverse grows.2⟩
    · simp only [resumed] at turns
      cases turns

/-- A run that comes to a mishap tells the return addresses of the calls that were active in its
last turn, innermost last, with one exception: where the limit on the steps or on the size of the
stack is exceeded, it tells none of them. -/
theorem run_mishap {m : Machine} {hosts : HostTable (StateM σ)} {fuel : Nat} {w w' : σ}
    {finished : Finished} {mishap : Mishap} {calls : List Nat}
    (done : m.run hosts fuel w = (some finished, w'))
    (failed : finished.error = some (.runtime mishap calls)) :
    ∃ count last w₁, Reaches hosts count { m with steps := 0 } w last w₁ ∧
      last.turn hosts w₁ = (.inr finished, w') ∧
      (mishap.isPreliminary ↔ exceeded? { last with steps := last.steps + 1 } = some mishap) ∧
      calls = if mishap.isPreliminary then [] else last.calls.reverse := by
  obtain ⟨count, last, w₁, reaches, ended⟩ := runFrom_finished done
  refine ⟨count, last, w₁, reaches, ended, ?_⟩
  rcases turn_mishap ended failed with ⟨exceeds, untold⟩ | ⟨later, told⟩
  · have preliminary := isPreliminary_of_exceeded? exceeds
    exact ⟨iff_of_true preliminary exceeds, by rw [if_pos preliminary, untold]⟩
  · refine ⟨iff_of_false (by rw [later]; decide) fun exceeds => ?_, ?_⟩
    · rw [isPreliminary_of_exceeded? exceeds] at later
      cases later
    · rw [later, if_neg (by decide), told]

/-- A procedure that does not end, called with three steps left. -/
def called : Machine where
  config := { maxSteps := some 3 }
  code := .ofList [0, 5, 0, 0, 0, 21, 10, 0, 0, 0, 0, 10, 0, 0, 0]

/-- The call is active when the steps are used up, and the error does not tell it. -/
theorem run_mishap_called : ∃ finished, called.run (μ := StateM Nat) {} 4 7 = (some finished, 7) ∧
    finished.error = some (.runtime (.stepLimit 3) []) ∧
    (∃ count last w₁, Reaches {} count { called with steps := 0 } 7 last w₁ ∧
      last.turn {} w₁ = (.inr finished, 7) ∧
      ((Mishap.stepLimit 3).isPreliminary ↔
        exceeded? { last with steps := last.steps + 1 } = some (.stepLimit 3)) ∧
      [] = if (Mishap.stepLimit 3).isPreliminary then [] else last.calls.reverse) ∧
    ∃ last, Reaches {} 3 { called with steps := 0 } 7 last 7 ∧
      last.turn {} 7 = (.inr finished, 7) ∧ last.calls = [10] := by
  obtain ⟨last, w, reaches, seen⟩ := exists_of_reached?
    (fun m w => (m.calls, m.steps, m.ip, m.code.size, m.config, w))
    (by decide +kernel : (reached? (σ := Nat) {} 3 called 7).map _ =
      some ([10], 3, 10, 15, called.config, 7))
  simp only [Prod.mk.injEq] at seen
  obtain ⟨calls, steps, ip, size, config, rfl⟩ := seen
  have exceeds : exceeded? { last with steps := last.steps + 1 } = some (.stepLimit 3) := by
    simp only [exceeded?, config, steps]
    rfl
  have ended : last.turn ({} : HostTable (StateM Nat)) 7 = _ := turn_exceeded (by omega) exceeds
  have done := reaches.run_ends ended (by decide : 3 < 4)
  exact ⟨_, done, rfl, run_mishap done rfl, last, reaches, ended, calls⟩

end Machine

end Primer
