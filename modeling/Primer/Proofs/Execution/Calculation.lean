import Primer.Proofs.Compilation.Code
import Primer.Proofs.Execution.Expressions

/-!
Expressions without calls, run on their own. Wherever the code of such an expression stands, and
whatever lies below on the stack, it comes to the same end for the same locals: it puts a value on
the stack, or it fails. The room that it needs on the stack for that is what its run has there at
its peak, which the locals decide as well: a side that is skipped needs none.
-/

set_option autoImplicit false
set_option relaxedAutoImplicit false

namespace Primer

variable {σ : Type} {hosts : HostTable (StateM σ)}

namespace Machine

variable {m : Machine} {w : σ} {i : Instruction} {height ip : Nat} {stack : List Value}

/-- The machine at a later point of its run: it has come to an offset with a stack. -/
def onward (m : Machine) (ip : Nat) (stack : List Value) (count : Nat) : Machine :=
  { m with ip, stack, steps := m.steps + count }

variable (hosts) in
/-- The run from a machine ends with an error. -/
def Fails (m : Machine) (w : σ) : Prop :=
  ∃ count last w₁ finished w', Reaches hosts count m w last w₁ ∧
    last.turn hosts w₁ = (.inr finished, w') ∧ finished.error ≠ none

variable (hosts) in
/-- At some point of its run the machine has a number of values on the stack. -/
def Peaks (m : Machine) (w : σ) (height : Nat) : Prop :=
  ∃ count now w', Reaches hosts count m w now w' ∧ height ≤ now.stack.length

variable (hosts) in
/-- The run from a machine comes to an offset with a stack and changes nothing else, or it fails.
Where it comes somewhere, it has a number of values on the stack at its peak; where it should have
come somewhere, it fails only if the stack cannot hold that number. -/
inductive Runs (m : Machine) (w : σ) (height : Nat) : Option (Nat × List Value) → Prop
  | comes {count ip : Nat} {stack : List Value}
      (reaches : Reaches hosts count m w (m.onward ip stack count) w)
      (peaks : m.Peaks hosts w height) :
      Runs m w height (some (ip, stack))
  | fails {outcome : Option (Nat × List Value)} (failure : m.Fails hosts w)
      (cause : outcome = none ∨ m.config.maxStackSize < height) : Runs m w height outcome

/-- A run that fails does not end otherwise. -/
theorem Fails.error_ne_none {w' : σ} {fuel : Nat} {finished : Finished} (failure : m.Fails hosts w)
    (ran : m.runFrom hosts fuel w = (some finished, w')) : finished.error ≠ none := by
  obtain ⟨count, last, w₁, other, w₂, reaches, ended, failed⟩ := failure
  have final := reaches.run_ends ended (reaches.lt_fuel ran)
  rw [ran] at final
  cases final
  exact failed

theorem peaks_start : m.Peaks hosts w m.stack.length := ⟨0, m, w, .refl m w, Nat.le_refl _⟩

theorem Reaches.peaks {next : Machine} {w' : σ} {count : Nat}
    (reaches : Reaches hosts count m w next w')
    (peaks : next.Peaks hosts w' height) : m.Peaks hosts w height := by
  obtain ⟨more, now, w₁, rest, high⟩ := peaks
  exact ⟨_, now, w₁, reaches.trans rest, high⟩

/-- Only the last stack of a run that ends well may be larger than the limit. -/
theorem Peaks.le {last : Machine} {w' : σ} (peaks : m.Peaks hosts w height)
    (halts : m.Halts hosts w last w') (unlimited : m.config.maxSteps = none) :
    height ≤ max m.config.maxStackSize last.stack.length := by
  obtain ⟨count, now, w₁, reaches, high⟩ := peaks
  have config := reaches.config
  have rest := reaches.halts_iff.mp halts
  by_cases inside : now.ip < now.code.size
  · have room := rest.room (config ▸ unlimited) inside
    rw [config] at room
    omega
  · obtain ⟨same, -⟩ := (halts_of_ended (turn_beyond (Nat.not_lt.mp inside))).mp rest
    cases same
    omega

theorem Runs.stops {more : Nat} (runs : Runs hosts m w height none) : Runs hosts m w more none := by
  cases runs with
  | fails failure cause => exact .fails failure (.inl rfl)

theorem Reaches.fails {next : Machine} {w' : σ} {count : Nat}
    (reaches : Reaches hosts count m w next w')
    (failure : next.Fails hosts w') : m.Fails hosts w := by
  obtain ⟨more, last, w₁, finished, w₂, rest, ended, failed⟩ := failure
  exact ⟨_, last, w₁, finished, w₂, reaches.trans rest, ended, failed⟩

/-- Of two parts of a run, the higher peak is the peak of the whole. -/
theorem Runs.andThen {outcome : Option (Nat × List Value)} {whole : Nat}
    (first : Runs hosts m w height (some (ip, stack))) (more : Nat)
    (rest : ∀ count, Runs hosts (m.onward ip stack count) w more outcome)
    (highest : whole = max height more) : Runs hosts m w whole outcome := by
  subst highest
  cases first with
  | fails failure cause =>
    have low := cause.resolve_left (by simp)
    exact .fails failure (.inr (by omega))
  | @comes count _ _ reaches peaks =>
    cases rest count with
    | fails failure cause =>
      exact .fails (reaches.fails failure)
        (cause.imp_right fun low => Nat.lt_of_lt_of_le low (Nat.le_max_right _ _))
    | comes further peaks' =>
      have joined := reaches.trans further
      simp only [onward, Nat.add_assoc] at joined
      refine .comes joined ?_
      rcases Nat.le_total height more with higher | higher
      · rw [Nat.max_eq_right higher]
        exact reaches.peaks peaks'
      · rw [Nat.max_eq_left higher]
        exact peaks

theorem exceeded?_next (unlimited : m.config.maxSteps = none) :
    exceeded? { m with steps := m.steps + 1 } =
      if m.config.maxStackSize < m.stack.length then some (.stackLimit m.config.maxStackSize)
      else none :=
  exceeded?_of_left (m := { m with steps := m.steps + 1 }) (by simp [unlimited])

theorem fails_overfull (fetches : m.code.Fetches m.ip i) (unlimited : m.config.maxSteps = none)
    (full : m.config.maxStackSize < m.stack.length) : m.Fails hosts w := by
  have exceeds := exceeded?_next unlimited
  rw [if_pos full] at exceeds
  exact ⟨0, m, w, _, w, .refl m w, turn_exceeded fetches.2 exceeds, by simp⟩

/-- An instruction leads on. -/
theorem runs_next (fetches : m.code.Fetches m.ip i) (unlimited : m.config.maxSteps = none)
    (done : execute hosts.signature? { m with ip := m.ip + i.size, steps := m.steps + 1 } i =
      .ok (.next (m.onward ip stack 1))) :
    Runs hosts m w m.stack.length (some (ip, stack)) := by
  by_cases full : m.config.maxStackSize < m.stack.length
  · exact .fails (fails_overfull fetches unlimited full) (.inr full)
  · have free := exceeded?_next unlimited
    rw [if_neg full] at free
    have stepped : m.step hosts.signature? = .running (m.onward ip stack 1) := by
      rw [step, if_pos fetches.2]
      simp only [free, fetches.1, done]
    have turns : m.turn hosts w = (.inl (m.onward ip stack 1), w) := by
      rw [turn, stepped]
    exact .comes (.turn turns (.refl _ w)) peaks_start

/-- An instruction cannot be carried out. -/
theorem runs_trouble {trouble : Trouble} (fetches : m.code.Fetches m.ip i)
    (unlimited : m.config.maxSteps = none)
    (done : execute hosts.signature? { m with ip := m.ip + i.size, steps := m.steps + 1 } i =
      .error trouble) :
    Runs hosts m w height none := by
  refine .fails ?_ (.inl rfl)
  by_cases full : m.config.maxStackSize < m.stack.length
  · exact fails_overfull fetches unlimited full
  · have free := exceeded?_next unlimited
    rw [if_neg full] at free
    have stepped : m.step hosts.signature? =
        fail { m with ip := m.ip + i.size, steps := m.steps + 1 } m.ip trouble := by
      rw [step, if_pos fetches.2]
      simp only [free, fetches.1, done]
    cases trouble with
    | fault fault => exact ⟨0, m, w, _, w, .refl m w, by rw [turn, stepped]; rfl, by simp⟩
    | mishap mishap => exact ⟨0, m, w, _, w, .refl m w, by rw [turn, stepped]; rfl, by simp⟩

/-- An instruction works on values on top of the stack. -/
theorem runs_compute {given rest : List Value} {outcome : Except Interpreter.Halt (Option Value)}
    (computes : Plan.Computes i given outcome) (fetches : m.code.Fetches m.ip i)
    (unlimited : m.config.maxSteps = none) (top : m.stack = given ++ rest) :
    Runs hosts m w m.stack.length
      (outcome.toOption.map fun made => (m.ip + i.size, made.toList ++ rest)) := by
  cases outcome with
  | ok made => exact runs_next fetches unlimited (computes _ _ rest top)
  | error halt =>
    cases halt with
    | mishap x => exact runs_trouble fetches unlimited (computes _ _ rest top)
    | stuck =>
      obtain ⟨fault, done⟩ := computes hosts.signature?
        { m with ip := m.ip + i.size, steps := m.steps + 1 } rest top
      exact runs_trouble fetches unlimited done
    | misread => exact computes.elim
    | exhausted => exact computes.elim

theorem runs_jump {target : Nat} (fetches : m.code.Fetches m.ip (.jump target))
    (unlimited : m.config.maxSteps = none) (inside : target ≤ m.code.size) :
    Runs hosts m w m.stack.length (some (target, m.stack)) := by
  apply runs_next fetches unlimited
  simp only [execute, jump]
  rw [if_pos (show target ≤ Bytecode.size _ from inside)]
  rfl

theorem runs_jumpIf {target : Nat} {b : Bool} {rest : List Value}
    (fetches : m.code.Fetches m.ip (.jumpIf target)) (unlimited : m.config.maxSteps = none)
    (inside : target ≤ m.code.size) (top : m.stack = .boolean b :: rest) :
    Runs hosts m w m.stack.length
      (some (if b then target else m.ip + Fragment.jumpSize, rest)) := by
  apply runs_next fetches unlimited
  simp only [execute, top, Stack.popBoolean, Stack.pop, bind, Except.bind, pure, Except.pure]
  cases b with
  | false => rfl
  | true =>
    simp only [if_true, jump]
    rw [if_pos (show target ≤ Bytecode.size _ from inside)]
    rfl

/-- A conditional jump needs a boolean. -/
theorem runs_jumpIf_stuck {target : Nat} {value : Value} {rest : List Value}
    (fetches : m.code.Fetches m.ip (.jumpIf target)) (unlimited : m.config.maxSteps = none)
    (top : m.stack = value :: rest) (other : ∀ b, value ≠ .boolean b) :
    Runs hosts m w height none := by
  have stuck : Stack.popBoolean m.stack = .error (.fault (.wrongType .boolean value.type)) := by
    rw [top]
    cases value with
    | boolean b => exact absurd rfl (other b)
    | _ => rfl
  apply runs_trouble fetches unlimited
  simp only [execute, stuck]
  rfl

end Machine

namespace Fragment

variable {locals : Locals} {code first second : Fragment} {room more : Nat}

/-- The code calculates something from the locals: it puts values on the stack, or it fails. It does
so wherever it stands, and has a number of values on the stack at its peak. -/
structure Calculates (code : Fragment) (locals : Locals) (room : Nat) (made : Option (List Value)) :
    Prop where
  sound : code.Sound fun _ => False
  runs : ∀ {σ : Type} (hosts : HostTable (StateM σ)) (m : Machine) (w : σ),
    m.code.Places m.ip code → m.locals = locals → m.config.maxSteps = none →
      m.Runs hosts w (m.stack.length + room)
        (made.map fun values => (m.ip + code.size, values ++ m.stack))

theorem calculates_nil : Calculates [] locals 0 (some []) :=
  ⟨.nil, fun _ m w _ _ _ => .comes (.refl m w) Machine.peaks_start⟩

/-- Code that fails does so whatever follows it. -/
theorem Calculates.cut (calculates : Calculates first locals room none)
    (sound : Sound (fun _ => False) (first ++ second)) :
    Calculates (first ++ second) locals more none :=
  ⟨sound, fun hosts m w placed held unlimited =>
    (calculates.runs hosts m w placed.left held unlimited).stops⟩

theorem Calculates.append {values : List Value} {made : Option (List Value)}
    (one : Calculates first locals room (some values)) (two : Calculates second locals more made) :
    Calculates (first ++ second.shift first.size) locals (max room (values.length + more))
      (made.map (· ++ values)) := by
  refine ⟨one.sound.append two.sound, fun hosts m w placed held unlimited => ?_⟩
  have same : (made.map (· ++ values)).map
      (fun values => (m.ip + size (first ++ second.shift first.size), values ++ m.stack)) =
      made.map fun more => (m.ip + first.size + second.size, more ++ (values ++ m.stack)) := by
    cases made <;> simp [Nat.add_assoc]
  rw [same]
  refine (one.runs hosts m w placed.left held unlimited).andThen
    ((values ++ m.stack).length + more) (fun count => ?_) ?_
  · exact two.runs hosts (m.onward (m.ip + first.size) (values ++ m.stack) count) w
      (placed.last rfl) held unlimited
  · simp only [List.length_append]
    omega

theorem Calculates.followed {values : List Value} {i : Instruction}
    {outcome : Except Interpreter.Halt (Option Value)}
    (one : Calculates code locals room (some values)) (computes : Plan.Computes i values outcome)
    (straight : i.jump? = none) (fits : i.Fits fun _ => False) :
    Calculates (code ++ [i]) locals (max room values.length)
      (outcome.toOption.map Option.toList) := by
  refine ⟨one.sound.followed straight fits, fun hosts m w placed held unlimited => ?_⟩
  have fetches := placed.fetches (rfl : size code = size code)
  rw [Instruction.shift_of_straight straight] at fetches
  have same : (outcome.toOption.map Option.toList).map
      (fun values => (m.ip + size (code ++ [i]), values ++ m.stack)) =
      outcome.toOption.map fun made => (m.ip + code.size + i.size, made.toList ++ m.stack) := by
    cases outcome <;> simp [Except.toOption, Nat.add_assoc]
  rw [same]
  refine (one.runs hosts m w placed.left held unlimited).andThen
    (values ++ m.stack).length (fun count => ?_) ?_
  · exact Machine.runs_compute (m := m.onward (m.ip + code.size) (values ++ m.stack) count)
      computes fetches unlimited rfl
  · simp only [List.length_append]
    omega

theorem calculates_push {value : Value} (passes : (Instruction.push value).check = .ok ()) :
    Calculates [.push value] locals 0 (some [value]) :=
  calculates_nil.followed (Plan.computes_push value) rfl ⟨passes, by simp⟩

theorem calculates_load (slot : UInt8) :
    Calculates [.load slot] locals 0 ((locals.get? slot).map ([·])) := by
  refine ⟨.single rfl ⟨rfl, by simp⟩, fun hosts m w placed held unlimited => ?_⟩
  have fetches := placed.head
  subst held
  cases filled : m.locals.get? slot with
  | none =>
    apply Machine.runs_trouble fetches unlimited
    simp only [Instruction.shift, Machine.execute, filled]
    rfl
  | some value =>
    apply Machine.runs_next fetches unlimited
    simp only [Instruction.shift, Machine.execute, filled]
    rfl

/-- The code puts a number of values on the stack, if it does not fail. -/
def Makes (code : Fragment) (locals : Locals) (count : Nat) : Prop :=
  ∃ room made, Calculates code locals room made ∧ ∀ values, made = some values →
    values.length = count

theorem makes_push {value : Value} (passes : (Instruction.push value).check = .ok ()) :
    Makes [.push value] locals 1 :=
  ⟨_, _, calculates_push passes, by simp⟩

theorem makes_load (slot : UInt8) : Makes [.load slot] locals 1 := by
  refine ⟨_, _, calculates_load slot, fun values loaded => ?_⟩
  obtain ⟨value, -, rfl⟩ := Option.map_eq_some_iff.mp loaded
  rfl

theorem Makes.sound {count : Nat} (makes : Makes code locals count) :
    code.Sound fun _ => False := by
  obtain ⟨room, made, calculates, -⟩ := makes
  exact calculates.sound

theorem Makes.append {one two : Nat} (left : Makes first locals one)
    (right : Makes second locals two) :
    Makes (first ++ second.shift first.size) locals (one + two) := by
  have sound := left.sound.append right.sound
  obtain ⟨room, made, calculates, counted⟩ := left
  obtain ⟨more, other, calculates', counted'⟩ := right
  cases made with
  | none => exact ⟨0, none, calculates.cut sound, by simp⟩
  | some values =>
    refine ⟨_, _, calculates.append calculates', fun all found => ?_⟩
    obtain ⟨others, rfl, rfl⟩ := Option.map_eq_some_iff.mp found
    rw [List.length_append, counted' others rfl, counted values rfl]
    omega

/-- An instruction that makes one value of those before. -/
theorem Makes.followed {count : Nat} {i : Instruction} (makes : Makes code locals count)
    (straight : i.jump? = none) (fits : i.Fits fun _ => False)
    (computes : ∀ values : List Value, values.length = count →
      ∃ outcome, Plan.Computes i values outcome ∧ ∀ found, outcome = .ok found → found ≠ none) :
    Makes (code ++ [i]) locals 1 := by
  have sound := makes.sound.followed straight fits
  obtain ⟨room, made, calculates, counted⟩ := makes
  cases made with
  | none => exact ⟨0, none, calculates.cut sound, by simp⟩
  | some values =>
    obtain ⟨outcome, computes, filled⟩ := computes values (counted values rfl)
    refine ⟨_, _, calculates.followed computes straight fits, fun all found => ?_⟩
    obtain ⟨single, isSome, rfl⟩ := Option.map_eq_some_iff.mp found
    cases outcome with
    | error halt => cases isSome
    | ok value =>
      cases isSome
      cases single with
      | none => exact absurd rfl (filled none rfl)
      | some value => rfl

theorem Makes.deciding (op : Logic) (left : Makes first locals 1) :
    Makes (deciding op first) locals 1 := by
  cases op with
  | and =>
    refine left.followed rfl ⟨rfl, by simp⟩ fun values single => ?_
    obtain ⟨value, rfl⟩ := List.length_eq_one_iff.mp single
    exact ⟨_, Plan.computes_unary .invert value, fun _ => Interpreter.unaryValue_ok⟩
  | or => exact left

section ShortCircuit

variable {op : Logic}

/-- What the left side comes to decides where the run goes on. -/
theorem Calculates.decision {m : Machine} {w : σ} {b : Bool}
    (decides : Calculates (deciding op first) locals room (some [.boolean b]))
    (placed : m.code.Places m.ip (shortCircuit op first second)) (held : m.locals = locals)
    (unlimited : m.config.maxSteps = none) :
    m.Runs hosts w (m.stack.length + max room 1)
      (some (if b then rightStart op first + size second + jumpSize + m.ip
        else m.ip + rightStart op first, m.stack)) := by
  obtain ⟨start, decision, -, -, -⟩ := places_shortCircuit placed
  have fits := placed.fits
  rw [size_shortCircuit, rightStart] at fits
  rw [rightStart, ← Nat.add_assoc m.ip]
  refine (decides.runs hosts m w start held unlimited).andThen
    (m.stack.length + 1) (fun count => ?_) (by omega)
  exact Machine.runs_jumpIf
    (m := m.onward (m.ip + size (deciding op first)) (.boolean b :: m.stack) count)
    decision unlimited (by simp only [Machine.onward]; omega) rfl

variable (sound : Sound (fun _ => False) (shortCircuit op first second))
include sound

/-- There is nothing to decide by, or it is no boolean. -/
theorem Calculates.undecided {made : Option (List Value)}
    (decides : Calculates (deciding op first) locals room made)
    (stuck : ∀ values, made = some values → ∃ value, values = [value] ∧ ∀ b, value ≠ .boolean b) :
    Calculates (shortCircuit op first second) locals more none := by
  refine ⟨sound, fun hosts m w placed held unlimited => ?_⟩
  obtain ⟨start, decision, -, -, -⟩ := places_shortCircuit placed
  have runs := decides.runs hosts m w start held unlimited
  cases made with
  | none => exact runs.stops
  | some values =>
    obtain ⟨value, rfl, other⟩ := stuck values rfl
    refine (runs.andThen 0 (fun count => ?_) rfl).stops
    exact Machine.runs_jumpIf_stuck decision unlimited rfl other

/-- The left side is enough. -/
theorem Calculates.decided
    (decides : Calculates (deciding op first) locals room (some [.boolean true])) :
    Calculates (shortCircuit op first second) locals (max room 1) (some [.boolean (op = .or)]) := by
  refine ⟨sound, fun hosts m w placed held unlimited => ?_⟩
  obtain ⟨-, -, -, -, push⟩ := places_shortCircuit placed
  rw [Nat.add_comm m.ip] at push
  have place : m.ip + size (shortCircuit op first second) =
      rightStart op first + size second + jumpSize + m.ip +
        (Instruction.push (.boolean (op = .or))).size := by
    simp only [size_shortCircuit, size_cons, size_nil]
    omega
  rw [place]
  refine (decides.decision placed held unlimited).andThen
    m.stack.length (fun count => ?_) (by omega)
  exact Machine.runs_compute
    (m := m.onward (rightStart op first + size second + jumpSize + m.ip) m.stack count)
    (Plan.computes_push _) push unlimited rfl

/-- The right side counts. -/
theorem Calculates.continued {made : Option (List Value)}
    (decides : Calculates (deciding op first) locals room (some [.boolean false]))
    (right : Calculates second locals more made)
    (single : ∀ values, made = some values → values.length = 1) :
    Calculates (shortCircuit op first second) locals (max (max room more) 1) made := by
  refine ⟨sound, fun hosts m w placed held unlimited => ?_⟩
  obtain ⟨-, -, after, jump, -⟩ := places_shortCircuit placed
  have fits := placed.fits
  rw [size_shortCircuit] at fits
  have decision : m.Runs hosts w _ (some (m.ip + rightStart op first, m.stack)) :=
    decides.decision placed held unlimited
  have runs (count : Nat) : (m.onward (m.ip + rightStart op first) m.stack count).Runs hosts w
      (m.stack.length + more) _ :=
    right.runs hosts (m.onward (m.ip + rightStart op first) m.stack count) w after held unlimited
  cases made with
  | none => exact (decision.andThen _ runs rfl).stops
  | some values =>
    have length := single values rfl
    rw [size_shortCircuit, Option.map_some, Nat.add_comm m.ip (_ + size [_])]
    refine decision.andThen _ (fun count => (runs count).andThen
      (values ++ m.stack).length (fun count' => ?_) rfl) ?_
    · rw [← Nat.add_assoc] at jump
      exact Machine.runs_jump
        (m := (m.onward (m.ip + rightStart op first) m.stack count).onward
          (m.ip + rightStart op first + size second) (values ++ m.stack) count')
        jump unlimited (by simp only [Machine.onward]; omega)
    · rw [List.length_append, length]
      omega

omit sound in
theorem Makes.shortCircuit (op : Logic) (left : Makes first locals 1)
    (right : Makes second locals 1) : Makes (shortCircuit op first second) locals 1 := by
  have sound := left.sound.shortCircuit op right.sound
  obtain ⟨room, made, decides, counted⟩ := left.deciding op
  obtain ⟨more, other, calculates, single⟩ := right
  by_cases boolean : ∃ b, made = some [.boolean b]
  · obtain ⟨b, rfl⟩ := boolean
    cases b with
    | true => exact ⟨_, _, decides.decided sound, by simp⟩
    | false => exact ⟨_, other, decides.continued sound calculates single, single⟩
  · refine ⟨0, none, decides.undecided sound fun values found => ?_, by simp⟩
    obtain ⟨value, rfl⟩ := List.length_eq_one_iff.mp (counted values found)
    exact ⟨value, rfl, fun b same => boolean ⟨b, same ▸ found⟩⟩

end ShortCircuit

end Fragment

mutual

/-- The expression calls nothing. -/
def Node.isCallFree : Node → Bool
  | .literal _ | .result | .var _ => true
  | .unary _ a | .convert a _ => a.isCallFree
  | .binary _ a b | .item a b => a.isCallFree && b.isCallFree
  | .list items => Node.areCallFree items
  | _ => false

def Node.areCallFree : List Node → Bool
  | [] => true
  | a :: more => a.isCallFree && areCallFree more

end

namespace Task

/-- The task is about expressions without calls. -/
def CallFree : Task → Prop
  | .node n _ | .operand n _ _ | .value n _ _ => n.isCallFree
  | .items _ nodes => Node.areCallFree nodes
  | _ => False

/-- How many values are left. -/
def count : Task → Nat
  | .items _ nodes => nodes.length
  | _ => 1

end Task

open Compile Fragment Interpreter

variable {locals : Locals} {x y : Compiled}

theorem Fragment.sequence_followed {first second : Fragment} {i : Instruction}
    (straight : i.jump? = none) :
    Fragment.sequence [first, second, [i]] = Fragment.sequence [first, second] ++ [i] := by
  simp [Instruction.shift_of_straight straight]

/-- Two operands, and an instruction on their values. -/
theorem Fragment.Makes.pair {first second : Fragment} {i : Instruction}
    {combine : Option Value → Option Value → Except Halt (Option Value)}
    (left : Makes first locals 1) (right : Makes second locals 1) (straight : i.jump? = none)
    (fits : i.Fits fun _ => False)
    (computes : ∀ a b, Plan.Computes i [b, a] (combine (some a) (some b)))
    (filled : ∀ a b found, combine a b = .ok found → found ≠ none) :
    Makes (Fragment.sequence [first, second] ++ [i]) locals 1 := by
  have both := left.append right
  have shape : Fragment.sequence [first, second] = first ++ second.shift first.size := by
    simp [Fragment.sequence_cons]
  rw [shape]
  refine both.followed straight fits fun values two => ?_
  obtain ⟨b, rest, rfl⟩ := List.exists_cons_of_length_pos (show 0 < values.length by omega)
  obtain ⟨a, rfl⟩ := List.length_eq_one_iff.mp (Nat.succ.inj two)
  exact ⟨_, computes a b, filled _ _⟩

/-- The code of an expression without calls makes a value, in any state of the compiler. -/
theorem Yields.calculated {task : Task} {c c' : Compiler} (derivation : Yields task c x c')
    (callFree : task.CallFree) (locals : Locals) : x.code.Makes locals task.count := by
  induction derivation with
  | literal passes => exact makes_push passes
  | @unary op a _ _ x _ operand ih =>
    obtain ⟨straight, fits⟩ := UnaryOp.instruction_fits op fun _ => False
    refine (ih callFree).followed straight fits fun values single => ?_
    obtain ⟨value, rfl⟩ := List.length_eq_one_iff.mp single
    exact ⟨_, Plan.computes_unary op value, fun _ => unaryValue_ok⟩
  | arith _ _ first second =>
    obtain ⟨left, right⟩ := Bool.and_eq_true_iff.mp callFree
    rw [sequence_followed rfl]
    exact (first left).pair (second right) rfl ⟨rfl, by simp⟩ (Plan.computes_arith _)
      fun _ _ _ => arithValue_ok
  | order _ _ first second =>
    obtain ⟨left, right⟩ := Bool.and_eq_true_iff.mp callFree
    rw [sequence_followed rfl]
    exact (first left).pair (second right) rfl ⟨rfl, by simp⟩ (Plan.computes_order _)
      fun _ _ _ => orderValue_ok
  | logic _ _ first second =>
    obtain ⟨left, right⟩ := Bool.and_eq_true_iff.mp callFree
    exact (first left).shortCircuit _ (second right)
  | @comparison op i a b _ _ _ _ _ _ _ compares _ _ _ _ _ first second =>
    obtain ⟨left, right⟩ := Bool.and_eq_true_iff.mp callFree
    obtain ⟨straight, fits⟩ := BinaryOp.comparison_fits compares fun _ => False
    have pair := (first left).pair (second right) straight fits (Plan.computes_comparison compares)
      fun _ _ _ => comparedValue_ok
    cases op with
    | equal | notEqual => exact pair
    | _ => cases compares
  | result _ found => exact makes_load _
  | var found =>
    rcases reference_ok found with ⟨_, param, -, code, -⟩ | ⟨_, -, -, rfl, -⟩
    · rw [code]
      exact makes_load param.slot
    · exact makes_load _
  | convert _ _ _ _ ih =>
    refine (ih callFree).followed rfl ⟨rfl, by simp⟩ fun values single => ?_
    obtain ⟨value, rfl⟩ := List.length_eq_one_iff.mp single
    exact ⟨_, Plan.computes_convert _ value, fun _ => convertedValue_ok⟩
  | literals all passes => exact makes_push passes
  | list mixed short _ items =>
    refine (items callFree).followed rfl ⟨rfl, by simp⟩ fun values length => ?_
    have counted := List.length_reverse.trans length
    have computes := Plan.computes_counted counted (Value.checkLength_ok short)
    rw [List.reverse_reverse] at computes
    exact ⟨_, computes, by simp⟩
  | item filled _ _ first second =>
    obtain ⟨right, left⟩ := Bool.and_eq_true_iff.mp callFree
    rw [sequence_followed rfl]
    exact (first left).pair (second right) rfl ⟨rfl, by simp⟩ (Plan.computes_item _)
      fun _ _ _ => itemValue_ok
  | operand _ _ ih | valueOf _ _ _ ih | valueFound _ _ _ ih => exact ih callFree
  | noItems => exact ⟨_, _, calculates_nil, by simp [Task.count]⟩
  | moreItems _ _ first rest =>
    obtain ⟨one, others⟩ := Bool.and_eq_true_iff.mp callFree
    have makes := (first one).append (rest others)
    rwa [Nat.add_comm (Task.count _) (Task.count _)] at makes
  | _ => cases callFree

end Primer
