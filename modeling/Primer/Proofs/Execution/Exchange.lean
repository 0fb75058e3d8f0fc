import Primer.Proofs.Compilation.Heights
import Primer.Proofs.Execution.Routine

/-!
Heights of the operand stack while code runs. Where enough values are on the stack, an instruction
takes and gives as many as it should, and does not find the stack empty. Routines whose code is
annotated with heights keep to them: each works above what its caller left below the arguments, and
returns with what it gives back.
-/

set_option autoImplicit false
set_option relaxedAutoImplicit false

namespace Primer

namespace Stack

variable {α : Type}

/-- Values were taken off the stack and the rest is left, or the failure is no lack of values. -/
def Pops (rest : List Value) : Except Trouble (α × List Value) → Prop
  | .ok (_, left) => left = rest
  | .error trouble => trouble ≠ .fault .underflow

theorem pops_pop (top : Value) (rest : List Value) : Pops rest (pop (top :: rest)) := rfl

theorem pops_popNumber (top : Value) (rest : List Value) : Pops rest (popNumber (top :: rest)) := by
  cases top <;> first | rfl | nofun

theorem pops_popBoolean (top : Value) (rest : List Value) :
    Pops rest (popBoolean (top :: rest)) := by
  cases top <;> first | rfl | nofun

theorem pops_popList (top : Value) (rest : List Value) : Pops rest (popList (top :: rest)) := by
  cases top <;> first | rfl | nofun

theorem pops_popSame (top next : Value) (rest : List Value) :
    Pops rest (popSame (top :: next :: rest)) := by
  by_cases same : next.type = top.type
  · simp [popSame, pop, bind, Except.bind, same, Pops, pure, Except.pure]
  · simp [popSame, pop, bind, Except.bind, same, Pops, throw, throwThe, MonadExceptOf.throw]

theorem pops_popMany {count : Nat} {stack : List Value} (enough : count ≤ stack.length) :
    Pops (stack.drop count) (popMany count stack) := by
  rw [popMany, if_pos enough]
  rfl

end Stack

namespace Machine

open Stack

/-- An instruction leaves a number of values above the rest of the stack, or its failure is no lack
of values. -/
def Leaving (gives : Nat) (rest : List Value) : Except Trouble Effect → Prop
  | .ok (.next after) => ∃ values, values.length = gives ∧ after.stack = values ++ rest
  | .ok (.request call after) => call.signature.returns.height = gives ∧ after.stack = rest
  | .ok (.halt _) => False
  | .error trouble => trouble ≠ .fault .underflow

variable {gives : Nat} {rest : List Value}

theorem Leaving.pops {α : Type} {popped : Except Trouble (α × List Value)} {left : List Value}
    {next : α × List Value → Except Trouble Effect} (pops : Pops left popped)
    (leaving : ∀ a, Leaving gives rest (next (a, left))) :
    Leaving gives rest (popped >>= next) := by
  cases popped with
  | error trouble => exact pops
  | ok found =>
    obtain ⟨a, _⟩ := found
    cases pops
    exact leaving a

theorem leaving_jump (m : Machine) (target : Nat) (stack : m.stack = rest) :
    Leaving 0 rest (m.jump target >>= fun landed => .ok (.next landed)) := by
  unfold jump
  split
  · exact ⟨[], rfl, stack⟩
  · nofun

theorem itemPlace_spares (index : Number) (length : Nat) {trouble : Trouble}
    (failed : itemPlace index length = .error trouble) : trouble ≠ .fault .underflow := by
  unfold itemPlace at failed
  split at failed
  · split at failed
    · cases failed
    · cases failed
      nofun
  · cases failed
    nofun

theorem leaving_item {index : Number} {length : Nat} {next : Nat → Except Trouble Effect}
    (leaving : ∀ place, Leaving gives rest (next place)) :
    Leaving gives rest (itemPlace index length >>= next) := by
  cases found : itemPlace index length with
  | error trouble => exact itemPlace_spares index length found
  | ok place => exact leaving place

private theorem exists_cons₂ {stack : List Value} (enough : 2 ≤ stack.length) :
    ∃ top next more, stack = top :: next :: more := by
  match stack, enough with
  | top :: next :: more, _ => exact ⟨top, next, more, rfl⟩

theorem checkArguments_spares {values : List Value} {types : List Ty} {trouble : Trouble}
    (failed : checkArguments values types = .error trouble) : trouble ≠ .fault .underflow := by
  induction values generalizing types with
  | nil => cases failed
  | cons value values ih =>
    cases types with
    | nil => cases failed
    | cons type types =>
      rw [checkArguments] at failed
      split at failed
      · exact ih failed
      · cases failed
        nofun

/-- An instruction with a fixed exchange keeps to it. -/
theorem execute_leaving {hosts : String → Option Signature} {m : Machine} {i : Instruction}
    {takes : Nat} (fixed : i.exchange? = some (takes, gives)) (enough : takes ≤ m.stack.length) :
    Leaving gives (m.stack.drop takes) (m.execute hosts i) := by
  cases i with
  | jump target =>
    cases fixed
    exact leaving_jump m target rfl
  | free slot =>
    cases fixed
    exact ⟨[], rfl, rfl⟩
  | push value =>
    cases fixed
    exact ⟨[value], rfl, rfl⟩
  | load slot =>
    cases fixed
    simp only [execute]
    split
    · rename_i value filled
      exact ⟨[value], rfl, rfl⟩
    · nofun
  | makeList count =>
    cases fixed
    exact .pops (pops_popMany enough) fun items => ⟨[.list items], rfl, rfl⟩
  | jumpIf target =>
    cases fixed
    obtain ⟨top, more, stack⟩ := List.exists_cons_of_length_pos enough
    simp only [execute, stack]
    refine .pops (pops_popBoolean _ _) fun taken => ?_
    cases taken with
    | true => exact leaving_jump _ target rfl
    | false => exact ⟨[], rfl, rfl⟩
  | pop | store slot =>
    cases fixed
    obtain ⟨top, more, stack⟩ := List.exists_cons_of_length_pos enough
    simp only [execute, stack]
    exact .pops (pops_pop _ _) fun _ => ⟨[], rfl, rfl⟩
  | dup =>
    cases fixed
    obtain ⟨top, more, stack⟩ := List.exists_cons_of_length_pos enough
    simp only [execute, stack]
    exact ⟨[top, top], rfl, congrArg (top :: ·) stack⟩
  | invert =>
    cases fixed
    obtain ⟨top, more, stack⟩ := List.exists_cons_of_length_pos enough
    simp only [execute, stack]
    exact .pops (pops_popBoolean _ _) fun _ => ⟨[_], rfl, rfl⟩
  | negate =>
    cases fixed
    obtain ⟨top, more, stack⟩ := List.exists_cons_of_length_pos enough
    simp only [execute, stack]
    exact .pops (pops_popNumber _ _) fun _ => ⟨[_], rfl, rfl⟩
  | convert target =>
    cases fixed
    obtain ⟨top, more, stack⟩ := List.exists_cons_of_length_pos enough
    simp only [execute, stack]
    refine .pops (pops_pop _ _) fun value => ?_
    simp only
    split
    · split
      · exact ⟨[_], rfl, rfl⟩
      · nofun
    · nofun
  | arith op | order op =>
    cases fixed
    obtain ⟨top, next, more, stack⟩ := exists_cons₂ enough
    simp only [execute, stack]
    exact .pops (pops_popNumber _ _) fun _ => .pops (pops_popNumber _ _) fun _ => ⟨[_], rfl, rfl⟩
  | equal | notEqual =>
    cases fixed
    obtain ⟨top, next, more, stack⟩ := exists_cons₂ enough
    simp only [execute, stack]
    exact .pops (pops_popSame _ _ _) fun _ => ⟨[_], rfl, rfl⟩
  | getItem type =>
    cases fixed
    obtain ⟨top, next, more, stack⟩ := exists_cons₂ enough
    simp only [execute, stack]
    refine .pops (pops_popNumber _ _) fun index => .pops (pops_popList _ _) fun items => ?_
    refine leaving_item fun place => ?_
    simp only
    split
    · exact ⟨[_], rfl, rfl⟩
    · nofun
  | setItem =>
    cases fixed
    obtain ⟨top, more, stack⟩ :=
      List.exists_cons_of_length_pos (Nat.lt_of_lt_of_le (by decide) enough)
    have enough : 2 ≤ more.length := by simpa [stack] using enough
    obtain ⟨next, last, more, rfl⟩ := exists_cons₂ enough
    simp only [execute, stack]
    refine .pops (pops_pop _ _) fun value => .pops (pops_popNumber _ _) fun index => ?_
    exact .pops (pops_popList _ _) fun items => leaving_item fun place => ⟨[_], rfl, rfl⟩
  | call _ | callHost _ | ret => cases fixed

/-- A call of the host takes its arguments. -/
theorem callHost_leaving {hosts : String → Option Signature} {m : Machine} {name : String}
    {signature : Signature} (known : hosts name = some signature)
    (enough : signature.params.length ≤ m.stack.length) :
    Leaving signature.returns.height (m.stack.drop signature.params.length)
      (m.execute hosts (.callHost name)) := by
  simp only [execute, known]
  refine .pops (pops_popMany enough) fun given => ?_
  cases checked : checkArguments given signature.params with
  | error trouble => exact checkArguments_spares checked
  | ok => exact ⟨rfl, rfl⟩

/-- The reply is put on the stack. -/
theorem resume_stack {waiting next : Machine} {call : HostCall} {reply : HostReply}
    (resumed : waiting.resume call reply = .running next) :
    ∃ values : List Value, values.length = call.signature.returns.height ∧
      next.stack = values ++ waiting.stack := by
  unfold resume at resumed
  cases reply with
  | error reason => cases resumed
  | ok answer =>
    by_cases silent : call.signature.returns = .void
    · simp only [if_pos silent] at resumed
      cases resumed
      exact ⟨[], by rw [silent]; rfl, rfl⟩
    · simp only [if_neg silent] at resumed
      cases answer with
      | none => cases resumed
      | some value =>
        by_cases same : value.type = call.signature.returns
        · simp only [if_pos same] at resumed
          cases resumed
          exact ⟨[value], by rw [Ty.height_of_ne_void silent]; rfl, rfl⟩
        · simp only [if_neg same] at resumed
          cases resumed

end Machine

variable {σ : Type}

/-- The trade of a routine: procedures and the host take and give what their signatures say. -/
def Layout.trade (l : Layout) (hosts : HostTable (StateM σ)) (back : Nat) : Trade where
  procedures address takes gives := ∃ p code, l.holds p code ∧ p.Callable ∧ p.address = address ∧
    p.params.length = takes ∧ p.returns.height = gives
  hosts name takes gives := ∃ signature, hosts.signature? name = some signature ∧
    signature.params.length = takes ∧ signature.returns.height = gives
  back

namespace Layout

variable {l : Layout} {hosts : HostTable (StateM σ)} {back takes gives : Nat} {i : Instruction}

/-- An instruction other than a call of a procedure keeps to its exchange. -/
theorem execute_moves {m : Machine} (moves : (l.trade hosts back).Moves i takes gives)
    (stays : i.isCall = false) (enough : takes ≤ m.stack.length) :
    Machine.Leaving gives (m.stack.drop takes) (m.execute hosts.signature? i) := by
  cases moves with
  | plain fixed => exact Machine.execute_leaving fixed enough
  | call => cases stays
  | host known =>
    obtain ⟨signature, known, rfl, rfl⟩ := known
    exact Machine.callHost_leaving known enough

theorem turn_moves {m next : Machine} {w w' : σ} {behind : Nat}
    (turns : m.turn hosts w = (.inl next, w')) (decoded : m.code.decodeAt m.ip = .ok (i, behind))
    (moves : (l.trade hosts back).Moves i takes gives) (stays : i.isCall = false)
    (enough : takes ≤ m.stack.length) :
    ∃ values : List Value, values.length = gives ∧ next.stack = values ++ m.stack.drop takes := by
  obtain ⟨j, behind', read, done⟩ := Machine.turn_execute turns
  rw [decoded] at read
  cases read
  have leaving := execute_moves
    (m := { m with ip := behind, steps := m.steps + 1 }) moves stays enough
  rcases done with done | ⟨call, waiting, reply, resumed, done⟩
  · rw [done] at leaving
    exact leaving
  · rw [done] at leaving
    obtain ⟨rfl, rest⟩ := leaving
    obtain ⟨values, count, stack⟩ := Machine.resume_stack resumed
    exact ⟨values, count, rest ▸ stack⟩

/-- Calls and returns leave the stack as it is. -/
theorem turn_stack {m next : Machine} {w w' : σ} {behind : Nat}
    (turns : m.turn hosts w = (.inl next, w')) (decoded : m.code.decodeAt m.ip = .ok (i, behind))
    (leaves : i.isCall ∨ i = .ret) : next.stack = m.stack := by
  obtain ⟨j, behind', read, done⟩ := Machine.turn_execute turns
  rw [decoded] at read
  cases read
  cases i with
  | call target =>
    simp only [Machine.execute] at done
    split at done
    · rcases done with done | ⟨_, _, _, _, done⟩ <;> cases done
    · rcases done with done | ⟨_, _, _, _, done⟩
      · obtain ⟨landed, jumped, last⟩ := Machine.bind_eq_ok.mp done
        cases last
        rw [Machine.jump_ok jumped]
      · obtain ⟨landed, jumped, last⟩ := Machine.bind_eq_ok.mp done
        cases last
  | ret =>
    simp only [Machine.execute] at done
    split at done
    · rcases done with done | ⟨_, _, _, _, done⟩ <;> cases done
    · split at done
      · rcases done with done | ⟨_, _, _, _, done⟩
        · cases done
          rfl
        · cases done
      · rcases done with done | ⟨_, _, _, _, done⟩ <;> cases done
  | _ => simp [Instruction.isCall] at leaves

/-- What a routine finds below its own values, and how many of these it returns with. -/
def Floor (l : Layout) (ground : List Value) (r : Routine) :
    List Machine → List Value → Nat → Prop
  | [], floor, back => floor = ground ∧ back = 0
  | caller :: _, floor, back => ∃ p, l.holds p r.code ∧ p.address = r.base ∧
      p.params.length ≤ caller.stack.length ∧ floor = caller.stack.drop p.params.length ∧
      back = p.returns.height

/-- The stack is as high above the floor as is noted. -/
def Level (l : Layout) (hosts : HostTable (StateM σ)) (ground : List Value) : Claim :=
  fun r callers m => ∃ (floor values : List Value) (back : Nat) (note : Nat → Nat) (offset : Nat),
    l.Floor ground r callers floor back ∧ r.code.Marks (l.trade hosts back).heights note 0 ∧
      m.ip = r.base + offset ∧ m.stack = values ++ floor ∧ values.length = note offset

/-- Procedures are told apart by their addresses, and the code of those that can be called is
annotated with heights. -/
structure Levelled (l : Layout) (hosts : HostTable (StateM σ)) : Prop where
  unique : ∀ p p' code code', l.holds p code → l.holds p' code' → p.address = p'.address → p = p'
  annotated : ∀ p code, l.holds p code → p.Callable →
    ∃ note, note 0 = p.params.length ∧ code.Marks (l.trade hosts p.returns.height).heights note 0

/-- The values above the floor after an exchange. -/
theorem exchanged {values floor stack given : List Value} {note after : Nat}
    (count : values.length = note) (enough : takes ≤ note) (sum : after + takes = note + gives)
    (traded : given.length = gives) (left : stack = given ++ (values ++ floor).drop takes) :
    ∃ others : List Value, stack = others ++ floor ∧ others.length = after := by
  refine ⟨given ++ values.drop takes, ?_, ?_⟩
  · rw [left, List.drop_append_of_le_length (by omega), List.append_assoc]
  · rw [List.length_append, List.length_drop]
    omega

/-- A procedure that is called can be called, and its call takes and gives what it should. -/
theorem Levelled.called (levelled : l.Levelled hosts) {p : Procedure} {code : Fragment}
    (held : l.holds p code) (moves : (l.trade hosts back).Moves (.call p.address) takes gives) :
    p.Callable ∧ p.params.length = takes ∧ p.returns.height = gives := by
  cases moves with
  | plain fixed => cases fixed
  | call known =>
    obtain ⟨p', code', held', callable, same, takes, gives⟩ := known
    obtain rfl := levelled.unique _ _ _ _ held held' same.symm
    exact ⟨callable, takes, gives⟩

theorem Levelled.keeps (levelled : l.Levelled hosts) (ground : List Value) :
    Keeps hosts l (l.Level hosts ground) := by
  constructor
  · rintro r offset i m next callers after place stays lands leads
      ⟨floor, values, back, note, offset', below, marks, here, stack, count⟩
    obtain rfl : offset = offset' := Nat.add_left_cancel (place.here.symm.trans here)
    obtain ⟨w, w', turns⟩ := place.turns
    have notes := marks offset i place.found
    rw [Nat.zero_add] at notes
    have changes : (l.trade hosts back).heights.changes i (note offset) (note after) := by
      rcases leads with ⟨goesOn, rfl⟩ | jumps
      · exact notes.next goesOn
      · exact notes.jump after jumps
    obtain ⟨takes, gives, moves, enough, sum⟩ := changes
    obtain ⟨given, traded, left⟩ := turn_moves turns place.decoded (moves.shift r.base)
      ((isCall_shift i r.base).trans stays) (by rw [stack, List.length_append]; omega)
    rw [stack] at left
    obtain ⟨others, stack', count'⟩ := exchanged count enough sum traded left
    exact ⟨floor, others, back, note, after, below, marks, lands, stack', count'⟩
  · rintro r offset m next callers p code place held
      ⟨floor, values, back, note, offset', below, marks, here, stack, count⟩
    obtain rfl : offset = offset' := Nat.add_left_cancel (place.here.symm.trans here)
    obtain ⟨w, w', turns⟩ := place.turns
    have notes := marks offset _ place.found
    rw [Nat.zero_add] at notes
    obtain ⟨takes, gives, moves, enough, sum⟩ := notes.next rfl
    obtain ⟨callable, rfl, -⟩ := levelled.called held moves
    obtain ⟨inner, start, marks'⟩ := levelled.annotated p code held callable
    have within : p.params.length ≤ m.stack.length := by
      rw [stack, List.length_append]
      omega
    refine ⟨m.stack.drop p.params.length, m.stack.take p.params.length, _, inner, 0,
      ⟨p, held, rfl, within, rfl, rfl⟩, marks', place.called, ?_, ?_⟩
    · rw [List.take_append_drop]
      exact turn_stack turns place.decoded (.inl rfl)
    · rw [List.length_take, start]
      omega
  · rintro r offset s callers p code offset' m next member here found held
      ⟨floor, values, back, note, offset₁, below, marks, here₁, stack, count⟩ place lands
      ⟨floor', values', back', note', offset₂, below', marks', here₂, stack', count'⟩
    obtain rfl : offset = offset₁ := Nat.add_left_cancel (here.symm.trans here₁)
    obtain rfl : offset' = offset₂ := Nat.add_left_cancel (place.here.symm.trans here₂)
    obtain ⟨p', held', same, -, rfl, rfl⟩ := below'
    obtain rfl := levelled.unique _ _ _ _ held' held same
    have notes := marks offset _ found
    have returned := (marks' offset' _ place.found).ret rfl
    rw [Nat.zero_add] at notes returned
    obtain ⟨takes, gives, moves, enough, sum⟩ := notes.next rfl
    obtain ⟨-, rfl, rfl⟩ := levelled.called held moves
    obtain ⟨w, w', turns⟩ := place.turns
    have left := turn_stack turns place.decoded (.inr rfl)
    rw [stack', stack] at left
    obtain ⟨others, stack₁, count₁⟩ := exchanged count enough sum (count'.trans returned) left
    exact ⟨floor, others, back, note, _, below, marks, lands, stack₁, count₁⟩

/-- At a return the stack is as high above the floor as it should be. -/
theorem Level.at_ret {ground : List Value} {r : Routine} {callers : List Machine} {m : Machine}
    {offset : Nat} (level : l.Level hosts ground r callers m) (here : m.ip = r.base + offset)
    (found : r.code.at? offset = some .ret) :
    ∃ floor values back, l.Floor ground r callers floor back ∧ m.stack = values ++ floor ∧
      values.length = back := by
  obtain ⟨floor, values, back, note, offset', below, marks, here', stack, count⟩ := level
  obtain rfl : offset = offset' := Nat.add_left_cancel (here.symm.trans here')
  have returned := (marks offset _ found).ret rfl
  rw [Nat.zero_add] at returned
  exact ⟨floor, values, back, below, stack, count.trans returned⟩

/-- Nothing is taken off an empty stack. -/
theorem Level.spares {ground : List Value} {r : Routine} {callers : List Machine} {m : Machine}
    {offset behind : Nat} (level : l.Level hosts ground r callers m) (here : m.ip = r.base + offset)
    (found : r.code.at? offset = some i) :
    Machine.execute hosts.signature? { m with ip := behind, steps := m.steps + 1 }
      (i.shift r.base) ≠ .error (.fault .underflow) := by
  obtain ⟨floor, values, back, note, offset', below, marks, here', stack, count⟩ := level
  obtain rfl : offset = offset' := Nat.add_left_cancel (here.symm.trans here')
  have notes := marks offset i found
  rw [Nat.zero_add] at notes
  intro failed
  have moving : ∀ after, (l.trade hosts back).heights.changes i (note offset) after →
      i.isCall = false → False := by
    rintro after ⟨takes, gives, moves, enough, -⟩ stays
    have leaving := execute_moves (m := { m with ip := behind, steps := m.steps + 1 })
      (moves.shift r.base) ((isCall_shift i r.base).trans stays) (by
        show takes ≤ m.stack.length
        rw [stack, List.length_append]
        omega)
    rw [failed] at leaving
    exact leaving rfl
  cases i with
  | call target =>
    simp only [Instruction.shift, Machine.execute] at failed
    split at failed
    · cases failed
    · unfold Machine.jump at failed
      split at failed <;> cases failed
  | ret =>
    simp only [Instruction.shift, Machine.execute] at failed
    split at failed
    · cases failed
    · split at failed <;> cases failed
  | jump target => exact moving _ (notes.jump target rfl) rfl
  | _ => exact moving _ (notes.next rfl) rfl

end Layout

end Primer
