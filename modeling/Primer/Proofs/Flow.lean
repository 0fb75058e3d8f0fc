import Primer.Proofs.Layout

/-!
Control flow inside a fragment. The instructions other than jumps are the same wherever the code
stands; where control can go from the start of the code follows the jumps. Code whose end cannot be
reached gives control away by a return on every path.
-/

set_option autoImplicit false
set_option relaxedAutoImplicit false

namespace Primer

/-- Control goes on behind the instruction. Behind a call it does when the call is over. -/
def Instruction.goesOn : Instruction → Bool
  | jump _ | ret => false
  | _ => true

theorem Instruction.goesOn_shift (distance : Nat) (i : Instruction) :
    (i.shift distance).goesOn = i.goesOn := by
  cases i <;> rfl

/-- The instruction enters a procedure. -/
def Instruction.isCall : Instruction → Bool
  | call _ => true
  | _ => false

theorem Instruction.eq_call {i : Instruction} {address : Nat} (isCall : i.isCall)
    (leads : i.target? = some address) : i = .call address := by
  cases i with
  | call target => rw [show target = address from Option.some.inj leads]
  | _ => cases isCall

theorem Instruction.eq_ret {i : Instruction} (stops : i.goesOn = false)
    (straight : i.jump? = none) : i = .ret := by
  cases i with
  | ret => rfl
  | jump | jumpIf => cases straight
  | _ => cases stops

namespace Fragment

/-- The instructions other than jumps, which stay the same when code is moved. -/
def plain (code : Fragment) : List Instruction := code.filter fun i => i.jump?.isNone

@[simp] theorem plain_nil : plain [] = [] := rfl

@[simp] theorem plain_append (first second : Fragment) :
    plain (first ++ second) = plain first ++ plain second :=
  List.filter_append _ _

@[simp] theorem plain_shift (code : Fragment) (distance : Nat) :
    plain (code.shift distance) = plain code := by
  induction code with
  | nil => rfl
  | cons i code ih =>
    cases i <;> simp [plain, Instruction.shift, Instruction.jump?] at ih ⊢ <;> exact ih

theorem plain_cons (i : Instruction) (code : Fragment) :
    plain (i :: code) = if i.jump?.isNone then i :: plain code else plain code :=
  List.filter_cons

theorem mem_plain {code : Fragment} {i : Instruction} :
    i ∈ plain code ↔ i ∈ code ∧ i.jump? = none := by
  simp [plain]

@[simp] theorem plain_sequence (parts : List Fragment) :
    plain (sequence parts) = parts.flatMap plain := by
  induction parts with
  | nil => rfl
  | cons part more ih => rw [sequence_cons, plain_append, plain_shift, ih, List.flatMap_cons]

@[simp] theorem plain_unlessGoTo (condition : Fragment) (target : Nat) :
    plain (unlessGoTo condition target) = plain condition ++ [Instruction.invert] := by
  simp [unlessGoTo, plain_cons, Instruction.jump?]

theorem plain_shortCircuit (op : Logic) (left right : Fragment) :
    plain (shortCircuit op left right) =
      plain left ++ (if op = .and then [Instruction.invert] else []) ++ plain right ++
        [Instruction.push (.boolean (op = .or))] := by
  cases op <;> simp [shortCircuit, plain_cons, Instruction.jump?]

theorem plain_conditional (condition body : Fragment) :
    plain (conditional condition body) = plain condition ++ [Instruction.invert] ++ plain body := by
  rw [conditional, plain_append, plain_unlessGoTo, plain_shift]

theorem plain_alternative (condition body otherwise : Fragment) :
    plain (alternative condition body otherwise) =
      plain condition ++ [Instruction.invert] ++ plain body ++ plain otherwise := by
  simp [alternative, plain_cons, Instruction.jump?]

theorem plain_whileLoop (condition body : Fragment) :
    plain (whileLoop condition body) = plain condition ++ [Instruction.invert] ++ plain body := by
  simp [whileLoop, plain_cons, Instruction.jump?]

theorem plain_countedLoop (count : Fragment) (threshold counter : UInt8) (body : Fragment) :
    plain (countedLoop count threshold counter body) =
      plain count ++ [Instruction.dup, .push (.number .zero), .order .lessEq, .store threshold,
        .push (.number .zero), .store counter] ++ plain body ++
      [Instruction.load counter, .push (.number .one), .arith .add, .dup, .store counter,
        .load threshold, .order .less, .pop] := by
  simp [countedLoop, plain_cons, Instruction.jump?]

/-- The instruction that starts at an offset. -/
def at? : Fragment → Nat → Option Instruction
  | [], _ => none
  | i :: rest, offset =>
    if offset = 0 then some i
    else if offset < i.size then none
    else at? rest (offset - i.size)

theorem at?_append_left {first : Fragment} {offset : Nat} (inside : offset < size first)
    (second : Fragment) : at? (first ++ second) offset = at? first offset := by
  induction first generalizing offset with
  | nil => simp at inside
  | cons i first ih =>
    rw [List.cons_append, at?, at?]
    by_cases start : offset = 0
    · simp [start]
    by_cases within : offset < i.size
    · simp [start, within]
    · simp only [start, within, if_false]
      apply ih
      rw [size_cons] at inside
      omega

theorem at?_append_right (first second : Fragment) (offset : Nat) :
    at? (first ++ second) (size first + offset) = at? second offset := by
  induction first with
  | nil => simp
  | cons i first ih =>
    have positive := i.size_pos
    rw [List.cons_append, at?, size_cons, if_neg (by omega), if_neg (by omega),
      show i.size + size first + offset - i.size = size first + offset by omega, ih]

theorem at?_append_beyond {first second : Fragment} {offset rest : Nat}
    (sum : size first + rest = offset) : at? (first ++ second) offset = at? second rest :=
  sum ▸ at?_append_right first second rest

theorem at?_shift (code : Fragment) (distance offset : Nat) :
    at? (shift code distance) offset = (at? code offset).map (Instruction.shift distance) := by
  induction code generalizing offset with
  | nil => rfl
  | cons i code ih =>
    rw [shift_cons, at?, at?, Instruction.size_shift]
    by_cases start : offset = 0
    · simp [start]
    by_cases within : offset < i.size
    · simp [start, within]
    · simp only [start, within, if_false, ih]

/-- The instruction at an offset stands behind code of that size. -/
theorem eq_append_of_at? {code : Fragment} {offset : Nat} {i : Instruction}
    (found : at? code offset = some i) :
    ∃ before after, code = before ++ i :: after ∧ size before = offset := by
  induction code generalizing offset with
  | nil => cases found
  | cons first rest ih =>
    rw [at?] at found
    by_cases start : offset = 0
    · rw [if_pos start, Option.some.injEq] at found
      subst found start
      exact ⟨[], rest, rfl, rfl⟩
    · rw [if_neg start] at found
      by_cases within : offset < first.size
      · rw [if_pos within] at found
        cases found
      · rw [if_neg within] at found
        obtain ⟨before, after, rfl, sized⟩ := ih found
        refine ⟨first :: before, after, rfl, ?_⟩
        rw [size_cons]
        omega

theorem lt_size_of_at? {code : Fragment} {offset : Nat} {i : Instruction}
    (found : at? code offset = some i) : offset + i.size ≤ size code := by
  obtain ⟨before, after, rfl, rfl⟩ := eq_append_of_at? found
  rw [size_append, size_cons]
  omega

theorem mem_of_at? {code : Fragment} {offset : Nat} {i : Instruction}
    (found : at? code offset = some i) : i ∈ code := by
  obtain ⟨before, after, rfl, -⟩ := eq_append_of_at? found
  exact List.mem_append_right _ List.mem_cons_self

/-- Where control can be, counted from the start of the code. -/
inductive Reach (code : Fragment) : Nat → Prop
  | start : Reach code 0
  | next {offset : Nat} {i : Instruction} (here : Reach code offset)
      (found : at? code offset = some i) (goesOn : i.goesOn) : Reach code (offset + i.size)
  | jump {offset target : Nat} {i : Instruction} (here : Reach code offset)
      (found : at? code offset = some i) (jumps : i.jump? = some target) : Reach code target

/-- Control can come to the end of the code. -/
def Exits (code : Fragment) : Prop := Reach code (size code)

theorem Boundary.next {code : Fragment} {offset : Nat} {i : Instruction}
    (found : at? code offset = some i) : Boundary code (offset + i.size) := by
  obtain ⟨before, after, rfl, rfl⟩ := eq_append_of_at? found
  exact ⟨before ++ [i], after, by simp, by simp⟩

/-- Control goes from one offset to another by the instruction that stands there. -/
def Flows (code : Fragment) (offset target : Nat) : Prop :=
  ∃ i, at? code offset = some i ∧ (i.goesOn ∧ target = offset + i.size ∨ i.jump? = some target)

theorem Reach.flows {code : Fragment} {offset target : Nat} (here : Reach code offset)
    (flows : Flows code offset target) : Reach code target := by
  obtain ⟨i, found, ⟨goesOn, rfl⟩ | jumps⟩ := flows
  · exact here.next found goesOn
  · exact here.jump found jumps

/-- What holds at the start and along the flow holds wherever control comes to. -/
@[elab_as_elim]
theorem Reach.along {code : Fragment} {motive : ∀ offset, Reach code offset → Prop}
    (start : motive 0 .start)
    (flows : ∀ {offset target} (here : Reach code offset) (flow : Flows code offset target),
      motive offset here → motive target (here.flows flow))
    {offset : Nat} (reach : Reach code offset) : motive offset reach := by
  induction reach with
  | start => exact start
  | next here found goesOn ih => exact flows here ⟨_, found, .inl ⟨goesOn, rfl⟩⟩ ih
  | jump here found jumps ih => exact flows here ⟨_, found, .inr jumps⟩ ih

theorem Flows.boundary {code : Fragment} {offset target : Nat} (flows : Flows code offset target)
    (closed : Closed code) : Boundary code target := by
  obtain ⟨i, found, ⟨-, rfl⟩ | jumps⟩ := flows
  · exact .next found
  · exact closed i (mem_of_at? found) target jumps

/-- Control stays at the boundaries of closed code. -/
theorem Reach.boundary {code : Fragment} {offset : Nat} (closed : Closed code)
    (reach : Reach code offset) : Boundary code offset := by
  induction reach using Reach.along with
  | start => exact boundary_zero code
  | flows _ flow => exact flow.boundary closed

/-- Control that does not come out of closed code stays in front of its end. -/
theorem Reach.lt_size {code : Fragment} {offset : Nat} (reach : Reach code offset)
    (closed : Closed code) (kept : ¬Exits code) : offset < size code := by
  refine Nat.lt_of_le_of_ne (reach.boundary closed).le_size ?_
  rintro rfl
  exact kept reach

theorem at?_shift_eq_some {code : Fragment} {distance offset : Nat} {i : Instruction}
    (found : at? (shift code distance) offset = some i) :
    ∃ inner, at? code offset = some inner ∧ i = inner.shift distance := by
  rw [at?_shift, Option.map_eq_some_iff] at found
  obtain ⟨inner, there, rfl⟩ := found
  exact ⟨inner, there, rfl⟩

/-- Where moved code stands in other code, control flows as in that code. -/
theorem Flows.of_shift {whole code : Fragment} {start offset target : Nat}
    (same : at? whole (start + offset) = (at? code offset).map (Instruction.shift start))
    (flows : Flows whole (start + offset) target) :
    ∃ rest, target = start + rest ∧ Flows code offset rest := by
  obtain ⟨i, found, flows⟩ := flows
  rw [same, Option.map_eq_some_iff] at found
  obtain ⟨inner, there, rfl⟩ := found
  rw [Instruction.goesOn_shift, Instruction.size_shift, Instruction.jump?_shift,
    Option.map_eq_some_iff] at flows
  rcases flows with ⟨goesOn, rfl⟩ | ⟨rest, jumps, rfl⟩
  · exact ⟨offset + inner.size, Nat.add_assoc _ _ _, inner, there, .inl ⟨goesOn, rfl⟩⟩
  · exact ⟨rest, Nat.add_comm _ _, inner, there, .inr jumps⟩

/-- Control reaches the second of two pieces only through the end of the first. -/
theorem Reach.of_append {first second : Fragment} {offset : Nat} (closed : Closed first)
    (reach : Reach (first ++ shift second (size first)) offset) :
    (Reach first offset ∧ offset < size first) ∨
      (Exits first ∧ ∃ rest, offset = size first + rest ∧ Reach second rest) := by
  have arrive : ∀ {k}, Reach first k → (Reach first k ∧ k < size first) ∨
      (Exits first ∧ ∃ rest, k = size first + rest ∧ Reach second rest) := by
    intro k reached
    rcases Nat.lt_or_eq_of_le (reached.boundary closed).le_size with inside | rfl
    · exact .inl ⟨reached, inside⟩
    · exact .inr ⟨reached, 0, rfl, .start⟩
  induction reach using Reach.along with
  | start => exact arrive .start
  | flows _ flow ih =>
    rcases ih with ⟨reached, inside⟩ | ⟨exits, rest, rfl, reached⟩
    · rw [Flows, at?_append_left inside] at flow
      exact arrive (reached.flows flow)
    · have same : at? (first ++ shift second (size first)) (size first + rest) =
          (at? second rest).map (Instruction.shift (size first)) := by
        rw [at?_append_right, at?_shift]
      obtain ⟨next, rfl, inner⟩ := flow.of_shift same
      exact .inr ⟨exits, next, rfl, reached.flows inner⟩

theorem Exits.of_append {first second : Fragment} (closed : Closed first)
    (exits : Exits (first ++ shift second (size first))) : Exits first ∧ Exits second := by
  unfold Exits at exits
  rw [size_append, size_shift] at exits
  rcases Reach.of_append closed exits with ⟨_, inside⟩ | ⟨through, rest, same, reached⟩
  · omega
  · rw [show rest = size second by omega] at reached
    exact ⟨through, reached⟩

/-- Code without jumps is the same everywhere. -/
theorem shift_straight {code : Fragment} (straight : Straight code) (distance : Nat) :
    shift code distance = code := by
  refine (List.map_congr_left fun i member => ?_).trans (List.map_id code)
  have noJump := straight i member
  cases i <;> first | rfl | cases noJump

theorem Exits.of_append_straight {first second : Fragment} (closed : Closed first)
    (straight : Straight second) (exits : Exits (first ++ second)) :
    Exits first ∧ Exits second := by
  rw [← shift_straight straight (size first)] at exits
  exact exits.of_append closed

theorem not_exits_ret : ¬Exits [.ret] := by
  have only : ∀ {offset}, Reach [.ret] offset → offset = 0 := by
    intro offset reach
    induction reach using Reach.along with
    | start => rfl
    | flows _ flow ih =>
      subst ih
      obtain ⟨i, found, ⟨goesOn, -⟩ | jumps⟩ := flow
      · cases found
        cases goesOn
      · cases found
        cases jumps
  intro exits
  exact absurd (only exits) (by simp [Instruction.size, Instruction.write])

/-- The instructions of the condition and the two that follow it. -/
theorem at?_unlessGoTo {condition : Fragment} {target offset : Nat} {i : Instruction}
    (found : at? (unlessGoTo condition target) offset = some i) :
    (offset < size condition ∧ at? condition offset = some i) ∨
      (offset = size condition ∧ i = .invert) ∨
      (offset + jumpSize = guardSize condition ∧ i = .jumpIf target) := by
  by_cases inside : offset < size condition
  · rw [unlessGoTo, at?_append_left inside] at found
    exact .inl ⟨inside, found⟩
  · obtain ⟨rest, rfl⟩ : ∃ rest, offset = size condition + rest :=
      ⟨offset - size condition, by omega⟩
    rw [unlessGoTo, at?_append_right, at?, at?, at?] at found
    have one : Instruction.invert.size = 1 := rfl
    right
    by_cases first : rest = 0
    · rw [if_pos first, Option.some.injEq] at found
      exact .inl ⟨by omega, found.symm⟩
    · rw [if_neg first, if_neg (by omega)] at found
      by_cases second : rest - Instruction.invert.size = 0
      · rw [if_pos second, Option.some.injEq] at found
        refine .inr ⟨?_, found.symm⟩
        simp only [guardSize, size_cons, size_nil]
        omega
      · rw [if_neg second] at found
        split at found <;> cases found

section Alternative

variable (condition body otherwise : Fragment)

theorem at?_alternative_guard {offset : Nat} (inside : offset < guardSize condition) :
    at? (alternative condition body otherwise) offset =
      at? (unlessGoTo condition (guardSize condition + size body + jumpSize)) offset := by
  simp only [alternative, List.append_assoc]
  exact at?_append_left (by rwa [size_unlessGoTo]) _

theorem at?_alternative_body {offset : Nat} (inside : offset < size body) :
    at? (alternative condition body otherwise) (guardSize condition + offset) =
      (at? body offset).map (Instruction.shift (guardSize condition)) := by
  simp only [alternative, List.append_assoc]
  rw [at?_append_beyond (congrArg (· + offset) (size_unlessGoTo condition _)),
    at?_append_left (by rwa [size_shift]), at?_shift]

theorem at?_alternative_other (offset : Nat) :
    at? (alternative condition body otherwise)
        (guardSize condition + size body + jumpSize + offset) =
      (at? otherwise offset).map
        (Instruction.shift (guardSize condition + size body + jumpSize)) := by
  rw [← at?_shift, alternative]
  apply at?_append_beyond
  simp
  omega

/-- From the guard of an alternative control goes on in the guard, or to the start of either
body. -/
theorem flows_alternative_guard (test : Closed condition) {offset target : Nat}
    (inside : offset < guardSize condition)
    (flows : Flows (alternative condition body otherwise) offset target) :
    target < guardSize condition ∨ target = guardSize condition ∨
      target = guardSize condition + size body + jumpSize := by
  have guarded : size condition + 1 + jumpSize = guardSize condition := rfl
  have long := jumpSize_eq
  obtain ⟨i, found, flows⟩ := flows
  rw [at?_alternative_guard condition body otherwise inside] at found
  rcases at?_unlessGoTo found with ⟨-, there⟩ | ⟨rfl, rfl⟩ | ⟨atJump, rfl⟩
  · have := (Flows.boundary ⟨i, there, flows⟩ test).le_size
    exact .inl (by omega)
  · rcases flows with ⟨-, rfl⟩ | ⟨⟨⟩⟩
    have one : Instruction.invert.size = 1 := rfl
    exact .inl (by omega)
  · rcases flows with ⟨-, rfl⟩ | jumps
    · exact .inr (.inl atJump)
    · cases jumps
      exact .inr (.inr rfl)

end Alternative

/-- Control stays in the guard of an alternative and in what it reaches of either body, when it does
not come out of the first one. -/
theorem Reach.of_alternative {condition body otherwise : Fragment} {offset : Nat}
    (test : Closed condition) (first : Closed body) (bodyReturns : ¬Exits body)
    (reach : Reach (alternative condition body otherwise) offset) :
    offset < guardSize condition ∨
      (∃ rest, offset = guardSize condition + rest ∧ Reach body rest) ∨
      ∃ rest, offset = guardSize condition + size body + jumpSize + rest ∧
      Reach otherwise rest := by
  induction reach using Reach.along with
  | start =>
    left
    have positive := jumpSize_eq
    rw [guardSize]
    omega
  | flows _ flow ih =>
    rcases ih with inside | ⟨rest, rfl, reached⟩ | ⟨rest, rfl, reached⟩
    · rcases flows_alternative_guard condition body otherwise test inside flow with
        within | rfl | rfl
      · exact .inl within
      · exact .inr (.inl ⟨0, rfl, .start⟩)
      · exact .inr (.inr ⟨0, rfl, .start⟩)
    · obtain ⟨next, rfl, inner⟩ := flow.of_shift
        (at?_alternative_body condition body otherwise (reached.lt_size first bodyReturns))
      exact .inr (.inl ⟨next, rfl, reached.flows inner⟩)
    · obtain ⟨next, rfl, inner⟩ :=
        flow.of_shift (at?_alternative_other condition body otherwise rest)
      exact .inr (.inr ⟨next, rfl, reached.flows inner⟩)

/-- Control does not come out of an alternative when it comes out of neither body. -/
theorem not_exits_alternative {condition body otherwise : Fragment} (test : Closed condition)
    (first : Closed body) (second : Closed otherwise) (bodyReturns : ¬Exits body)
    (otherReturns : ¬Exits otherwise) : ¬Exits (alternative condition body otherwise) := by
  intro exits
  have whole : size (alternative condition body otherwise) =
      guardSize condition + size body + jumpSize + size otherwise := by
    simp [alternative]
    omega
  rw [Exits, whole] at exits
  have positive := jumpSize_eq
  rcases exits.of_alternative test first bodyReturns with
    inside | ⟨rest, same, reached⟩ | ⟨rest, same, reached⟩
  · omega
  · have := reached.lt_size first bodyReturns
    omega
  · have := reached.lt_size second otherReturns
    omega

end Fragment

end Primer
