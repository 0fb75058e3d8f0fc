import Primer.Fragment
import Primer.Verification
import Primer.Proofs.RoundTrip

/-!
Where instructions stand. A fragment can be cut at its boundaries; shifting it moves the targets of
its jumps and nothing else, so a part of a fragment keeps its size and its boundaries. A buffer
that consists of encoded instructions is walked through exactly these instructions.
-/

set_option autoImplicit false
set_option relaxedAutoImplicit false

namespace Primer

namespace Instruction

/-- The target of a jump of either kind, which moves with the code. -/
def jump? : Instruction → Option Nat
  | jump target | jumpIf target => some target
  | _ => none

theorem size_pos (i : Instruction) : 0 < i.size := by
  simp [size, write]

@[simp] theorem size_jump (target : Nat) : (jump target).size = Fragment.jumpSize := rfl

@[simp] theorem size_jumpIf (target : Nat) : (jumpIf target).size = Fragment.jumpSize := rfl

@[simp] theorem size_shift (distance : Nat) (i : Instruction) :
    (i.shift distance).size = i.size := by
  cases i <;> simp [shift, size, write, writeOperand]

@[simp] theorem check_shift (distance : Nat) (i : Instruction) :
    (i.shift distance).check = i.check := by
  cases i <;> rfl

theorem jump?_shift (distance : Nat) (i : Instruction) :
    (i.shift distance).jump? = i.jump?.map (· + distance) := by
  cases i <;> rfl

theorem shift_shift (first second : Nat) (i : Instruction) :
    (i.shift first).shift second = i.shift (first + second) := by
  cases i <;> simp [shift, Nat.add_assoc]

theorem shift_zero (i : Instruction) : i.shift 0 = i := by
  cases i <;> rfl

theorem shift_of_straight {distance : Nat} {i : Instruction} (straight : i.jump? = none) :
    i.shift distance = i := by
  cases i <;> simp_all [jump?, shift]

theorem target?_of_jump? {i : Instruction} {target : Nat} (jumps : i.jump? = some target) :
    i.target? = some target := by
  cases i <;> simp_all [jump?, target?]

theorem jump?_or_call {i : Instruction} {target : Nat} (found : i.target? = some target) :
    i.jump? = some target ∨ i = .call target := by
  cases i <;> simp_all [jump?, target?]

end Instruction

namespace Fragment

@[simp] theorem size_nil : size [] = 0 := rfl

@[simp] theorem size_cons (i : Instruction) (code : Fragment) :
    size (i :: code) = i.size + size code := rfl

@[simp] theorem size_append (first second : Fragment) :
    size (first ++ second) = size first + size second := by
  induction first with
  | nil => simp
  | cons i first ih => simp [ih, Nat.add_assoc]

@[simp] theorem size_shift (code : Fragment) (distance : Nat) :
    size (code.shift distance) = size code := by
  induction code with
  | nil => rfl
  | cons i code ih =>
    show (i.shift distance).size + size (shift code distance) = _
    rw [ih, Instruction.size_shift, size_cons]

@[simp] theorem shift_nil (distance : Nat) : shift [] distance = [] := rfl

@[simp] theorem shift_cons (i : Instruction) (code : Fragment) (distance : Nat) :
    shift (i :: code) distance = i.shift distance :: shift code distance := rfl

@[simp] theorem shift_append (first second : Fragment) (distance : Nat) :
    shift (first ++ second) distance = shift first distance ++ shift second distance :=
  List.map_append

@[simp] theorem shift_shift (code : Fragment) (first second : Nat) :
    shift (shift code first) second = shift code (first + second) := by
  simp [shift, Function.comp_def, Instruction.shift_shift]

@[simp] theorem shift_zero (code : Fragment) : shift code 0 = code :=
  (List.map_congr_left fun i _ => i.shift_zero).trans (List.map_id code)

theorem size_pos {code : Fragment} (filled : code ≠ []) : 0 < size code := by
  cases code with
  | nil => exact absurd rfl filled
  | cons i rest => exact Nat.lt_of_lt_of_le i.size_pos (Nat.le_add_right _ _)

theorem sequenceFrom_eq_shift (offset : Nat) (parts : List Fragment) :
    sequenceFrom offset parts = shift (sequence parts) offset := by
  induction parts generalizing offset with
  | nil => rfl
  | cons code more ih =>
    have tail : sequence (code :: more) = code ++ shift (sequence more) (size code) := by
      rw [sequence, sequenceFrom, shift_zero, Nat.zero_add, ih]
    rw [sequenceFrom, ih, tail, shift_append, shift_shift, Nat.add_comm]

@[simp] theorem sequence_nil : sequence [] = [] := rfl

@[simp] theorem sequence_cons (code : Fragment) (more : List Fragment) :
    sequence (code :: more) = code ++ shift (sequence more) (size code) := by
  rw [sequence, sequenceFrom, sequenceFrom_eq_shift, shift_zero, Nat.zero_add]

theorem length_bytes (code : Fragment) : code.bytes.length = size code := by
  induction code with
  | nil => rfl
  | cons i code ih =>
    rw [bytes, List.flatMap_cons, List.length_append, size_cons, ← ih]
    rfl

theorem jumpSize_eq : jumpSize = 5 := rfl

/-- The code can be cut at an offset: an instruction starts there, or the code ends. -/
def Boundary (code : Fragment) (offset : Nat) : Prop :=
  ∃ before after, code = before ++ after ∧ size before = offset

theorem boundary_zero (code : Fragment) : Boundary code 0 := ⟨[], code, rfl, rfl⟩

theorem boundary_size (code : Fragment) : Boundary code (size code) :=
  ⟨code, [], (List.append_nil code).symm, rfl⟩

theorem Boundary.le_size {code : Fragment} {offset : Nat} (cut : Boundary code offset) :
    offset ≤ size code := by
  obtain ⟨before, after, rfl, rfl⟩ := cut
  rw [size_append]
  exact Nat.le_add_right _ _

theorem Boundary.append {code : Fragment} {offset : Nat} (cut : Boundary code offset)
    (more : Fragment) : Boundary (code ++ more) offset := by
  obtain ⟨before, after, rfl, size⟩ := cut
  exact ⟨before, after ++ more, List.append_assoc _ _ _, size⟩

theorem Boundary.prepend {code : Fragment} {offset : Nat} (cut : Boundary code offset)
    (less : Fragment) : Boundary (less ++ code) (size less + offset) := by
  obtain ⟨before, after, rfl, rfl⟩ := cut
  exact ⟨less ++ before, after, (List.append_assoc _ _ _).symm, size_append _ _⟩

theorem boundary_shift {code : Fragment} {offset distance : Nat} :
    Boundary (shift code distance) offset ↔ Boundary code offset := by
  constructor
  · rintro ⟨before, after, whole, rfl⟩
    obtain ⟨first, second, rfl, rfl, rfl⟩ := List.map_eq_append_iff.mp whole
    exact ⟨first, second, rfl, (size_shift first distance).symm⟩
  · rintro ⟨before, after, rfl, rfl⟩
    exact ⟨shift before distance, shift after distance, shift_append _ _ _, size_shift _ _⟩

/-- All jumps of the code lead to addresses with a property. -/
def JumpsTo (place : Nat → Prop) (code : Fragment) : Prop :=
  ∀ i ∈ code, ∀ target, i.jump? = some target → place target

@[simp] theorem jumpsTo_nil (place : Nat → Prop) : JumpsTo place [] := by
  simp [JumpsTo]

@[simp] theorem jumpsTo_append {place : Nat → Prop} {first second : Fragment} :
    JumpsTo place (first ++ second) ↔ JumpsTo place first ∧ JumpsTo place second := by
  simp only [JumpsTo, List.mem_append, or_imp, forall_and]

@[simp] theorem jumpsTo_cons {place : Nat → Prop} {i : Instruction} {code : Fragment} :
    JumpsTo place (i :: code) ↔
      (∀ target, i.jump? = some target → place target) ∧ JumpsTo place code := by
  simp only [JumpsTo, List.mem_cons, forall_eq_or_imp]

theorem jumpsTo_shift {place : Nat → Prop} {code : Fragment} {distance : Nat} :
    JumpsTo place (shift code distance) ↔
      JumpsTo (fun target => place (target + distance)) code := by
  simp only [JumpsTo, shift, List.mem_map, forall_exists_index, and_imp,
    forall_apply_eq_imp_iff₂, Instruction.jump?_shift, Option.map_eq_some_iff]

theorem JumpsTo.imp {first second : Nat → Prop} {code : Fragment} (jumps : JumpsTo first code)
    (weaker : ∀ target, first target → second target) : JumpsTo second code :=
  fun i member target found => weaker target (jumps i member target found)

/-- All jumps of the code stay inside it or lead to its end. -/
def Closed (code : Fragment) : Prop := JumpsTo (Boundary code) code

/-- Code without jumps. -/
def Straight (code : Fragment) : Prop := ∀ i ∈ code, i.jump? = none

theorem Straight.jumpsTo {code : Fragment} (straight : Straight code) (place : Nat → Prop) :
    JumpsTo place code := by
  intro i member target found
  rw [straight i member] at found
  cases found

theorem Boundary.beyond {whole less : Fragment} {rest offset : Nat} (cut : Boundary whole rest)
    (sum : size less + rest = offset) : Boundary (less ++ whole) offset :=
  sum ▸ cut.prepend less

/-- Wherever a piece of code can be cut, the whole can be cut, at a distance. -/
def Lies (code whole : Fragment) (distance : Nat) : Prop :=
  ∀ offset, Boundary code offset → Boundary whole (distance + offset)

theorem lies_shift (code more : Fragment) (distance : Nat) :
    Lies code (shift code distance ++ more) 0 := by
  intro offset cut
  rw [Nat.zero_add]
  exact (boundary_shift.mpr cut).append more

theorem lies_shift_end (code : Fragment) (distance : Nat) : Lies code (shift code distance) 0 := by
  intro offset cut
  rw [Nat.zero_add]
  exact boundary_shift.mpr cut

theorem Lies.beyond {code whole less : Fragment} {rest distance : Nat} (lies : Lies code whole rest)
    (sum : size less + rest = distance) : Lies code (less ++ whole) distance := by
  intro offset cut
  have moved := (lies offset cut).prepend less
  rwa [← Nat.add_assoc, sum] at moved

/-- A closed piece at its place in a whole: its jumps lead to boundaries of the whole. -/
theorem Closed.jumpsTo {code whole : Fragment} {distance : Nat} (closed : Closed code)
    (lies : Lies code whole distance) : JumpsTo (Boundary whole) (shift code distance) := by
  rw [jumpsTo_shift]
  intro i member target found
  have cut := lies target (closed i member target found)
  rwa [Nat.add_comm] at cut

theorem Closed.append_straight {code more : Fragment} (closed : Closed code)
    (straight : Straight more) : Closed (code ++ more) := by
  rw [Closed, jumpsTo_append]
  exact ⟨closed.imp fun _ cut => cut.append more, straight.jumpsTo _⟩

theorem Closed.append_shift {first second : Fragment} (left : Closed first)
    (right : Closed second) : Closed (first ++ shift second (size first)) := by
  rw [Closed, jumpsTo_append]
  exact ⟨left.imp fun _ cut => cut.append _, right.jumpsTo ((lies_shift_end _ _).beyond rfl)⟩

theorem straight_single {i : Instruction} (straight : i.jump? = none) : Straight [i] := by
  simpa [Straight] using straight

theorem straight_closed {code : Fragment} (straight : Straight code) : Closed code :=
  straight.jumpsTo _

theorem jumpsTo_single {i : Instruction} {target : Nat} {place : Nat → Prop}
    (jumps : i.jump? = some target) : JumpsTo place [i] ↔ place target := by
  simp [jumps]

-- The two operators differ in the code before the first jump and in the value after the second.
private theorem closed_skipping {head right decision : Fragment} (first : Closed head)
    (second : Closed right) (straight : Straight decision) :
    Closed (head ++ [Instruction.jumpIf (size head + jumpSize + size right + jumpSize)] ++
      shift right (size head + jumpSize) ++
      [Instruction.jump (size head + jumpSize + size right + jumpSize + size decision)] ++
      decision) := by
  simp only [Closed, jumpsTo_append, List.append_assoc]
  refine ⟨first.imp fun _ cut => cut.append _, ?_, ?_, ?_, straight.jumpsTo _⟩
  · rw [jumpsTo_single rfl]
    exact (((((boundary_zero _).beyond rfl).beyond rfl).beyond rfl).beyond
      (by simp [Nat.add_assoc]))
  · exact second.jumpsTo (((lies_shift _ _ _).beyond rfl).beyond (by simp))
  · rw [jumpsTo_single rfl]
    exact (((((boundary_size _).beyond rfl).beyond rfl).beyond rfl).beyond
      (by simp [Nat.add_assoc]))

theorem closed_shortCircuit (op : Logic) {left right : Fragment} (first : Closed left)
    (second : Closed right) : Closed (shortCircuit op left right) := by
  cases op with
  | and =>
    exact closed_skipping (first.append_straight (by simp [Straight, Instruction.jump?])) second
      (by simp [Straight, Instruction.jump?])
  | or => exact closed_skipping first second (by simp [Straight, Instruction.jump?])

@[simp] theorem size_unlessGoTo (condition : Fragment) (target : Nat) :
    size (unlessGoTo condition target) = guardSize condition := by
  simp [unlessGoTo, guardSize, Nat.add_assoc]

private theorem jumpsTo_unlessGoTo {place : Nat → Prop} {condition : Fragment} {target : Nat} :
    JumpsTo place (unlessGoTo condition target) ↔ JumpsTo place condition ∧ place target := by
  simp [unlessGoTo, Instruction.jump?]

private theorem Closed.guard {condition : Fragment} (closed : Closed condition) (target : Nat)
    (more : Fragment) : JumpsTo (Boundary (unlessGoTo condition target ++ more)) condition :=
  closed.imp fun _ cut => (cut.append _).append more

theorem closed_conditional {condition body : Fragment} (test : Closed condition)
    (inner : Closed body) : Closed (conditional condition body) := by
  rw [Closed, conditional, jumpsTo_append, jumpsTo_unlessGoTo]
  refine ⟨⟨test.guard _ _, ?_⟩, ?_⟩
  · exact (boundary_size _).beyond (by simp)
  · exact inner.jumpsTo ((lies_shift_end _ _).beyond (by simp))

theorem closed_alternative {condition body otherwise : Fragment} (test : Closed condition)
    (inner : Closed body) (other : Closed otherwise) :
    Closed (alternative condition body otherwise) := by
  simp only [Closed, alternative, jumpsTo_append, jumpsTo_unlessGoTo, List.append_assoc]
  refine ⟨⟨test.guard _ _, ?_⟩, ?_, ?_, ?_⟩
  · exact ((boundary_zero _).beyond rfl).beyond rfl |>.beyond (by simp [Nat.add_assoc])
  · exact inner.jumpsTo ((lies_shift _ _ _).beyond (by simp))
  · rw [jumpsTo_single rfl]
    exact ((boundary_size _).beyond rfl).beyond rfl |>.beyond (by simp [Nat.add_assoc])
  · exact other.jumpsTo (((lies_shift_end _ _).beyond rfl).beyond rfl |>.beyond
      (by simp [Nat.add_assoc]))

theorem closed_whileLoop {condition body : Fragment} (test : Closed condition)
    (inner : Closed body) : Closed (whileLoop condition body) := by
  simp only [Closed, whileLoop, jumpsTo_append, jumpsTo_unlessGoTo, List.append_assoc]
  refine ⟨⟨test.guard _ _, ?_⟩, ?_, ?_⟩
  · exact ((boundary_size _).beyond rfl).beyond (by simp [Nat.add_assoc])
  · exact inner.jumpsTo ((lies_shift _ _ _).beyond (by simp))
  · rw [jumpsTo_single rfl]
    exact boundary_zero _

theorem closed_countedLoop {count body : Fragment} (threshold counter : UInt8)
    (amount : Closed count) (inner : Closed body) :
    Closed (countedLoop count threshold counter body) := by
  simp only [Closed, countedLoop, jumpsTo_append, List.append_assoc]
  refine ⟨amount.imp fun _ cut => cut.append _, by simp [Instruction.jump?], ?_,
    by simp [Instruction.jump?], ?_, by simp [Instruction.jump?], ?_, by simp [Instruction.jump?]⟩
  · rw [jumpsTo_single rfl]
    exact ((((((boundary_zero _).beyond rfl).beyond rfl).beyond rfl).beyond rfl).beyond rfl).beyond
      rfl |>.beyond (by simp [Nat.add_assoc])
  · exact inner.jumpsTo ((((lies_shift _ _ _).beyond rfl).beyond rfl).beyond rfl |>.beyond
      (by simp [Nat.add_assoc]))
  · simp only [jumpsTo_cons, jumpsTo_nil, and_true, Instruction.jump?, Option.some.injEq,
      forall_eq']
    constructor
    · exact (((boundary_zero _).beyond rfl).beyond rfl).beyond rfl |>.beyond
        (by simp [Nat.add_assoc])
    · exact ((((((boundary_size _).beyond rfl).beyond rfl).beyond rfl).beyond rfl).beyond
        rfl).beyond rfl |>.beyond (by simp [Nat.add_assoc])

end Fragment

end Primer
