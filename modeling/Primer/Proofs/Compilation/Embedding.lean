import Primer.Proofs.Compilation.Occurrence
import Primer.Proofs.Flow

/-!
Code that stands in other code. The code around it jumps to its start, to its end or past it, but
never into it: control comes into a piece of code through its start only. Each form of code encloses
the pieces that it is made of.
-/

set_option autoImplicit false
set_option relaxedAutoImplicit false

namespace Primer

namespace Fragment

/-- The address is no place inside code that stands at a start: it is before, at one of its ends or
behind. -/
def Around (start length target : Nat) : Prop := target ≤ start ∨ start + length ≤ target

/-- The inner code stands in the whole at a distance, and the code around it does not jump into
it. -/
def Encloses (whole inner : Fragment) (distance : Nat) : Prop :=
  ∃ before after, whole = before ++ shift inner distance ++ after ∧ size before = distance ∧
    JumpsTo (Around distance (size inner)) (before ++ after)

variable {whole middle inner first second third : Fragment} {distance : Nat}

theorem Encloses.refl (code : Fragment) : Encloses code code 0 :=
  ⟨[], [], by simp, rfl, jumpsTo_nil _⟩

theorem Encloses.le_size (encloses : Encloses whole inner distance) :
    distance + size inner ≤ size whole := by
  obtain ⟨before, after, rfl, rfl, -⟩ := encloses
  simp

theorem Encloses.trans {less more : Nat} (outside : Encloses whole middle less)
    (inside : Encloses middle inner more) : Encloses whole inner (less + more) := by
  have fits := inside.le_size
  obtain ⟨before, after, rfl, rfl, around⟩ := outside
  obtain ⟨before', after', rfl, rfl, around'⟩ := inside
  refine ⟨before ++ shift before' (size before), shift after' (size before) ++ after, ?_, ?_, ?_⟩
  · simp [Nat.add_comm (size before)]
  · simp
  · rw [jumpsTo_append] at around around'
    simp only [jumpsTo_append, jumpsTo_shift]
    refine ⟨⟨around.1.imp ?_, around'.1.imp ?_⟩, around'.2.imp ?_, around.2.imp ?_⟩ <;>
      · intro target place
        simp only [Around] at place ⊢
        omega

theorem Encloses.append_straight (encloses : Encloses whole inner distance) {more : Fragment}
    (straight : Straight more) : Encloses (whole ++ more) inner distance := by
  obtain ⟨before, after, rfl, sized, around⟩ := encloses
  refine ⟨before, after ++ more, by simp, sized, ?_⟩
  rw [← List.append_assoc, jumpsTo_append]
  exact ⟨around, straight.jumpsTo _⟩

theorem Encloses.followed (encloses : Encloses whole inner distance) {i : Instruction}
    (straight : i.jump? = none) : Encloses (whole ++ [i]) inner distance :=
  encloses.append_straight (straight_single straight)

/-- Closed code in front of a place jumps no farther than the place. -/
theorem Closed.around (closed : Closed first) {start : Nat} (fits : size first ≤ start)
    (length : Nat) : JumpsTo (Around start length) first :=
  closed.imp fun _ cut => .inl (Nat.le_trans cut.le_size fits)

/-- Code that is laid behind a place jumps back to the end of what stands there at most. -/
theorem jumpsTo_around (code : Fragment) {start length : Nat} (fits : start + length ≤ distance) :
    JumpsTo (Around start length) (shift code distance) := by
  rw [jumpsTo_shift]
  intro i _ target _
  exact .inr (by omega)

/-- Code at the start of the whole. -/
theorem encloses_head {more : Fragment} (around : JumpsTo (Around 0 (size inner)) more) :
    Encloses (inner ++ more) inner 0 :=
  ⟨[], more, by simp, rfl, around⟩

theorem encloses_left (first second : Fragment) :
    Encloses (first ++ shift second (size first)) first 0 :=
  encloses_head (jumpsTo_around second (by omega))

theorem encloses_right (closed : Closed first) (second : Fragment) :
    Encloses (first ++ shift second (size first)) second (size first) := by
  refine ⟨first, [], by simp, rfl, ?_⟩
  rw [List.append_nil]
  exact closed.around (Nat.le_refl _) _

theorem encloses_sequence_head (first : Fragment) (more : List Fragment) :
    Encloses (sequence (first :: more)) first 0 := by
  rw [sequence_cons]
  exact encloses_left _ _

theorem Encloses.sequence_tail {more : List Fragment}
    (encloses : Encloses (sequence more) inner distance)
    (closed : Closed first) :
    Encloses (sequence (first :: more)) inner (size first + distance) := by
  rw [sequence_cons]
  exact (encloses_right closed _).trans encloses

/-- The code of a condition stands at the start of what it guards. -/
theorem encloses_guard {condition more : Fragment} {target : Nat} (leads : size condition ≤ target)
    (around : JumpsTo (Around 0 (size condition)) more) :
    Encloses (unlessGoTo condition target ++ more) condition 0 := by
  rw [unlessGoTo, List.append_assoc]
  refine encloses_head (jumpsTo_append.mpr ⟨?_, around⟩)
  simp [Instruction.jump?, Around, leads]

/-- What is guarded stands behind the guard, which jumps past it. -/
theorem encloses_guarded {condition body more : Fragment} {target : Nat} (closed : Closed condition)
    (leads : guardSize condition + size body ≤ target)
    (around : JumpsTo (Around (guardSize condition) (size body)) more) :
    Encloses (unlessGoTo condition target ++ shift body (guardSize condition) ++ more) body
      (guardSize condition) := by
  refine ⟨unlessGoTo condition target, more, rfl, size_unlessGoTo _ _, ?_⟩
  rw [jumpsTo_append, unlessGoTo, jumpsTo_append]
  refine ⟨⟨closed.around (by rw [guardSize]; omega) _, ?_⟩, around⟩
  simp [Instruction.jump?, Around, leads]

theorem encloses_conditional_test (condition body : Fragment) :
    Encloses (conditional condition body) condition 0 :=
  encloses_guard (by rw [guardSize]; omega) (jumpsTo_around _ (by rw [guardSize]; omega))

theorem encloses_conditional_body {condition body : Fragment} (closed : Closed condition) :
    Encloses (conditional condition body) body (guardSize condition) := by
  have encloses := encloses_guarded closed (Nat.le_refl (guardSize condition + size body))
    (jumpsTo_nil _)
  rwa [List.append_nil] at encloses

theorem encloses_alternative_test (condition body otherwise : Fragment) :
    Encloses (alternative condition body otherwise) condition 0 := by
  simp only [alternative, List.append_assoc]
  refine encloses_guard (by rw [guardSize]; omega) ?_
  simp only [jumpsTo_append]
  refine ⟨jumpsTo_around _ (by rw [guardSize]; omega), ?_,
    jumpsTo_around _ (by rw [guardSize]; omega)⟩
  rw [jumpsTo_single rfl]
  exact .inr (by rw [guardSize]; omega)

theorem encloses_alternative_body {condition body otherwise : Fragment}
    (closed : Closed condition) :
    Encloses (alternative condition body otherwise) body (guardSize condition) := by
  rw [alternative, List.append_assoc]
  refine encloses_guarded closed (by omega) ?_
  rw [jumpsTo_append, jumpsTo_single rfl]
  exact ⟨.inr (by omega), jumpsTo_around _ (by omega)⟩

theorem encloses_alternative_other {condition body otherwise : Fragment} (closed : Closed condition)
    (closed' : Closed body) : Encloses (alternative condition body otherwise) otherwise
      (guardSize condition + size body + jumpSize) := by
  refine ⟨_, [], (List.append_nil _).symm, by simp; omega, ?_⟩
  rw [List.append_nil, jumpsTo_append, jumpsTo_append, unlessGoTo, jumpsTo_append,
    jumpsTo_single rfl, jumpsTo_shift]
  refine ⟨⟨⟨closed.around (by rw [guardSize]; omega) _, ?_⟩, ?_⟩, .inr (by omega)⟩
  · simp [Instruction.jump?, Around]
  · exact closed'.imp fun target cut => .inl (by have := cut.le_size; omega)

theorem encloses_whileLoop_test (condition body : Fragment) :
    Encloses (whileLoop condition body) condition 0 := by
  rw [whileLoop, List.append_assoc]
  refine encloses_guard (by rw [guardSize]; omega) ?_
  rw [jumpsTo_append, jumpsTo_single rfl]
  exact ⟨jumpsTo_around _ (by rw [guardSize]; omega), .inl (Nat.le_refl 0)⟩

theorem encloses_whileLoop_body {condition body : Fragment} (closed : Closed condition) :
    Encloses (whileLoop condition body) body (guardSize condition) := by
  refine encloses_guarded closed (by omega) ?_
  rw [jumpsTo_single rfl]
  exact .inl (Nat.zero_le _)

theorem shortCircuit_eq (op : Logic) (left right : Fragment) : shortCircuit op left right =
    deciding op left ++ [Instruction.jumpIf (rightStart op left + size right + jumpSize)] ++
      shift right (rightStart op left) ++
      ([Instruction.jump
        (rightStart op left + size right + jumpSize + size [.push (.boolean (op = .or))])] ++
        [Instruction.push (.boolean (op = .or))]) := by
  cases op <;> simp [shortCircuit, deciding, rightStart]

theorem encloses_deciding (op : Logic) (left : Fragment) : Encloses (deciding op left) left 0 := by
  cases op with
  | and => exact (Encloses.refl left).followed rfl
  | or => exact .refl left

theorem encloses_shortCircuit_left (op : Logic) (left right : Fragment) :
    Encloses (shortCircuit op left right) left 0 := by
  have whole : Encloses (shortCircuit op left right) (deciding op left) 0 := by
    rw [shortCircuit_eq, List.append_assoc, List.append_assoc]
    refine encloses_head ?_
    simp only [jumpsTo_append]
    refine ⟨(jumpsTo_single rfl).mpr (.inr ?_), jumpsTo_around _ ?_,
      (jumpsTo_single rfl).mpr (.inr ?_), (straight_single rfl).jumpsTo _⟩ <;>
      rw [rightStart] <;> omega
  exact whole.trans (encloses_deciding op left)

theorem encloses_shortCircuit_right (op : Logic) {left right : Fragment} (closed : Closed left) :
    Encloses (shortCircuit op left right) right (rightStart op left) := by
  have head : Closed (deciding op left) := by
    cases op with
    | and => exact closed.append_straight (straight_single rfl)
    | or => exact closed
  refine ⟨_, _, shortCircuit_eq op left right, by simp [rightStart], ?_⟩
  simp only [jumpsTo_append]
  exact ⟨⟨head.around (by rw [rightStart]; omega) _, (jumpsTo_single rfl).mpr (.inr (by omega))⟩,
    (jumpsTo_single rfl).mpr (.inr (by omega)), (straight_single rfl).jumpsTo _⟩

theorem encloses_countedLoop_count (count : Fragment) (threshold counter : UInt8)
    (body : Fragment) : Encloses (countedLoop count threshold counter body) count 0 := by
  simp only [countedLoop, List.append_assoc]
  refine encloses_head ?_
  simp only [jumpsTo_append, jumpsTo_cons, jumpsTo_nil, Instruction.jump?, Option.some.injEq,
    forall_eq', reduceCtorEq, false_implies, implies_true, and_true, true_and, size_append]
  exact ⟨.inr (by omega), jumpsTo_around _ (by omega), .inr (by omega), .inr (by omega)⟩

theorem encloses_countedLoop_body {count body : Fragment} (closed : Closed count)
    (threshold counter : UInt8) : Encloses (countedLoop count threshold counter body) body
      (roundStart count threshold counter) := by
  refine ⟨counted count ++ [Instruction.jumpIf (roundStart count threshold counter + size body +
      size (advance threshold counter) + jumpSize + jumpSize)] ++
      [Instruction.store threshold, .push (.number .zero), .store counter],
    advance threshold counter ++ [Instruction.jumpIf (roundStart count threshold counter),
      .jump (roundStart count threshold counter + size body + size (advance threshold counter) +
        jumpSize + jumpSize + size [.pop])] ++ [Instruction.pop],
        ?_, by simp [roundStart]; omega, ?_⟩
  · simp [countedLoop, counted, roundStart, advance]
  · have test : Closed (counted count) :=
      closed.append_straight (by simp [Straight, Instruction.jump?])
    simp only [jumpsTo_append, jumpsTo_cons, jumpsTo_nil, advance, Instruction.jump?,
      Option.some.injEq, forall_eq', reduceCtorEq, false_implies, implies_true, and_true, true_and]
    exact ⟨⟨test.around (by rw [roundStart]; omega) _, .inr (by omega)⟩, .inl (Nat.le_refl _),
      .inr (by omega)⟩

theorem size_le_guardSize (condition : Fragment) : size condition ≤ guardSize condition := by
  rw [guardSize]
  omega

theorem size_le_rightStart (op : Logic) (left : Fragment) : size left ≤ rightStart op left := by
  cases op <;> simp only [rightStart, deciding, size_append] <;> omega

theorem size_le_roundStart (count : Fragment) (threshold counter : UInt8) :
    size count ≤ roundStart count threshold counter := by
  simp only [roundStart, counted, size_append]
  omega

end Fragment

end Primer
