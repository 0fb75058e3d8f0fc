import Primer.Proofs.Compilation.Occurrence
import Primer.Proofs.Execution.Plan

/-!
Where the parts of compiled code stand in a buffer. A fragment that is placed somewhere brings its
parts along, and for each shape of control flow it is said where the parts come to stand and where
the jumps between them lead.
-/

set_option autoImplicit false
set_option relaxedAutoImplicit false

namespace Primer

open Fragment

namespace Bytecode

theorem Spells.next {code : Bytecode} {address : Nat} {i : Instruction} {rest : Fragment}
    (spells : code.Spells address (i :: rest)) :
    code.Fetches address i ∧ code.Spells (address + i.size) rest := by
  have split : code.Spells address ([i] ++ rest) := spells
  have here : Fragment.at? (i :: rest) 0 = some i := rfl
  refine ⟨spells.fetches here, ?_⟩
  simpa using split.right

/-- The fragment stands in the buffer at an address, with its jumps moved there. -/
def Places (code : Bytecode) (address : Nat) (fragment : Fragment) : Prop :=
  code.Spells address (fragment.shift address)

namespace Places

variable {code : Bytecode} {address distance : Nat} {first second more : Fragment} {i : Instruction}

theorem left (placed : code.Places address (first ++ second)) : code.Places address first := by
  rw [Places, Fragment.shift_append] at placed
  exact placed.left

theorem fits (placed : code.Places address first) : address + first.size ≤ code.size := by
  have fits := Spells.fits placed
  rwa [Fragment.size_shift] at fits

/-- The instruction behind some code. -/
theorem fetches (placed : code.Places address (first ++ i :: more)) (sum : first.size = distance) :
    code.Fetches (address + distance) (i.shift address) := by
  rw [Places, Fragment.shift_append, Fragment.shift_cons] at placed
  have there := placed.right
  rw [Fragment.size_shift, sum] at there
  exact there.next.1

theorem head (placed : code.Places address (i :: more)) : code.Fetches address (i.shift address) :=
  Spells.next placed |>.1

/-- The part behind some code. -/
theorem part (placed : code.Places address (first ++ (second.shift distance ++ more)))
    (sum : first.size = distance) : code.Places (address + distance) second := by
  rw [Places, Fragment.shift_append, Fragment.shift_append, Fragment.shift_shift] at placed
  have there := placed.right.left
  rwa [Fragment.size_shift, sum, Nat.add_comm distance] at there

/-- The part at the end. -/
theorem last (placed : code.Places address (first ++ second.shift distance))
    (sum : first.size = distance) : code.Places (address + distance) second := by
  rw [← List.append_nil (second.shift distance)] at placed
  exact placed.part sum

/-- Parts that are laid one after another. -/
theorem cons {parts : List Fragment}
    (placed : code.Places address (Fragment.sequence (first :: parts))) :
    code.Places address first ∧ code.Places (address + first.size) (Fragment.sequence parts) := by
  rw [Fragment.sequence_cons] at placed
  exact ⟨placed.left, placed.last rfl⟩

/-- The instruction behind the parts. -/
theorem single (placed : code.Places address (Fragment.sequence [[i]])) :
    code.Fetches address (i.shift address) :=
  placed.cons.1.head

theorem spells (placed : code.Places address first) (same : first.shift address = first) :
    code.Spells address first := by
  rwa [Places, same] at placed

/-- Code without jumps stands anywhere as it is. -/
theorem straight (placed : code.Places address (first ++ second)) (sum : first.size = distance)
    (same : second.shift address = second) : code.Spells (address + distance) second := by
  rw [Places, Fragment.shift_append, same] at placed
  have there := placed.right
  rwa [Fragment.size_shift, sum] at there

end Places

end Bytecode

namespace Fragment

variable {code : Bytecode} {address target : Nat}
  {left right condition body otherwise count : Fragment}

theorem places_deciding {op : Logic} (placed : code.Places address (deciding op left)) :
    code.Places address left := by
  cases op with
  | and => exact Bytecode.Places.left placed
  | or => exact placed

theorem size_shortCircuit (op : Logic) (left right : Fragment) :
    size (shortCircuit op left right) =
      rightStart op left + size right + jumpSize + size [.push (.boolean (op = .or))] := by
  cases op <;> simp [shortCircuit, rightStart, deciding, Nat.add_assoc]

theorem places_shortCircuit {op : Logic}
    (placed : code.Places address (shortCircuit op left right)) :
    code.Places address (deciding op left) ∧
      code.Fetches (address + size (deciding op left))
        (.jumpIf (rightStart op left + size right + jumpSize + address)) ∧
      code.Places (address + rightStart op left) right ∧
      code.Fetches (address + (rightStart op left + size right))
        (.jump (rightStart op left + size right + jumpSize +
          size [.push (.boolean (op = .or))] + address)) ∧
      code.Fetches (address + (rightStart op left + size right + jumpSize))
        (.push (.boolean (op = .or))) := by
  have shape : shortCircuit op left right = deciding op left ++
      [Instruction.jumpIf (rightStart op left + size right + jumpSize)] ++
      shift right (rightStart op left) ++
      [Instruction.jump
        (rightStart op left + size right + jumpSize + size [.push (.boolean (op = .or))])] ++
      [Instruction.push (.boolean (op = .or))] := by
    cases op <;> rfl
  rw [shape] at placed
  refine ⟨placed.left.left.left.left, placed.left.left.left.fetches rfl, placed.left.left.last ?_,
    placed.left.fetches ?_, placed.fetches ?_⟩ <;> simp [rightStart, Nat.add_assoc]

theorem guardSize_eq (condition : Fragment) : guardSize condition = rightStart .and condition := by
  simp [guardSize, rightStart, deciding]

theorem places_guard (placed : code.Places address (unlessGoTo condition target)) :
    code.Places address (deciding .and condition) ∧
      code.Fetches (address + size (deciding .and condition)) (.jumpIf (target + address)) := by
  have shape :
      unlessGoTo condition target = deciding .and condition ++ [Instruction.jumpIf target] := by
    simp [unlessGoTo, deciding]
  rw [shape] at placed
  exact ⟨placed.left, placed.fetches rfl⟩

theorem places_conditional (placed : code.Places address (conditional condition body)) :
    code.Places address (unlessGoTo condition (guardSize condition + size body)) ∧
      code.Places (address + guardSize condition) body :=
  ⟨placed.left, placed.last (size_unlessGoTo _ _)⟩

theorem places_alternative (placed : code.Places address (alternative condition body otherwise)) :
    code.Places address (unlessGoTo condition (guardSize condition + size body + jumpSize)) ∧
      code.Places (address + guardSize condition) body ∧
      code.Fetches (address + (guardSize condition + size body))
        (.jump (guardSize condition + size body + jumpSize + size otherwise + address)) ∧
      code.Places (address + (guardSize condition + size body + jumpSize)) otherwise := by
  refine ⟨placed.left.left.left, placed.left.left.last (size_unlessGoTo _ _),
    placed.left.fetches ?_, placed.last ?_⟩ <;> simp [Nat.add_assoc]

theorem places_whileLoop (placed : code.Places address (whileLoop condition body)) :
    code.Places address (unlessGoTo condition (guardSize condition + size body + jumpSize)) ∧
      code.Places (address + guardSize condition) body ∧
      code.Fetches (address + (guardSize condition + size body)) (.jump address) := by
  refine ⟨placed.left.left, placed.left.last (size_unlessGoTo _ _), ?_⟩
  have sum : size (unlessGoTo condition (guardSize condition + size body + jumpSize) ++
      shift body (guardSize condition)) = guardSize condition + size body := by simp
  have back := placed.fetches sum
  rwa [Instruction.shift, Nat.zero_add] at back

/-- Where a counted loop goes when there is nothing to do. -/
def skipped (count : Fragment) (threshold counter : UInt8) (body : Fragment) : Nat :=
  roundStart count threshold counter + size body + size (advance threshold counter) + jumpSize +
    jumpSize

theorem size_countedLoop (count : Fragment) (threshold counter : UInt8) (body : Fragment) :
    size (countedLoop count threshold counter body) = skipped count threshold counter body + 1 := by
  simp [countedLoop, skipped, roundStart, counted, advance, Nat.add_assoc]
  rfl

theorem places_countedLoop {threshold counter : UInt8} {more : Fragment}
    (placed : code.Places address (countedLoop count threshold counter body ++ more)) :
    code.Places address count ∧
      code.Spells (address + size count) [.dup, .push (.number .zero), .order .lessEq] ∧
      code.Fetches (address + size (counted count))
        (.jumpIf (skipped count threshold counter body + address)) ∧
      code.Spells (address + (size (counted count) + jumpSize))
        [.store threshold, .push (.number .zero), .store counter] ∧
      code.Places (address + roundStart count threshold counter) body ∧
      code.Spells (address + (roundStart count threshold counter + size body))
        (advance threshold counter) ∧
      code.Fetches (address + (roundStart count threshold counter + size body +
        size (advance threshold counter)))
          (.jumpIf (roundStart count threshold counter + address)) ∧
      code.Fetches (address + (roundStart count threshold counter + size body +
        size (advance threshold counter) + jumpSize))
          (.jump (skipped count threshold counter body + 1 + address)) ∧
      code.Fetches (address + skipped count threshold counter body) .pop := by
  have shape : countedLoop count threshold counter body =
      counted count ++ [Instruction.jumpIf (skipped count threshold counter body)] ++
        [Instruction.store threshold, .push (.number .zero), .store counter] ++
        shift body (roundStart count threshold counter) ++ advance threshold counter ++
        [Instruction.jumpIf (roundStart count threshold counter)] ++
        [Instruction.jump (skipped count threshold counter body + 1)] ++ [Instruction.pop] := by
    simp only [countedLoop, counted, skipped, roundStart, advance, List.append_assoc,
      List.cons_append, List.nil_append]
    rfl
  have whole := placed.left
  rw [shape] at whole
  have jump := whole.left
  have test := jump.left
  have advancing := test.left
  have round := advancing.left
  have prepare := round.left
  have skip := prepare.left
  refine ⟨skip.left.left, ?_, skip.fetches rfl, ?_, round.last ?_, ?_, test.fetches ?_,
    jump.fetches ?_, whole.fetches ?_⟩
  · exact Bytecode.Places.straight skip.left rfl rfl
  · exact prepare.straight (by simp) rfl
  · simp [roundStart, Nat.add_assoc]
  · exact advancing.straight (by simp [roundStart, Nat.add_assoc]) rfl
  · simp [roundStart, Nat.add_assoc]
  · simp [roundStart, Nat.add_assoc]
  · simp [skipped, roundStart, Nat.add_assoc]

end Fragment

end Primer
