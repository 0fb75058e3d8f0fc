import Primer.Proofs.Execution.Verified

/-!
Which buffers verification accepts. A buffer can be divided into instructions in one way at most,
since each instruction fixes where the next one starts; the walk finds the division if there is one.
A buffer is accepted if it can be divided, starts with a jump, and every target of its instructions
is where one of them starts.
-/

set_option autoImplicit false
set_option relaxedAutoImplicit false

namespace Primer.Bytecode

/-- Marks divide the buffer from an offset on: an instruction starts at each mark and ends at the
next, and the last mark is the end. -/
structure Divides (code : Bytecode) (start count : Nat) (mark : Nat → Nat) : Prop where
  starts : mark 0 = start
  ends : mark count = code.size
  ascends : ∀ k < count, mark k < mark (k + 1)
  decodes : ∀ k < count, ∃ i, code.decodeAt (mark k) = .ok (i, mark (k + 1))

/-- The first instruction is a jump. -/
def JumpsFirst (code : Bytecode) : Prop :=
  ∃ target next, code.decodeAt 0 = .ok (.jump target, next)

/-- If the instruction at a mark has a target, an instruction starts there. -/
def Lands (code : Bytecode) (count : Nat) (mark : Nat → Nat) (k : Nat) : Prop :=
  ∀ i next target, code.decodeAt (mark k) = .ok (i, next) → i.target? = some target →
    ∃ j < count, mark j = target

variable {code : Bytecode} {start count : Nat} {mark : Nat → Nat}

namespace Divides

theorem nil : code.Divides code.size 0 fun _ => code.size where
  starts := rfl
  ends := rfl
  ascends := fun _ none => absurd none (Nat.not_lt_zero _)
  decodes := fun _ none => absurd none (Nat.not_lt_zero _)

theorem cons {next : Nat} {i : Instruction} (decoded : code.decodeAt start = .ok (i, next))
    (rest : code.Divides next count mark) :
    code.Divides start (count + 1) fun k => if k = 0 then start else mark (k - 1) where
  starts := if_pos rfl
  ends := rest.ends
  ascends := fun k inside => by
    cases k with
    | zero => simpa [rest.starts] using (decodeAt_onward decoded).1
    | succ k => simpa using rest.ascends k (by omega)
  decodes := fun k inside => by
    cases k with
    | zero => exact ⟨i, by simpa [rest.starts] using decoded⟩
    | succ k => simpa using rest.decodes k (by omega)

theorem tail (divides : code.Divides start (count + 1) mark) :
    code.Divides (mark 1) count fun k => mark (k + 1) where
  starts := rfl
  ends := divides.ends
  ascends := fun k inside => divides.ascends (k + 1) (by omega)
  decodes := fun k inside => divides.decodes (k + 1) (by omega)

end Divides

/-- A walk that ends without a fault has divided the buffer. -/
theorem exists_divides {fuel : Nat} (within : start ≤ code.size) (enough : code.size ≤ start + fuel)
    (faultless : (code.walkFrom fuel start).fault = none) :
    ∃ mark, code.Divides start (code.walkFrom fuel start).instructions.length mark := by
  induction fuel generalizing start with
  | zero =>
    obtain rfl : start = code.size := by omega
    exact ⟨_, .nil⟩
  | succ fuel ih =>
    rw [walkFrom] at faultless ⊢
    by_cases inside : start < code.size
    · rw [if_pos inside] at faultless ⊢
      cases decoded : code.decodeAt start with
      | error fault =>
        rw [decoded] at faultless
        cases faultless
      | ok found =>
        obtain ⟨first, next⟩ := found
        have onward := decodeAt_onward decoded
        rw [decoded] at faultless
        obtain ⟨mark, rest⟩ := ih onward.2 (by omega) faultless
        exact ⟨_, .cons decoded rest⟩
    · rw [if_neg inside]
      obtain rfl : start = code.size := by omega
      exact ⟨_, .nil⟩

/-- The walk follows every division: there is no other. -/
theorem Divides.found {fuel : Nat} (divides : code.Divides start count mark)
    (enough : code.size ≤ start + fuel) :
    (code.walkFrom fuel start).fault = none ∧
    (code.walkFrom fuel start).instructions.length = count ∧
    ∀ k < count, ∃ i, code.decodeAt (mark k) = .ok (i, mark (k + 1)) ∧
      (code.walkFrom fuel start).instructions[k]? = some (mark k, i) := by
  induction count generalizing start mark fuel with
  | zero =>
    have ended : ¬start < code.size := by
      have last := divides.starts.symm.trans divides.ends
      omega
    have empty : code.walkFrom fuel start = {} := by
      cases fuel with
      | zero => rfl
      | succ fuel => rw [walkFrom, if_neg ended]
    rw [empty]
    exact ⟨rfl, rfl, fun k none => absurd none (Nat.not_lt_zero k)⟩
  | succ count ih =>
    obtain ⟨i, first⟩ := divides.decodes 0 (Nat.succ_pos count)
    have decoded := first
    rw [divides.starts] at decoded
    have onward : start < mark 1 ∧ mark 1 ≤ code.size := decodeAt_onward decoded
    have inside : start < code.size := by omega
    cases fuel with
    | zero => omega
    | succ fuel =>
      have enough' : code.size ≤ mark 1 + fuel := by omega
      obtain ⟨faultless, counted, found⟩ := ih divides.tail enough'
      rw [walkFrom, if_pos inside, decoded]
      refine ⟨faultless, by simpa using counted, fun k below => ?_⟩
      cases k with
      | zero => exact ⟨i, first, by rw [divides.starts]; rfl⟩
      | succ k => exact found k (by omega)

/-- An instruction of a walk passes control only to instructions of the walk. -/
def Walk.Settles (walk : Walk) (i : Instruction) : Prop :=
  ∀ target, i.target? = some target → target ∈ walk.offsets

theorem Walk.strayTransfer?_eq_none {walk : Walk} :
    walk.strayTransfer? = none ↔ ∀ entry ∈ walk.instructions, walk.Settles entry.2 := by
  rw [Walk.strayTransfer?, List.findSome?_eq_none_iff]
  refine forall_congr' fun entry => forall_congr' fun _ => ?_
  cases targets : entry.2.target? with
  | none => simp [Walk.Settles, targets]
  | some target => simp [Walk.Settles, Walk.offsets, targets]

theorem Walk.strayTransfer?_eq_some {walk : Walk} {offset target : Nat} {i : Instruction} :
    walk.strayTransfer? = some (offset, i, target) ↔
      ∃ before after, walk.instructions = before ++ (offset, i) :: after ∧
        (i.target? = some target ∧ target ∉ walk.offsets) ∧
        ∀ entry ∈ before, walk.Settles entry.2 := by
  rw [Walk.strayTransfer?, List.findSome?_eq_some_iff]
  simp only [Walk.Settles, Walk.offsets]
  constructor
  · rintro ⟨before, entry, after, whole, found, passed⟩
    refine ⟨before, after, ?_⟩
    grind
  · grind

/-- What verification goes by. -/
theorem verify_eq_ok {n : Nat} :
    code.verify = .ok n ↔ code.size ≠ 0 ∧ code.walk.startsWithJump = true ∧
    code.walk.fault = none ∧ code.walk.strayTransfer? = none ∧
    code.walk.instructions.length = n := by
  simp only [verify]
  grind

theorem verify_eq_badTarget {op : Opcode} {offset target : Nat} :
    code.verify = .error (.badTarget op offset target) ↔ code.size ≠ 0 ∧
      code.walk.startsWithJump = true ∧ code.walk.fault = none ∧
      ∃ i, code.walk.strayTransfer? = some (offset, i, target) ∧ i.opcode = op := by
  simp only [verify]
  grind

namespace Divides

variable (divides : code.Divides 0 count mark)

include divides

theorem filled_iff : 0 < count ↔ code.size ≠ 0 := by
  constructor
  · intro filled
    obtain ⟨i, decoded⟩ := divides.decodes 0 filled
    have onward := decodeAt_onward decoded
    omega
  · intro filled
    refine Nat.pos_of_ne_zero fun none => filled ?_
    rw [← divides.ends, none, divides.starts]

/-- What the walk lists is what stands at the marks. -/
theorem listed {k : Nat} {entry : Nat × Instruction} : code.walk.instructions[k]? = some entry ↔
    k < count ∧ mark k = entry.1 ∧ code.decodeAt entry.1 = .ok (entry.2, mark (k + 1)) := by
  obtain ⟨-, counted, found⟩ := divides.found (Nat.le_add_left code.size 0)
  constructor
  · intro here
    have inside : k < count := counted ▸ (List.getElem?_eq_some_iff.mp here).1
    obtain ⟨i, decoded, listed⟩ := found k inside
    cases here.symm.trans listed
    exact ⟨inside, rfl, decoded⟩
  · rintro ⟨inside, same, decoded⟩
    obtain ⟨i, decoded', listed⟩ := found k inside
    rw [same] at decoded' listed
    cases decoded.symm.trans decoded'
    exact listed

/-- The offsets of the walk are the marks but the last. -/
theorem mem_offsets {offset : Nat} : offset ∈ code.walk.offsets ↔ ∃ j < count, mark j = offset := by
  constructor
  · intro member
    obtain ⟨entry, listed, rfl⟩ := List.mem_map.mp member
    obtain ⟨j, here⟩ := List.mem_iff_getElem?.mp listed
    obtain ⟨inside, same, -⟩ := divides.listed.mp here
    exact ⟨j, inside, same⟩
  · rintro ⟨j, inside, rfl⟩
    obtain ⟨i, decoded⟩ := divides.decodes j inside
    have here : code.walk.instructions[j]? = some (mark j, i) :=
      divides.listed.mpr ⟨inside, rfl, decoded⟩
    exact List.mem_map.mpr ⟨_, List.mem_of_getElem? here, rfl⟩

theorem lands_iff {k : Nat} {entry : Nat × Instruction}
    (here : code.walk.instructions[k]? = some entry) :
    code.Lands count mark k ↔ code.walk.Settles entry.2 := by
  obtain ⟨-, same, decoded⟩ := divides.listed.mp here
  rw [Lands, same]
  constructor
  · intro lands target targets
    exact divides.mem_offsets.mpr (lands _ _ target decoded targets)
  · intro settles i next target decoded' targets
    cases decoded.symm.trans decoded'
    exact divides.mem_offsets.mp (settles target targets)

theorem startsWithJump_iff (filled : 0 < count) :
    code.walk.startsWithJump = true ↔ code.JumpsFirst := by
  obtain ⟨i, decoded⟩ := divides.decodes 0 filled
  have first : code.walk.instructions[0]? = some (mark 0, i) :=
    divides.listed.mpr ⟨filled, rfl, decoded⟩
  rw [divides.starts] at first decoded
  rw [JumpsFirst, Walk.startsWithJump]
  cases listing : code.walk.instructions with
  | nil => simp [listing] at first
  | cons entry rest =>
    obtain rfl : entry = (0, i) := by simpa [listing] using first
    rw [decoded]
    cases i <;> simp

theorem straight_iff : code.walk.strayTransfer? = none ↔ ∀ k < count, code.Lands count mark k := by
  rw [Walk.strayTransfer?_eq_none]
  constructor
  · intro settles k inside
    obtain ⟨i, decoded⟩ := divides.decodes k inside
    have here : code.walk.instructions[k]? = some (mark k, i) :=
      divides.listed.mpr ⟨inside, rfl, decoded⟩
    exact (divides.lands_iff here).mpr (settles _ (List.mem_of_getElem? here))
  · intro lands entry member
    obtain ⟨k, here⟩ := List.mem_iff_getElem?.mp member
    exact (divides.lands_iff here).mp (lands k (divides.listed.mp here).1)

theorem stray_iff {offset target : Nat} {i : Instruction} :
    code.walk.strayTransfer? = some (offset, i, target) ↔
      ∃ k < count, mark k = offset ∧ code.decodeAt offset = .ok (i, mark (k + 1)) ∧
        i.target? = some target ∧ (∀ j < count, mark j ≠ target) ∧
        ∀ j < k, code.Lands count mark j := by
  rw [Walk.strayTransfer?_eq_some]
  constructor
  · rintro ⟨before, after, whole, ⟨targets, nowhere⟩, settles⟩
    have here : code.walk.instructions[before.length]? = some (offset, i) := by simp [whole]
    obtain ⟨inside, same, decoded⟩ := divides.listed.mp here
    refine ⟨before.length, inside, same, decoded, targets, fun j below lands => ?_,
      fun j below => ?_⟩
    · exact nowhere (divides.mem_offsets.mpr ⟨j, below, lands⟩)
    · have earlier : code.walk.instructions[j]? = some before[j] := by
        rw [whole, List.getElem?_append_left below, List.getElem?_eq_getElem below]
      exact (divides.lands_iff earlier).mpr (settles _ (List.getElem_mem below))
  · rintro ⟨k, inside, same, decoded, targets, nowhere, lands⟩
    have here : code.walk.instructions[k]? = some (offset, i) :=
      divides.listed.mpr ⟨inside, same, decoded⟩
    obtain ⟨bounded, found⟩ := List.getElem?_eq_some_iff.mp here
    refine ⟨code.walk.instructions.take k, code.walk.instructions.drop (k + 1), ?_,
      ⟨targets, ?_⟩, ?_⟩
    · rw [← found, List.getElem_cons_drop, List.take_append_drop]
    · intro member
      obtain ⟨j, below, lands⟩ := divides.mem_offsets.mp member
      exact nowhere j below lands
    · intro entry member
      obtain ⟨j, taken⟩ := List.mem_iff_getElem?.mp member
      have below : j < k := by
        have bound := (List.getElem?_eq_some_iff.mp taken).1
        rw [List.length_take] at bound
        omega
      rw [List.getElem?_take_of_lt below] at taken
      exact (divides.lands_iff taken).mp (lands j below)

end Divides

/-- Verification accepts exactly the buffers that can be divided into instructions of which the
first is a jump and no one has a target where none of them starts, and it counts them. It reports a
bad target exactly if the buffer can be divided and starts with a jump but some instruction has such
a target; the one reported is the first. -/
theorem verify_exact (code : Bytecode) :
    (∀ n, code.verify = .ok n ↔ 1 ≤ n ∧ ∃ mark, code.Divides 0 n mark ∧ code.JumpsFirst ∧
      ∀ k < n, code.Lands n mark k) ∧
    ∀ op offset target, code.verify = .error (.badTarget op offset target) ↔
      ∃ n mark, code.Divides 0 n mark ∧ code.JumpsFirst ∧ ∃ k < n, ∃ i, mark k = offset ∧
        code.decodeAt offset = .ok (i, mark (k + 1)) ∧ i.opcode = op ∧ i.target? = some target ∧
        (∀ j < n, mark j ≠ target) ∧ ∀ j < k, code.Lands n mark j := by
  constructor
  · intro n
    rw [verify_eq_ok]
    constructor
    · rintro ⟨filled, jumps, faultless, straight, rfl⟩
      obtain ⟨mark, divides⟩ := exists_divides (Nat.zero_le _) (Nat.le_add_left _ _) faultless
      have some := divides.filled_iff.mpr filled
      exact ⟨some, mark, divides, (divides.startsWithJump_iff some).mp jumps,
        divides.straight_iff.mp straight⟩
    · rintro ⟨some, mark, divides, jumps, lands⟩
      obtain ⟨faultless, counted, -⟩ := divides.found (Nat.le_add_left _ _)
      exact ⟨divides.filled_iff.mp some, (divides.startsWithJump_iff some).mpr jumps, faultless,
        divides.straight_iff.mpr lands, counted⟩
  · intro op offset target
    rw [verify_eq_badTarget]
    constructor
    · rintro ⟨filled, jumps, faultless, i, stray, opcode⟩
      obtain ⟨mark, divides⟩ := exists_divides (Nat.zero_le _) (Nat.le_add_left _ _) faultless
      have some := divides.filled_iff.mpr filled
      obtain ⟨k, inside, same, decoded, targets⟩ := divides.stray_iff.mp stray
      exact ⟨_, mark, divides, (divides.startsWithJump_iff some).mp jumps, k, inside, i,
        same, decoded, opcode, targets⟩
    · rintro ⟨n, mark, divides, jumps, k, inside, i, same, decoded, opcode, targets⟩
      have some := Nat.zero_lt_of_lt inside
      obtain ⟨faultless, -, -⟩ := divides.found (Nat.le_add_left _ _)
      exact ⟨divides.filled_iff.mp some, (divides.startsWithJump_iff some).mpr jumps, faultless, i,
        divides.stray_iff.mpr ⟨k, inside, same, decoded, targets⟩, opcode⟩

end Primer.Bytecode
