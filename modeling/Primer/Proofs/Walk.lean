import Primer.Proofs.Flow
import Primer.Verification

/-!
Buffers that consist of encoded instructions. Such a buffer spells its fragment: at every offset
where an instruction of the fragment starts, that instruction is decoded. Walking through it finds
these instructions and no fault, and it is accepted when every transfer of control leads to one of
them.
-/

set_option autoImplicit false
set_option relaxedAutoImplicit false

namespace Primer

namespace Fragment

/-- The instructions with their offsets, the first at a given one. -/
def listing : Nat → Fragment → List (Nat × Instruction)
  | _, [] => []
  | offset, i :: rest => (offset, i) :: listing (offset + i.size) rest

@[simp] theorem length_listing (offset : Nat) (code : Fragment) :
    (listing offset code).length = code.length := by
  induction code generalizing offset with
  | nil => rfl
  | cons i rest ih => simp [listing, ih]

theorem listing_append (offset : Nat) (first second : Fragment) :
    listing offset (first ++ second) = listing offset first ++
      listing (offset + size first) second := by
  induction first generalizing offset with
  | nil => rfl
  | cons i first ih => simp [listing, ih, Nat.add_assoc]

/-- What is listed is what stands at the offset. -/
theorem mem_listing {start offset : Nat} {i : Instruction} {code : Fragment} :
    (offset, i) ∈ listing start code ↔ ∃ rest, offset = start + rest ∧ at? code rest = some i := by
  induction code generalizing start with
  | nil => simp [listing, at?]
  | cons first more ih =>
    have positive := first.size_pos
    rw [listing, List.mem_cons, ih]
    constructor
    · rintro (same | ⟨rest, rfl, found⟩)
      · cases same
        exact ⟨0, rfl, by simp [at?]⟩
      · refine ⟨first.size + rest, by omega, ?_⟩
        rw [at?, if_neg (by omega), if_neg (by omega), Nat.add_sub_cancel_left]
        exact found
    · rintro ⟨rest, rfl, found⟩
      rw [at?] at found
      by_cases start' : rest = 0
      · rw [if_pos start', Option.some.injEq] at found
        exact .inl (by rw [start', found]; rfl)
      · rw [if_neg start'] at found
        by_cases within : rest < first.size
        · rw [if_pos within] at found
          cases found
        · rw [if_neg within] at found
          exact .inr ⟨rest - first.size, by omega, found⟩

/-- An instruction starts at a boundary that is not the end. -/
theorem Boundary.at?_isSome {code : Fragment} {offset : Nat} (cut : Boundary code offset)
    (inside : offset < size code) : ∃ i, at? code offset = some i := by
  obtain ⟨before, after, rfl, rfl⟩ := cut
  cases after with
  | nil => simp at inside
  | cons i after => exact ⟨i, by rw [at?_append_beyond (Nat.add_zero _)]; simp [at?]⟩

theorem Boundary.mem_listing {code : Fragment} {offset : Nat} (cut : Boundary code offset)
    (inside : offset < size code) (start : Nat) :
    start + offset ∈ (listing start code).map Prod.fst := by
  obtain ⟨i, found⟩ := cut.at?_isSome inside
  exact List.mem_map.mpr ⟨(start + offset, i), Fragment.mem_listing.mpr ⟨offset, rfl, found⟩, rfl⟩

end Fragment

namespace Bytecode

/-- Reading from a base on gives the instructions of the fragment. -/
structure Spells (code : Bytecode) (base : Nat) (fragment : Fragment) : Prop where
  decodes : ∀ offset i, fragment.at? offset = some i →
    code.decodeAt (base + offset) = .ok (i, base + offset + i.size)
  fits : base + fragment.size ≤ code.size

namespace Spells

variable {code : Bytecode} {base : Nat} {first second : Fragment}

theorem left (spells : code.Spells base (first ++ second)) : code.Spells base first := by
  refine ⟨fun offset i found => spells.decodes offset i ?_, ?_⟩
  · have := Fragment.lt_size_of_at? found
    have positive := i.size_pos
    rwa [Fragment.at?_append_left (by omega)]
  · have := spells.fits
    rw [Fragment.size_append] at this
    omega

theorem right (spells : code.Spells base (first ++ second)) :
    code.Spells (base + first.size) second := by
  refine ⟨fun offset i found => ?_, ?_⟩
  · have there := spells.decodes (first.size + offset) i (by rwa [Fragment.at?_append_right])
    rwa [← Nat.add_assoc] at there
  · have := spells.fits
    rw [Fragment.size_append] at this
    omega

theorem head {i : Instruction} {rest : Fragment} (spells : code.Spells base (i :: rest)) :
    code.decodeAt base = .ok (i, base + i.size) :=
  spells.decodes 0 i (by simp [Fragment.at?])

end Spells

theorem spells_of_holds {code : Bytecode} {base : Nat} {fragment : Fragment}
    (held : code.Holds base fragment.bytes) (whole : base + fragment.size ≤ code.size)
    (passes : ∀ i ∈ fragment, i.check = .ok ())
    (small : ∀ i ∈ fragment, ∀ target, i.target? = some target → target < 0x80000000) :
    code.Spells base fragment := by
  refine ⟨?_, whole⟩
  induction fragment generalizing base with
  | nil => intro offset i found; cases found
  | cons first rest ih =>
    rw [Fragment.bytes, List.flatMap_cons, holds_append] at held
    obtain ⟨here, later⟩ := held
    rw [Fragment.size_cons] at whole
    have tail := ih later (show base + first.size + Fragment.size rest ≤ code.size by omega)
      (fun i member => passes i (List.mem_cons_of_mem _ member))
      (fun i member => small i (List.mem_cons_of_mem _ member))
    intro offset i found
    rw [Fragment.at?] at found
    by_cases start : offset = 0
    · rw [if_pos start, Option.some.injEq] at found
      subst found start
      exact decodeAt_write (passes first List.mem_cons_self) (small first List.mem_cons_self) here
    · rw [if_neg start] at found
      by_cases within : offset < first.size
      · rw [if_pos within] at found
        cases found
      · rw [if_neg within] at found
        have there := tail (offset - first.size) i found
        have sum : base + first.write.length + (offset - first.size) = base + offset := by
          have : first.write.length = first.size := rfl
          omega
        rwa [sum] at there

/-- A buffer made from a fragment spells it. -/
theorem spells_ofList {fragment : Fragment} (passes : ∀ i ∈ fragment, i.check = .ok ())
    (small : ∀ i ∈ fragment, ∀ target, i.target? = some target → target < 0x80000000) :
    (ofList fragment.bytes).Spells 0 fragment := by
  refine spells_of_holds ?_ ?_ passes small
  · simp [Holds, ofList]
  · simp [size, ofList, Fragment.length_bytes]

/-- Walking finds the instructions that the buffer spells from an offset on, and goes on behind
them. -/
theorem walkFrom_front {code : Bytecode} {base : Nat} {front : Fragment}
    (spells : code.Spells base front) (fuel : Nat) :
    code.walkFrom (front.length + fuel) base =
      ⟨front.listing base ++ (code.walkFrom fuel (base + front.size)).instructions,
        (code.walkFrom fuel (base + front.size)).fault⟩ := by
  induction front generalizing base with
  | nil => simp only [List.length_nil, Nat.zero_add, Fragment.listing, List.nil_append,
      Fragment.size_nil, Nat.add_zero]
  | cons i rest ih =>
    have positive := i.size_pos
    have fits := spells.fits
    rw [Fragment.size_cons] at fits
    have next : code.Spells (base + i.size) rest := by
      have split : code.Spells base ([i] ++ rest) := spells
      simpa using split.right
    rw [List.length_cons, Nat.add_right_comm]
    simp only [walkFrom, if_pos (show base < code.size by omega), spells.head, ih next,
      Fragment.listing, Fragment.size_cons, Nat.add_assoc, List.cons_append]

theorem length_le_size (fragment : Fragment) : fragment.length ≤ fragment.size := by
  induction fragment with
  | nil => exact Nat.le_refl _
  | cons i rest ih =>
    have positive := i.size_pos
    rw [List.length_cons, Fragment.size_cons]
    omega

/-- Walking through a buffer finds the instructions that it spells in front, and goes on behind
them. -/
theorem walk_front {code : Bytecode} {front : Fragment} (spells : code.Spells 0 front) :
    ∃ fuel, code.size - front.size ≤ fuel ∧ code.walk =
      ⟨front.listing 0 ++ (code.walkFrom fuel front.size).instructions,
        (code.walkFrom fuel front.size).fault⟩ := by
  have short := length_le_size front
  have fits := spells.fits
  refine ⟨code.size - front.length, by omega, ?_⟩
  have walked := walkFrom_front spells (code.size - front.length)
  rw [Nat.zero_add, Nat.add_sub_cancel' (by omega)] at walked
  exact walked

theorem walkFrom_end (code : Bytecode) (fuel : Nat) : code.walkFrom fuel code.size = {} := by
  cases fuel with
  | zero => rfl
  | succ fuel => rw [walkFrom, if_neg (Nat.lt_irrefl _)]

/-- Walking through a buffer finds the instructions that it spells. -/
theorem walk_spells {code : Bytecode} {fragment : Fragment} (spells : code.Spells 0 fragment)
    (whole : fragment.size = code.size) : code.walk = ⟨fragment.listing 0, none⟩ := by
  obtain ⟨fuel, -, walked⟩ := walk_front spells
  rw [whole, walkFrom_end, List.append_nil] at walked
  exact walked

/-- Code that starts with a jump and passes control only to its own instructions is accepted. -/
theorem verify_spells {code : Bytecode} {fragment : Fragment} {entry : Nat} {rest : Fragment}
    (spells : code.Spells 0 fragment) (whole : fragment.size = code.size)
    (starts : fragment = .jump entry :: rest)
    (placed : ∀ i ∈ fragment, ∀ target, i.target? = some target →
      fragment.Boundary target ∧ target < fragment.size) :
    code.verify = .ok fragment.length := by
  have walked := walk_spells spells whole
  have filled : code.size ≠ 0 := by
    rw [← whole, starts, Fragment.size_cons, Instruction.size_jump, Fragment.jumpSize_eq]
    omega
  have jumps : code.walk.startsWithJump = true := by
    rw [walked, starts]
    rfl
  have straight : code.walk.strayTransfer? = none := by
    rw [walked, Walk.strayTransfer?, List.findSome?_eq_none_iff]
    rintro ⟨offset, i⟩ member
    obtain ⟨place, -, found⟩ := Fragment.mem_listing.mp member
    cases target : i.target? with
    | none => simp only [target]
    | some target' =>
      obtain ⟨cut, inside⟩ := placed i (Fragment.mem_of_at? found) target' target
      have there := cut.mem_listing inside 0
      rw [Nat.zero_add] at there
      simp only [target, List.contains_iff_mem.mpr there, if_true]
  have faultless : code.walk.fault = none := by rw [walked]
  have count : code.walk.instructions.length = fragment.length := by
    rw [walked, Fragment.length_listing]
  simp only [verify, if_neg filled, jumps, Bool.not_true, Bool.false_eq_true, if_false, straight,
    faultless, count]

end Bytecode

end Primer
