import Mathlib.Data.List.Induction
import Mathlib.Data.List.Pairwise
import Primer.Proofs.Concatenation
import Primer.Proofs.EncodedValues

/-!
Segments and the place where they end up. Whatever is done to a segment while it is built, its
relocated fields lie inside it and apart from each other, and they are those that were appended as
relocated since the segment was last cleared. So when the segment is placed behind a buffer, the
length of the buffer is added once to each of these fields, and no other byte changes.
-/

set_option autoImplicit false
set_option relaxedAutoImplicit false

namespace Primer

namespace Value

/-- What writing leaves behind some bytes: all that was to be written, or a part of it and the fault
that stopped it there. -/
def Wrote (bytes : Array UInt8) (whole : List UInt8) (result : Array UInt8 × Option EncodeFault) :
    Except EncodeFault Unit → Prop
  | .ok _ => result = (bytes ++ whole, none)
  | .error fault => ∃ part : List UInt8, result = (bytes ++ part, some fault)

/-- What is written behind other bytes is written behind them together with these. -/
theorem Wrote.behind {bytes : Array UInt8} {front whole : List UInt8}
    {result : Array UInt8 × Option EncodeFault} {outcome : Except EncodeFault Unit}
    (wrote : Wrote (bytes ++ front) whole result outcome) :
    Wrote bytes (front ++ whole) result outcome := by
  have joined (rest : List UInt8) : bytes ++ front ++ rest = bytes ++ (front ++ rest) :=
    Array.ext' (by simp)
  cases outcome with
  | ok => rwa [Wrote, ← joined]
  | error fault =>
    obtain ⟨part, stopped⟩ := wrote
    exact ⟨front ++ part, by rw [stopped, joined]⟩

theorem emitItems_wrote {items : List Value}
    (each : ∀ item ∈ items, ∀ bytes, Wrote bytes item.write (item.emit bytes) item.check)
    (bytes : Array UInt8) :
    Wrote bytes (writeItems items) (emitItems items bytes) (checkItems items) := by
  induction items generalizing bytes with
  | nil => simp [Wrote, checkItems, emitItems, writeItems]
  | cons item items ih =>
    have first := each item List.mem_cons_self bytes
    rw [checkItems, writeItems, emitItems]
    cases passes : item.check with
    | error fault =>
      rw [passes] at first
      obtain ⟨part, stopped⟩ := first
      exact ⟨part, by rw [stopped]⟩
    | ok =>
      rw [passes] at first
      rw [show item.emit bytes = _ from first]
      exact (ih (fun item member => each item (List.mem_cons_of_mem _ member)) _).behind

/-- A value that passes the check is written as a whole, and any other one up to the fault. -/
theorem emit_wrote (v : Value) (bytes : Array UInt8) :
    Wrote bytes v.write (v.emit bytes) v.check := by
  induction v using Value.induction generalizing bytes with
  | number | boolean => simp [Wrote, check, emit]
  | void => exact ⟨[], by simp [check, emit]⟩
  | string s =>
    cases passes : (string s).check with
    | error fault => exact ⟨[], by simp [emit, passes]⟩
    | ok => simp [Wrote, emit, passes]
  | list items ih =>
    rw [check, write, emit]
    cases short : EncodeFault.checkLength .list items.length with
    | error fault => exact ⟨[], by simp⟩
    | ok =>
      have rest := emitItems_wrote ih (bytes ++ (Ty.list.tag :: Bytes.little 2 items.length))
      exact rest.behind

end Value

namespace Segment

/-- A value is appended in its encoded form. One without an encoded form leaves the segment as it
was, however much of it had been written. -/
theorem emitValue_eq (s : Segment) (v : Value) : s.emitValue v =
    match v.encode with
    | .ok bytes => (s.append bytes, none)
    | .error fault => (s, some fault) := by
  have wrote := v.emit_wrote s.bytes
  rw [emitValue, Value.encode]
  cases passes : v.check with
  | error fault =>
    rw [passes] at wrote
    obtain ⟨part, stopped⟩ := wrote
    have cut : (s.bytes ++ part).take s.size = s.bytes := by
      apply Array.ext'
      simp [size]
    simp only [stopped, cut]
    rfl
  | ok =>
    rw [passes] at wrote
    simp only [show v.emit s.bytes = _ from wrote]
    rfl

/-! The building of a segment -/

/-- Something that is done to a segment while it is built. -/
inductive Edit where
  | opcode (op : Opcode)
  | byte (b : UInt8)
  | count (n : UInt16)
  | type (ty : Ty)
  | value (v : Value)
  | absolute (address : Nat)
  | relocated (offset : Nat)
  | reserve (moves : Bool)
  | patch (offset : Nat) (address : Int)
  | clear

namespace Edit

/-- A value without an encoded form is refused, and the building goes on. -/
def apply (s : Segment) : Edit → Segment
  | opcode op => s.opcode op
  | byte b => s.byte b
  | count n => s.count n
  | type ty => s.type ty
  | value v => (s.emitValue v).1
  | absolute address => s.absolute address
  | relocated offset => s.relocated offset
  | reserve moves => (s.reserve moves).2
  | patch offset address => s.patch offset address
  | clear => {}

/-- The edit appends an address that moves with the segment. -/
def moves : Edit → Bool
  | relocated _ => true
  | reserve moves => moves
  | _ => false

end Edit

theorem size_overwrite (bytes : Array UInt8) (offset : Nat) (new : List UInt8) :
    (overwrite bytes offset new).size = bytes.size := by
  induction new generalizing bytes offset with
  | nil => rfl
  | cons b new ih => rw [overwrite, ih, Array.size_setIfInBounds]

theorem size_patch (s : Segment) (offset : Nat) (address : Int) :
    (s.patch offset address).size = s.size := by
  rw [size, patch, size_overwrite, size]

theorem size_append (s : Segment) (bytes : List UInt8) :
    (s.append bytes).size = s.size + bytes.length := by
  simp [append, size, ← Array.length_toList]

/-- An edit starts the segment anew, or leaves what is there where it is, puts something behind it,
and notes the place if that is an address that moves. -/
theorem Edit.apply_cases (s : Segment) (edit : Edit) :
    (edit = .clear ∧ edit.apply s = {}) ∨
      edit ≠ .clear ∧ ∃ more, (edit.apply s).size = s.size + more ∧ (edit.moves = true → more = 4) ∧
        (edit.apply s).relocations = s.relocations ++ if edit.moves then [s.size] else [] := by
  have keeps {after : Segment} (more : Nat) (still : edit.moves = false)
      (sized : after.size = s.size + more) (same : after.relocations = s.relocations) :
      ∃ more, after.size = s.size + more ∧ (edit.moves = true → more = 4) ∧
        after.relocations = s.relocations ++ if edit.moves then [s.size] else [] :=
    ⟨more, sized, by simp [still], by simp [still, same]⟩
  cases edit with
  | clear => exact .inl ⟨rfl, rfl⟩
  | opcode | byte | type => exact .inr ⟨by simp, keeps 1 rfl (s.size_append _) rfl⟩
  | count n => exact .inr ⟨by simp, keeps 2 rfl (s.size_append _) rfl⟩
  | absolute address => exact .inr ⟨by simp, keeps 4 rfl (s.size_append _) rfl⟩
  | relocated offset => exact .inr ⟨by simp, 4, s.size_append _, fun _ => rfl, rfl⟩
  | reserve moves =>
    cases moves with
    | false => exact .inr ⟨by simp, keeps 4 rfl (s.size_append _) rfl⟩
    | true => exact .inr ⟨by simp, 4, s.size_append _, fun _ => rfl, rfl⟩
  | patch offset address =>
    rw [apply]
    exact .inr ⟨by simp, keeps 0 rfl (by rw [size_patch, Nat.add_zero]) (by rw [Segment.patch])⟩
  | value v =>
    rw [apply, emitValue_eq]
    cases v.encode with
    | error fault => exact .inr ⟨by simp, keeps 0 rfl rfl rfl⟩
    | ok bytes => exact .inr ⟨by simp, keeps _ rfl (s.size_append bytes) rfl⟩

/-- The segment that a series of edits makes. -/
def built (edits : List Edit) : Segment := edits.foldl Edit.apply {}

theorem built_append (edits : List Edit) (edit : Edit) :
    built (edits ++ [edit]) = edit.apply (built edits) :=
  List.foldl_append

/-- A field stands at an offset that was appended as relocated when the segment had come to there,
and the segment was not cleared since. -/
def Relocates (edits : List Edit) (offset : Nat) : Prop :=
  ∃ earlier edit later, edits = earlier ++ edit :: later ∧ edit.moves = true ∧ .clear ∉ later ∧
    offset = (built earlier).size

/-- After one more edit there are the same fields and the one that it appends; a clear leaves
none. -/
theorem relocates_append {edits : List Edit} {edit : Edit} {offset : Nat} :
    Relocates (edits ++ [edit]) offset ↔
      edit ≠ .clear ∧
      (Relocates edits offset ∨ edit.moves = true ∧ offset = (built edits).size) := by
  constructor
  · rintro ⟨earlier, moving, later, whole, moves, kept, rfl⟩
    rcases List.eq_nil_or_concat later with rfl | ⟨between, last, rfl⟩
    · obtain ⟨rfl, same⟩ := List.append_inj' whole rfl
      cases same
      refine ⟨?_, .inr ⟨moves, rfl⟩⟩
      rintro rfl
      cases moves
    · rw [List.concat_eq_append, ← List.cons_append, ← List.append_assoc] at whole
      obtain ⟨rfl, same⟩ := List.append_inj' whole rfl
      cases same
      rw [List.concat_eq_append, List.mem_append, List.mem_singleton, not_or] at kept
      exact ⟨Ne.symm kept.2, .inl ⟨earlier, moving, between, rfl, moves, kept.1, rfl⟩⟩
  · rintro ⟨kept, ⟨earlier, moving, later, rfl, moves, before, rfl⟩ | ⟨moves, rfl⟩⟩
    · refine ⟨earlier, moving, later ++ [edit], by simp, moves, ?_, rfl⟩
      rw [List.mem_append, List.mem_singleton, not_or]
      exact ⟨before, Ne.symm kept⟩
    · exact ⟨edits, edit, [], rfl, moves, List.not_mem_nil, rfl⟩

/-- The offsets that a segment keeps are those of the fields that were appended as relocated. -/
theorem mem_relocations_built {edits : List Edit} {offset : Nat} :
    offset ∈ (built edits).relocations ↔ Relocates edits offset := by
  induction edits using List.reverseRecOn with
  | nil =>
    constructor
    · intro member
      cases member
    · rintro ⟨earlier, edit, later, whole, -⟩
      simp at whole
  | append_singleton edits edit ih =>
    rw [built_append, relocates_append]
    rcases edit.apply_cases (built edits) with ⟨rfl, cleared⟩ | ⟨kept, more, -, -, relocations⟩
    · simp [cleared]
    · rw [relocations, List.mem_append, ih]
      cases edit.moves <;> simp [kept]

/-- The relocated fields lie inside of the segment, in the order of their offsets and apart from
each other. -/
structure Sound (s : Segment) : Prop where
  inside : ∀ offset ∈ s.relocations, offset + 4 ≤ s.size
  apart : s.relocations.Pairwise fun first second => first + 4 ≤ second

theorem Sound.apply {s : Segment} (sound : s.Sound) (edit : Edit) : (edit.apply s).Sound := by
  rcases edit.apply_cases s with ⟨-, cleared⟩ | ⟨-, more, sized, four, relocations⟩
  · rw [cleared]
    exact ⟨by simp, .nil⟩
  · constructor
    · intro offset member
      rw [relocations, List.mem_append] at member
      rw [sized]
      rcases member with old | new
      · have := sound.inside offset old
        omega
      · cases moves : edit.moves with
        | false => simp [moves] at new
        | true =>
          have := four moves
          simp only [moves, if_true, List.mem_singleton] at new
          omega
    · rw [relocations, List.pairwise_append]
      refine ⟨sound.apart, by cases edit.moves <;> simp, fun first old second new => ?_⟩
      cases moves : edit.moves with
      | false => simp [moves] at new
      | true =>
        simp only [moves, if_true, List.mem_singleton] at new
        rw [new]
        exact sound.inside first old

theorem sound_built (edits : List Edit) : (built edits).Sound := by
  induction edits using List.reverseRecOn with
  | nil => exact ⟨fun _ member => absurd member List.not_mem_nil, .nil⟩
  | append_singleton edits edit ih => exact built_append edits edit ▸ ih.apply edit

/-! Fields that are moved -/

variable {bytes other : Array UInt8} {offset distance : Nat}

/-- The byte is one of a field. -/
def Covers (offset i : Nat) : Prop := offset ≤ i ∧ i < offset + 4

theorem field_congr {offset' : Nat} (same : ∀ i < 4, bytes[offset + i]? = other[offset' + i]?) :
    field bytes offset = field other offset' := by
  rw [field, field]
  congr 1
  refine List.ext_getElem? fun i => ?_
  by_cases within : i < 4
  · simpa [within] using same i within
  · rw [List.getElem?_eq_none, List.getElem?_eq_none] <;> simp <;> omega

theorem getElem?_overwrite (bytes : Array UInt8) (offset : Nat) (new : List UInt8) (i : Nat)
    (outside : ¬(offset ≤ i ∧ i < offset + new.length)) :
    (overwrite bytes offset new)[i]? = bytes[i]? := by
  induction new generalizing bytes offset with
  | nil => rfl
  | cons b new ih =>
    rw [List.length_cons] at outside
    rw [overwrite, ih _ _ (by omega), Array.getElem?_setIfInBounds_ne (by omega)]

theorem size_move (distance : Nat) (bytes : Array UInt8) (offset : Nat) :
    (move distance bytes offset).size = bytes.size :=
  size_overwrite ..

theorem getElem?_move {i : Nat} (outside : ¬Covers offset i) :
    (move distance bytes offset)[i]? = bytes[i]? :=
  getElem?_overwrite _ _ _ _ (by rwa [Bytes.length_little])

theorem field_move_apart {place : Nat} (apart : offset + 4 ≤ place ∨ place + 4 ≤ offset) :
    field (move distance bytes offset) place = field bytes place :=
  field_congr fun i within => getElem?_move (by simp only [Covers]; omega)

/-- A field that is moved holds what it held and the distance, as far as it can tell. -/
theorem field_move (inside : offset + 4 ≤ bytes.size) :
    field (move distance bytes offset) offset = (field bytes offset + distance) % 0x100000000 := by
  obtain ⟨less, old, more, whole, rfl, four⟩ : ∃ less old more : List UInt8,
      bytes = (less ++ old ++ more).toArray ∧ less.length = offset ∧ old.length = 4 := by
    refine ⟨bytes.toList.take offset, (bytes.toList.drop offset).take 4,
      bytes.toList.drop (offset + 4), ?_, ?_, ?_⟩
    · apply Array.ext'
      rw [List.append_assoc, ← List.drop_drop, List.take_append_drop, List.take_append_drop]
    · simp
      omega
    · simp
      omega
  rw [move, whole, overwrite_between less old more (by rw [four, Bytes.length_little]),
    field_between _ _ (Bytes.length_little ..), Bytes.value_little]

section Moves

variable {fields : List Nat}

theorem size_moves : (fields.foldl (move distance) bytes).size = bytes.size := by
  induction fields generalizing bytes with
  | nil => rfl
  | cons first rest ih => rw [List.foldl_cons, ih, size_move]

theorem getElem?_moves {i : Nat} (outside : ∀ place ∈ fields, ¬Covers place i) :
    (fields.foldl (move distance) bytes)[i]? = bytes[i]? := by
  induction fields generalizing bytes with
  | nil => rfl
  | cons first rest ih =>
    rw [List.forall_mem_cons] at outside
    rw [List.foldl_cons, ih outside.2, getElem?_move outside.1]

/-- Fields that are moved one after another hold what they held and the distance, each on its
own. -/
theorem field_moves (apart : fields.Pairwise fun first second => first + 4 ≤ second)
    (inside : ∀ place ∈ fields, place + 4 ≤ bytes.size) {place : Nat} (member : place ∈ fields) :
    field (fields.foldl (move distance) bytes) place =
      (field bytes place + distance) % 0x100000000 := by
  induction fields generalizing bytes with
  | nil => cases member
  | cons first rest ih =>
    rw [List.pairwise_cons] at apart
    rw [List.forall_mem_cons] at inside
    rw [List.foldl_cons]
    rcases List.mem_cons.mp member with rfl | later
    · have kept : field (rest.foldl (move distance) (move distance bytes place)) place =
          field (move distance bytes place) place := by
        refine field_congr fun i within => getElem?_moves fun next isNext => ?_
        have := apart.1 next isNext
        simp only [Covers]
        omega
      rw [kept, field_move inside.1]
    · rw [ih apart.2 (fun next isNext => by rw [size_move]; exact inside.2 next isNext) later,
        field_move_apart (.inl (apart.1 place later))]

end Moves

/-- The signed number in the four-byte field at an offset. -/
def address (bytes : Array UInt8) (offset : Nat) : Int := Int.bmod (field bytes offset) 0x100000000

/-- A segment placed behind a buffer, with fields that move. -/
structure Placed (s : Segment) (relocates : Nat → Prop) (out : Array UInt8) : Prop where
  size : (s.placeAfter out).size = out.size + s.size
  before : ∀ i < out.size, (s.placeAfter out)[i]? = out[i]?
  moved : ∀ offset, relocates offset →
    address (s.placeAfter out) (out.size + offset) = address s.bytes offset + out.size
  others : ∀ i < s.size, (∀ offset, relocates offset → ¬Covers offset i) →
    (s.placeAfter out)[out.size + i]? = s.bytes[i]?
  inside : ∀ offset, relocates offset → offset + 4 ≤ s.size
  apart : ∀ first second, relocates first → relocates second → first ≠ second →
    first + 4 ≤ second ∨ second + 4 ≤ first

/-- As long as the sum fits the field, the number in a field that is moved grows by the distance. -/
theorem address_of_moved {place : Nat}
    (moved : field other place = (field bytes offset + distance) % 0x100000000)
    (low : address bytes offset + distance < 0x80000000) :
    address other place = address bytes offset + distance := by
  unfold address at low ⊢
  rw [moved]
  generalize field bytes offset = n at low ⊢
  have least : -0x80000000 ≤ Int.bmod n 0x100000000 :=
    Int.le_bmod (x := (n : Int)) (m := 0x100000000) (by decide)
  have sum : Int.bmod ((n + distance) % 0x100000000 : Nat) 0x100000000 =
      (Int.bmod n 0x100000000 + distance).bmod 0x100000000 := by
    rw [Int.natCast_emod, Int.natCast_add, Int.bmod_add_bmod]
    exact Int.emod_bmod _ _
  rw [sum]
  exact Int.bmod_eq_of_le (by omega) (by omega)

variable {s : Segment}

/-- Where a segment is placed, its fields are those of the segment behind the buffer. -/
theorem getElem?_behind (s : Segment) (out : Array UInt8) (i : Nat) :
    (out ++ s.bytes)[out.size + i]? = s.bytes[i]? := by
  rw [Array.getElem?_append_right (by omega), Nat.add_sub_cancel_left]

theorem Sound.placed (sound : s.Sound) (out : Array UInt8)
    (low : ∀ offset ∈ s.relocations, address s.bytes offset + out.size < 0x80000000) :
    s.Placed (· ∈ s.relocations) out where
  size := by
    rw [placeAfter, size_moves, Array.size_append]
    rfl
  before i within := by
    rw [placeAfter, getElem?_moves, Array.getElem?_append_left within]
    intro place member
    obtain ⟨offset, -, rfl⟩ := List.mem_map.mp member
    simp only [Covers]
    omega
  moved offset member := by
    have behind : field (out ++ s.bytes) (out.size + offset) = field s.bytes offset :=
      field_congr fun i _ => by rw [Nat.add_assoc, getElem?_behind]
    have apart :
        (s.relocations.map (out.size + ·)).Pairwise fun first second => first + 4 ≤ second := by
      rw [List.pairwise_map]
      exact sound.apart.imp fun _ => by omega
    have inside :
        ∀ place ∈ s.relocations.map (out.size + ·), place + 4 ≤ (out ++ s.bytes).size := by
      intro place member
      obtain ⟨offset, known, rfl⟩ := List.mem_map.mp member
      have := sound.inside offset known
      simp only [Array.size_append]
      simp only [Segment.size] at this
      omega
    refine address_of_moved ?_ (low offset member)
    rw [placeAfter, field_moves apart inside (List.mem_map_of_mem member), behind]
  others i _ outside := by
    rw [placeAfter, getElem?_moves, getElem?_behind]
    intro place member
    obtain ⟨offset, known, rfl⟩ := List.mem_map.mp member
    have := outside offset known
    simp only [Covers] at this ⊢
    omega
  inside := sound.inside
  apart first second member member' different := by
    have either :
        s.relocations.Pairwise fun first second => first + 4 ≤ second ∨ second + 4 ≤ first :=
      sound.apart.imp .inl
    have : Std.Symm fun first second : Nat => first + 4 ≤ second ∨ second + 4 ≤ first :=
      ⟨fun _ _ => Or.symm⟩
    exact either.forall member member' different

/-- Whatever is done to a segment, placing it behind a buffer appends as many bytes as it has and
leaves the buffer as it was. The bytes that are appended are those of the segment, but for the
fields that were appended or reserved as relocated since the last clear: each of them holds the
number that it holds in the segment plus the length of the buffer, as long as these sums fit their
fields. No two of these fields have a byte in common, and all lie inside of the segment. A value
that is refused leaves the segment with the bytes and the fields that it had. -/
theorem placeAfter_built (edits : List Edit) (out : Array UInt8)
    (low : ∀ offset, Relocates edits offset →
      address (built edits).bytes offset + out.size < 0x80000000) :
    (built edits).Placed (Relocates edits) out ∧
      ∀ v after fault, (built edits).emitValue v = (after, some fault) → after = built edits := by
  constructor
  · have placed := (sound_built edits).placed out fun offset member =>
      low offset (mem_relocations_built.mp member)
    simpa only [mem_relocations_built] using placed
  · intro v after fault refused
    rw [emitValue_eq] at refused
    cases encoded : v.encode with
    | error =>
      rw [encoded] at refused
      exact (congrArg Prod.fst refused).symm
    | ok =>
      rw [encoded] at refused
      cases refused

/-- A jump whose target is reserved and patched, and a call, behind what was cleared. A list is
refused at its last item, when the first one is written already. -/
theorem placeAfter_built_patched :
    let edits : List Edit :=
    [.byte 7, .relocated 1, .clear, .opcode .jump, .reserve true, .opcode .call,
      .absolute 5, .value (.list [.boolean true, .void]), .patch 1 6]
    let out : Array UInt8 := #[0xAA, 0xBB]
    (∀ offset, Relocates edits offset ↔ offset = 1) ∧
      (∀ offset, Relocates edits offset →
        address (built edits).bytes offset + out.size < 0x80000000) ∧
      address ((built edits).placeAfter out) 3 = 8 ∧ ((built edits).placeAfter out)[8]? = some 5 ∧
      (built edits).emitValue (.list [.boolean true, .void]) = (built edits, some .void) := by
  intro edits out
  have fields : (built edits).relocations = [1] := by decide +kernel
  have only (offset : Nat) : Relocates edits offset ↔ offset = 1 := by
    rw [← mem_relocations_built, fields, List.mem_singleton]
  have low : ∀ offset, Relocates edits offset →
      address (built edits).bytes offset + out.size < 0x80000000 := by
    intro offset relocated
    rw [(only offset).mp relocated]
    decide +kernel
  obtain ⟨placed, refused⟩ := placeAfter_built edits out low
  refine ⟨only, low, ?_, ?_, ?_⟩
  · exact (placed.moved 1 ((only 1).mpr rfl)).trans (by decide +kernel)
  · refine (placed.others 6 (by decide +kernel) fun offset relocated => ?_).trans
      (by decide +kernel)
    rw [(only offset).mp relocated]
    simp [Covers]
  · have faulty : ((built edits).emitValue (.list [.boolean true, .void])).2 = some .void := by
      decide +kernel
    exact Prod.ext (refused _ _ _ (Prod.ext rfl faulty)) faulty

end Segment

end Primer
