import Primer.Proofs.Walk

/-!
Streams of instructions. What has an encoded form is said without the encoder: no value inside is
void, and no string or list is longer than its length field can tell. The encoded forms of such
instructions, one after another, are walked through one by one; an address that is too large for its
signed field stops the walk where it stands.
-/

set_option autoImplicit false
set_option relaxedAutoImplicit false

namespace Primer

theorem EncodeFault.checkLength_eq_ok (what : Sequence) {length : Nat} (short : length ≤ 65535) :
    checkLength what length = .ok () := if_pos short

/-- Nothing in the value is void, and no string and no list in it is too long. -/
inductive Value.Encodable : Value → Prop
  | number (n : Number) : Encodable (.number n)
  | boolean (b : Bool) : Encodable (.boolean b)
  | string {s : String} (short : Text.unitCount s.toList ≤ 65535) : Encodable (.string s)
  | list {items : List Value} (short : items.length ≤ 65535)
      (inner : ∀ item ∈ items, Encodable item) :
      Encodable (.list items)

theorem Value.Encodable.check {v : Value} (encodable : v.Encodable) : v.check = .ok () := by
  induction encodable with
  | number | boolean => rfl
  | string short => exact EncodeFault.checkLength_eq_ok .string short
  | @list items short inner ih =>
    have all : checkItems items = .ok () := by
      clear short inner
      induction items with
      | nil => rfl
      | cons item items next =>
        rw [checkItems, ih item List.mem_cons_self]
        exact next fun other member => ih other (List.mem_cons_of_mem item member)
    rw [Value.check, EncodeFault.checkLength_eq_ok .list short]
    exact all

/-- The value or the name in the instruction, if there is one, has an encoded form. -/
def Instruction.Encodable : Instruction → Prop
  | push value => value.Encodable
  | callHost name => Text.unitCount name.toList ≤ 65535
  | _ => True

theorem Instruction.Encodable.check {i : Instruction} (encodable : i.Encodable) :
    i.check = .ok () := by
  cases i with
  | push value => exact Value.Encodable.check encodable
  | callHost name => exact EncodeFault.checkLength_eq_ok .string encodable
  | _ => rfl

theorem Instruction.Encodable.encode {i : Instruction} (encodable : i.Encodable) :
    i.encode = .ok i.write := by
  rw [Instruction.encode, encodable.check]
  rfl

/-- Only pushed values and names can be without an encoded form. -/
theorem Instruction.encodable_of_target? {i : Instruction} {address : Nat}
    (target : i.target? = some address) : i.Encodable := by
  cases i <;> trivial

/-- Each instruction is listed at the offset where those before it end. -/
theorem Fragment.getElem?_listing (start : Nat) (code : Fragment) (k : Nat) :
    (listing start code)[k]? = code[k]?.map fun i =>
    (start + (Fragment.bytes (code.take k)).length, i) := by
  induction code generalizing start k with
  | nil => rfl
  | cons i rest ih =>
    cases k with
    | zero => rfl
    | succ k =>
      rw [listing, List.getElem?_cons_succ, ih, List.getElem?_cons_succ, List.take_succ_cons]
      simp only [length_bytes, size_cons, Nat.add_assoc]

namespace Bytecode

/-- The walk found the instructions, each at the offset where the encoded forms of those before it
end. -/
def Walk.Finds (walk : Walk) (front : Fragment) : Prop :=
  ∀ k, walk.instructions[k]? = front[k]?.map fun i => ((Fragment.bytes (front.take k)).length, i)

theorem finds_listing {front : Fragment} {fault : Option DecodeFault} :
    Walk.Finds ⟨front.listing 0, fault⟩ front := by
  intro k
  rw [Fragment.getElem?_listing]
  simp only [Nat.zero_add]

/-- A buffer that starts with the encoded forms of instructions spells them, whatever follows. -/
theorem spells_append {front : Fragment} (passes : ∀ i ∈ front, i.check = .ok ())
    (small : ∀ i ∈ front, ∀ target, i.target? = some target → target < 0x80000000)
    (rest : List UInt8) : (ofList (front.bytes ++ rest)).Spells 0 front := by
  refine spells_of_holds ?_ ?_ passes small
  · simp [Holds, ofList]
  · simp [size, ofList, Fragment.length_bytes]

/-- The walk ends at the first instruction that is not decoded. -/
theorem walk_faulty {code : Bytecode} {front : Fragment} {fault : DecodeFault}
    (spells : code.Spells 0 front) (inside : front.size < code.size)
    (failed : code.decodeAt front.size = .error fault) :
    code.walk = ⟨front.listing 0, some fault⟩ := by
  obtain ⟨fuel, enough, walked⟩ := walk_front spells
  have here : code.walkFrom fuel front.size = ⟨[], some fault⟩ := by
    obtain ⟨less, rfl⟩ : ∃ less, fuel = less + 1 := ⟨fuel - 1, by omega⟩
    rw [walkFrom, if_pos inside, failed]
  rw [here, List.append_nil] at walked
  exact walked

/-- Instructions that have encoded forms, and whose addresses fit the signed field, are encoded, and
walking through the encoded forms gives each of them at the offset where those before it end, and
nothing else. A larger address is encoded too; decoding fails where it stands, and the walk ends
there whatever follows. -/
theorem walk_encoded {front : Fragment} (encodable : ∀ i ∈ front, i.Encodable)
    (near : ∀ i ∈ front, ∀ address, i.target? = some address → address < 0x80000000) :
    (∀ i ∈ front, i.encode = .ok i.write) ∧
    (ofList front.bytes).walk.Finds front ∧ (ofList front.bytes).walk.fault = none ∧
    ∀ (i : Instruction) (address : Nat), i.target? = some address → 0x80000000 ≤ address →
      address < 0x100000000 → i.encode = .ok i.write ∧ ∀ rest,
        (ofList (front.bytes ++ i.write ++ rest)).decodeAt front.bytes.length =
          .error (.badTarget address (front.bytes.length + 1)) ∧
        (ofList (front.bytes ++ i.write ++ rest)).walk.Finds front ∧
        (ofList (front.bytes ++ i.write ++ rest)).walk.fault =
          some (.badTarget address (front.bytes.length + 1)) := by
  have passes (i : Instruction) (member : i ∈ front) : i.check = .ok () :=
    (encodable i member).check
  have walked := walk_spells (spells_ofList passes near)
    (by simp [size, ofList, Fragment.length_bytes])
  refine ⟨fun i member => (encodable i member).encode, ?_, ?_,
    fun i address target large fits => ?_⟩
  · rw [walked]
    exact finds_listing
  · rw [walked]
  · refine ⟨(Instruction.encodable_of_target? target).encode, fun rest => ?_⟩
    have spells := spells_append passes near (i.write ++ rest)
    rw [← List.append_assoc] at spells
    have held : (ofList (front.bytes ++ i.write ++ rest)).Holds front.bytes.length i.write := by
      simp [Holds, ofList]
    have failed := decodeAt_beyond target large fits held
    have inside : front.size < (ofList (front.bytes ++ i.write ++ rest)).size := by
      have positive := i.size_pos
      simp only [size, ofList, List.size_toArray, List.length_append, Fragment.length_bytes]
      rw [Instruction.size] at positive
      omega
    rw [Fragment.length_bytes] at failed ⊢
    rw [walk_faulty spells inside failed]
    exact ⟨failed, finds_listing, rfl⟩

/-- A value with a list in a list, a name outside the first plane and the largest address; behind
them a call to the first address that does not fit. -/
theorem walk_encoded_mixed : ∃ front : Fragment,
    front = [.jump 0x7FFFFFFF, .push (.list [.number ⟨0x7FF8000000000001⟩, .list [.string "ß"]]),
      .callHost "𝄞", .makeList 65535, .ret] ∧
    (ofList front.bytes).walk.Finds front ∧ (ofList front.bytes).walk.fault = none ∧
    (Instruction.call 0x80000000).encode = .ok [21, 0, 0, 0, 128] ∧
    (ofList (front.bytes ++ (Instruction.call 0x80000000).write ++ [22])).walk.fault =
      some (.badTarget 0x80000000 (front.bytes.length + 1)) := by
  let front : Fragment := [.jump 0x7FFFFFFF,
    .push (.list [.number ⟨0x7FF8000000000001⟩, .list [.string "ß"]]), .callHost "𝄞",
    .makeList 65535, .ret]
  have inner : (Value.list [.string "ß"]).Encodable :=
    .list (by decide) (by simpa using Value.Encodable.string (by decide))
  have pushed : (Value.list [.number ⟨0x7FF8000000000001⟩, .list [.string "ß"]]).Encodable :=
    .list (by decide) (by simpa using ⟨Value.Encodable.number _, inner⟩)
  have encodable : ∀ i ∈ front, i.Encodable := by
    have named : Text.unitCount "𝄞".toList ≤ 65535 := by decide
    simpa [front, Instruction.Encodable] using ⟨pushed, named⟩
  have near : ∀ i ∈ front, ∀ address, i.target? = some address → address < 0x80000000 := by
    simp [front, Instruction.target?]
  obtain ⟨-, found, whole, beyond⟩ := walk_encoded encodable near
  obtain ⟨encoded, rest⟩ := beyond (.call 0x80000000) 0x80000000 rfl (by decide) (by decide)
  exact ⟨front, rfl, found, whole, encoded, (rest [22]).2.2⟩

end Bytecode

end Primer
