import Primer.Bytecode

/-!
Reading back what was written. A buffer that holds the encoded form of an instruction at an offset
decodes there to that instruction, and the next offset is the one behind it.
-/

set_option autoImplicit false
set_option relaxedAutoImplicit false

namespace Primer

namespace Text

-- A character is one unit outside the surrogate range, or a pair inside it.
private theorem charUnits_cases (c : Char) :
    (∃ u : UInt16, charUnits c = [u] ∧ isHighSurrogate u = false ∧ isLowSurrogate u = false ∧
      Char.ofNat u.toNat = c) ∨
    (∃ high low : UInt16, charUnits c = [high, low] ∧ isHighSurrogate high = true ∧
      isLowSurrogate low = true ∧ pairChar high low = c) := by
  have valid : c.toNat < 0xD800 ∨ 0xDFFF < c.toNat ∧ c.toNat < 0x110000 := c.valid
  have same : Char.ofNat c.toNat = c := Char.ofNat_toNat c
  by_cases short : c.toNat < 0x10000
  · left
    have unit : (UInt16.ofNat c.toNat).toNat = c.toNat := by
      rw [UInt16.toNat_ofNat']; omega
    refine ⟨UInt16.ofNat c.toNat, by simp [charUnits, short], ?_, ?_, by rw [unit, same]⟩
    · simp only [isHighSurrogate, unit]
      rcases valid with below | ⟨above, -⟩ <;> simp <;> omega
    · simp only [isLowSurrogate, unit]
      rcases valid with below | ⟨above, -⟩ <;> simp <;> omega
  · right
    have high : (UInt16.ofNat (0xD800 + (c.toNat - 0x10000) / 0x400)).toNat =
        0xD800 + (c.toNat - 0x10000) / 0x400 := by
      rw [UInt16.toNat_ofNat']; omega
    have low : (UInt16.ofNat (0xDC00 + (c.toNat - 0x10000) % 0x400)).toNat =
        0xDC00 + (c.toNat - 0x10000) % 0x400 := by
      rw [UInt16.toNat_ofNat']; omega
    refine ⟨_, _, by simp only [charUnits, short, if_false]; rfl, ?_, ?_, ?_⟩
    · simp only [isHighSurrogate, high, Bool.and_eq_true, decide_eq_true_eq]
      omega
    · simp only [isLowSurrogate, low, Bool.and_eq_true, decide_eq_true_eq]
      omega
    · have whole : 0x10000 + (0xD800 + (c.toNat - 0x10000) / 0x400 - 0xD800) * 0x400 +
          (0xDC00 + (c.toNat - 0x10000) % 0x400 - 0xDC00) = c.toNat := by omega
      rw [pairChar, high, low, whole, same]

private theorem ofUnitsOnto_plain (done : List Char) (u : UInt16) (us : List UInt16)
    (high : isHighSurrogate u = false) (low : isLowSurrogate u = false) :
    ofUnitsOnto done (u :: us) = ofUnitsOnto (Char.ofNat u.toNat :: done) us := by
  cases us with
  | nil => simp [ofUnitsOnto, high, low]
  | cons v rest => simp [ofUnitsOnto, high, low]

private theorem ofUnitsOnto_units (cs done : List Char) :
    ofUnitsOnto done (units cs) = some (done.reverse ++ cs) := by
  induction cs generalizing done with
  | nil => simp [units, ofUnitsOnto]
  | cons c cs ih =>
    have split : units (c :: cs) = charUnits c ++ units cs := by simp [units]
    rcases charUnits_cases c with ⟨u, shape, high, low, back⟩ | ⟨u, v, shape, high, low, back⟩
    · rw [split, shape, List.singleton_append, ofUnitsOnto_plain done u _ high low, back, ih]
      simp
    · rw [split, shape]
      simp only [List.cons_append, List.nil_append, ofUnitsOnto, high, low, if_true, back]
      rw [ih]
      simp

/-- Every text is spelled by its units. -/
theorem ofUnits?_units (cs : List Char) : ofUnits? (units cs) = some cs := by
  simp [ofUnits?, ofUnitsOnto_units]

end Text

theorem Decoder.pure_ok {α : Type} (a : α) (offset : Nat) :
    (pure a : Decoder α) offset = .ok (a, offset) := rfl

/-- One read after another, when the first succeeds. -/
theorem Decoder.bind_ok {α β : Type} {first : Decoder α} {next : α → Decoder β}
    {offset after : Nat} {a : α} (done : first offset = .ok (a, after)) :
    (first >>= next) offset = next a after := by
  show (StateT.bind first next) offset = _
  unfold StateT.bind
  rw [done]
  rfl

/-- Nothing is read after what fails. -/
theorem Decoder.bind_error {α β : Type} {first : Decoder α} {next : α → Decoder β} {offset : Nat}
    {fault : DecodeFault} (failed : first offset = .error fault) :
    (first >>= next) offset = .error fault := by
  show (StateT.bind first next) offset = _
  unfold StateT.bind
  rw [failed]
  rfl

namespace Bytecode

/-- The bytes stand in the buffer from an offset on. -/
def Holds (code : Bytecode) (offset : Nat) (bytes : List UInt8) : Prop :=
  bytes <+: code.bytes.toList.drop offset

theorem holds_append (code : Bytecode) (offset : Nat) (xs ys : List UInt8) :
    code.Holds offset (xs ++ ys) ↔ code.Holds offset xs ∧ code.Holds (offset + xs.length) ys := by
  unfold Holds
  rw [← List.drop_drop]
  constructor
  · rintro ⟨rest, whole⟩
    refine ⟨⟨ys ++ rest, by rw [← whole, List.append_assoc]⟩, ⟨rest, ?_⟩⟩
    rw [← whole, List.append_assoc, List.drop_left]
  · rintro ⟨⟨first, front⟩, ⟨rest, back⟩⟩
    rw [← front, List.drop_left] at back
    exact ⟨rest, by rw [← front, ← back, List.append_assoc]⟩

theorem holds_cons (code : Bytecode) (offset : Nat) (b : UInt8) (bytes : List UInt8) :
    code.Holds offset (b :: bytes) ↔ code.Holds offset [b] ∧ code.Holds (offset + 1) bytes :=
  holds_append code offset [b] bytes

theorem Holds.le_size {code : Bytecode} {offset : Nat} {bytes : List UInt8}
    (held : code.Holds offset bytes) (filled : bytes ≠ []) :
    offset + bytes.length ≤ code.size := by
  have bound := List.IsPrefix.length_le held
  have positive := List.length_pos_iff.mpr filled
  have whole : code.bytes.toList.length = code.size := Array.length_toList
  rw [List.length_drop, whole] at bound
  omega

private theorem take_holds {code : Bytecode} {offset : Nat} {bytes : List UInt8}
    (held : code.Holds offset bytes) (filled : bytes ≠ []) :
    code.take bytes.length offset = .ok (bytes, offset + bytes.length) := by
  have bound := held.le_size filled
  have content : (code.bytes.extract offset (offset + bytes.length)).toList = bytes := by
    rw [Array.toList_extract, List.extract_eq_take_drop, Nat.add_sub_cancel_left]
    exact (List.prefix_iff_eq_take.mp held).symm
  simp only [take, bound, if_true, content]

private theorem readNat_little {code : Bytecode} {offset width n : Nat}
    (held : code.Holds offset (Bytes.little width n)) (filled : 0 < width)
    (fits : n < Nat.pow 256 width) :
    code.readNat width offset = .ok (n, offset + width) := by
  have nonempty : Bytes.little width n ≠ [] := by
    intro empty
    have := congrArg List.length empty
    rw [Bytes.length_little] at this
    simp only [List.length_nil] at this
    omega
  have taken := take_holds held nonempty
  rw [Bytes.length_little] at taken
  rw [readNat, Decoder.bind_ok taken, Bytes.value_little, Nat.mod_eq_of_lt fits]
  rfl

private theorem readByte_holds {code : Bytecode} {offset : Nat} {b : UInt8}
    (held : code.Holds offset [b]) : code.readByte offset = .ok (b, offset + 1) := by
  have little : [b] = Bytes.little 1 b.toNat := by simp [Bytes.little]
  rw [little] at held
  rw [readByte, Decoder.bind_ok (readNat_little held (by omega) b.toNat_lt)]
  simp only [UInt8.ofNat_toNat]
  rfl

private theorem readType_holds {code : Bytecode} {offset : Nat} {ty : Ty}
    (held : code.Holds offset [ty.tag]) : code.readType offset = .ok (ty, offset + 1) := by
  have start : (get : Decoder Nat) offset = .ok (offset, offset) := rfl
  rw [readType, Decoder.bind_ok start, Decoder.bind_ok (readByte_holds held), Ty.ofTag?_tag]
  rfl

-- The induction is on the things still to be read; those before are at hand, last first.
private theorem readOnto_flatMap {α β : Type} {code : Bytecode} (one : Decoder β)
    (form : α → List UInt8) (meaning : α → β) (xs : List α) (done : List β) (offset : Nat)
    (reads : ∀ x ∈ xs, ∀ o, code.Holds o (form x) →
      one o = .ok (meaning x, o + (form x).length))
    (held : code.Holds offset (xs.flatMap form)) :
    readOnto one xs.length done offset =
      .ok (done.reverse ++ xs.map meaning, offset + (xs.flatMap form).length) := by
  induction xs generalizing done offset with
  | nil => simp [readOnto, Decoder.pure_ok]
  | cons x xs ih =>
    rw [List.flatMap_cons, holds_append] at held
    have first := reads x (List.mem_cons_self) offset held.1
    rw [List.length_cons, readOnto, Decoder.bind_ok first,
      ih _ _ (fun y member => reads y (List.mem_cons_of_mem x member)) held.2]
    simp [Nat.add_assoc]

private theorem readMany_flatMap {α β : Type} {code : Bytecode} (one : Decoder β)
    (form : α → List UInt8) (meaning : α → β) (xs : List α) (offset : Nat)
    (reads : ∀ x ∈ xs, ∀ o, code.Holds o (form x) →
      one o = .ok (meaning x, o + (form x).length))
    (held : code.Holds offset (xs.flatMap form)) :
    readMany one xs.length offset =
      .ok (xs.map meaning, offset + (xs.flatMap form).length) := by
  rw [readMany, readOnto_flatMap one form meaning xs [] offset reads held]
  rfl

end Bytecode

namespace Value

theorem writeItems_eq_flatMap (items : List Value) : writeItems items = items.flatMap write := by
  induction items with
  | nil => rfl
  | cons item items ih => rw [writeItems, ih, List.flatMap_cons]

theorem checkLength_ok {what : Sequence} {length : Nat}
    (passes : EncodeFault.checkLength what length = .ok ()) : length ≤ 65535 := by
  unfold EncodeFault.checkLength EncodeFault.maxLength at passes
  split at passes
  · assumption
  · cases passes

private theorem checkItems_ok {items : List Value} (passes : checkItems items = .ok ()) :
    ∀ item ∈ items, item.check = .ok () := by
  induction items with
  | nil => simp
  | cons item items ih =>
    rw [checkItems] at passes
    cases first : item.check with
    | error fault => rw [first] at passes; cases passes
    | ok passed =>
      rw [first] at passes
      intro other member
      rcases List.mem_cons.mp member with rfl | later
      · exact first
      · exact ih passes other later

/-- A list has an encoded form when its length fits and all its items have one. -/
theorem check_list {items : List Value} (passes : (list items).check = .ok ()) :
    items.length ≤ 65535 ∧ ∀ item ∈ items, item.check = .ok () := by
  rw [check] at passes
  cases length : EncodeFault.checkLength .list items.length with
  | error fault => rw [length] at passes; cases passes
  | ok passed =>
    rw [length] at passes
    exact ⟨checkLength_ok length, checkItems_ok passes⟩

theorem check_string {s : String} (passes : (string s).check = .ok ()) :
    (Text.units s.toList).length ≤ 65535 := by
  rw [check] at passes
  exact checkLength_ok passes

end Value

namespace Bytecode

private theorem length_le_length_flatMap {α β : Type} (f : α → List β) {x : α} {xs : List α}
    (member : x ∈ xs) : (f x).length ≤ (xs.flatMap f).length := by
  obtain ⟨before, after, rfl⟩ := List.append_of_mem member
  simp only [List.flatMap_append, List.flatMap_cons, List.length_append]
  omega

-- Items are shorter than their list, so the fuel that is enough for the list is enough for them.
private theorem readValueWithin_write (code : Bytecode) (fuel : Nat) (v : Value) (offset : Nat)
    (passes : v.check = .ok ()) (enough : v.write.length ≤ fuel)
    (held : code.Holds offset v.write) :
    code.readValueWithin fuel offset = .ok (v, offset + v.write.length) := by
  induction fuel generalizing v offset with
  | zero => cases v <;> simp [Value.write] at enough
  | succ fuel ih =>
    have start : (get : Decoder Nat) offset = .ok (offset, offset) := rfl
    rw [readValueWithin, Decoder.bind_ok start]
    cases v with
    | void => rw [Value.check] at passes; cases passes
    | number n =>
      rw [Value.write, holds_cons] at held
      have bits := readNat_little held.2 (by omega) n.bits.toNat_lt
      rw [Decoder.bind_ok (readType_holds held.1)]
      show (code.readNat 8 >>= _) _ = _
      rw [Decoder.bind_ok bits]
      simp [Value.write, Nat.add_assoc, Decoder.pure_ok]
    | boolean b =>
      rw [Value.write, holds_cons] at held
      rw [Decoder.bind_ok (readType_holds held.1)]
      show (code.readByte >>= _) _ = _
      rw [Decoder.bind_ok (readByte_holds held.2)]
      cases b <;> simp [Value.write, Decoder.pure_ok]
    | string s =>
      have short := Value.check_string passes
      rw [Value.write, holds_cons, holds_append, Bytes.length_little] at held
      have units := readMany_flatMap (code.readNat 2) (fun u => Bytes.little 2 u.toNat)
        UInt16.toNat (Text.units s.toList) (offset + 1 + 2)
        (fun u _ o there => by
          rw [readNat_little there (by omega) u.toNat_lt, Bytes.length_little])
        held.2.2
      have back : (Text.units s.toList).map (UInt16.ofNat ∘ UInt16.toNat) =
          Text.units s.toList := by
        rw [show UInt16.ofNat ∘ UInt16.toNat = id from funext fun u => UInt16.ofNat_toNat,
          List.map_id]
      rw [Decoder.bind_ok (readType_holds held.1)]
      show (code.readNat 2 >>= _) _ = _
      rw [Decoder.bind_ok (readNat_little held.2.1 (by omega)
        (Nat.lt_of_le_of_lt short (by decide))), Decoder.bind_ok units, List.map_map, back,
        Text.ofUnits?_units]
      have total : (Value.string s).write.length = 1 + (2 + ((Text.units s.toList).flatMap
          fun u => Bytes.little 2 u.toNat).length) := by
        rw [Value.write, List.length_cons, List.length_append, Bytes.length_little, Nat.add_comm]
      rw [total, ← Nat.add_assoc, ← Nat.add_assoc]
      show Except.ok (Value.string (String.ofList s.toList), _) = _
      rw [String.ofList_toList]
    | list items =>
      obtain ⟨short, all⟩ := Value.check_list passes
      rw [Value.write, List.length_cons, List.length_append, Bytes.length_little,
        Value.writeItems_eq_flatMap] at enough
      rw [Value.write, holds_cons, holds_append, Bytes.length_little,
        Value.writeItems_eq_flatMap] at held
      have inner := readMany_flatMap (code.readValueWithin fuel) Value.write id items
        (offset + 1 + 2)
        (fun item member o there => ih item o (all item member)
          (by
            have part := length_le_length_flatMap Value.write member
            omega)
          there)
        held.2.2
      rw [Decoder.bind_ok (readType_holds held.1)]
      show (code.readNat 2 >>= _) _ = _
      rw [Decoder.bind_ok (readNat_little held.2.1 (by omega)
        (Nat.lt_of_le_of_lt short (by decide))), Decoder.bind_ok inner, List.map_id]
      have total : (Value.list items).write.length =
          1 + (2 + (items.flatMap Value.write).length) := by
        rw [Value.write, List.length_cons, List.length_append, Bytes.length_little,
          Value.writeItems_eq_flatMap, Nat.add_comm]
      rw [total, ← Nat.add_assoc, ← Nat.add_assoc]
      rfl

theorem readValue_write {code : Bytecode} {offset : Nat} {v : Value} (passes : v.check = .ok ())
    (held : code.Holds offset v.write) :
    code.readValue offset = .ok (v, offset + v.write.length) := by
  have filled : v.write ≠ [] := by cases v <;> simp [Value.write]
  have bound := held.le_size filled
  exact readValueWithin_write code _ v offset passes (by omega) held

private theorem readString_write {code : Bytecode} {offset : Nat} {s : String}
    (passes : (Value.string s).check = .ok ()) (held : code.Holds offset (Value.string s).write) :
    code.readString offset = .ok (s, offset + (Value.string s).write.length) := by
  have start : (get : Decoder Nat) offset = .ok (offset, offset) := rfl
  rw [readString, Decoder.bind_ok start, Decoder.bind_ok (readValue_write passes held)]
  rfl

private theorem readAddress_little {code : Bytecode} {offset address : Nat}
    (small : address < 0x80000000) (held : code.Holds offset (Bytes.little 4 address)) :
    code.readAddress offset = .ok (address, offset + 4) := by
  have start : (get : Decoder Nat) offset = .ok (offset, offset) := rfl
  have fits : address < Nat.pow 256 4 := Nat.lt_of_lt_of_le small (by decide)
  rw [readAddress, Decoder.bind_ok start, Decoder.bind_ok (readNat_little held (by omega) fits),
    if_pos small]
  rfl

private theorem readOpcode_holds {code : Bytecode} {offset : Nat} {op : Opcode}
    (held : code.Holds offset [op.byte]) : code.readOpcode offset = .ok (op, offset + 1) := by
  have start : (get : Decoder Nat) offset = .ok (offset, offset) := rfl
  rw [readOpcode, Decoder.bind_ok start, Decoder.bind_ok (readByte_holds held),
    Opcode.ofByte?_byte]
  rfl

private theorem readOperand_write {code : Bytecode} {offset : Nat} {i : Instruction}
    (passes : i.check = .ok ()) (small : ∀ target, i.target? = some target → target < 0x80000000)
    (held : code.Holds offset i.writeOperand) :
    code.readOperand i.opcode offset = .ok (i, offset + i.writeOperand.length) := by
  cases i with
  | jump target | jumpIf target | call target =>
    have read := readAddress_little (small target rfl) held
    show (code.readAddress >>= _) _ = _
    rw [Decoder.bind_ok read]
    simp [Instruction.writeOperand, Decoder.pure_ok]
  | push value =>
    show (code.readValue >>= _) _ = _
    rw [Decoder.bind_ok (readValue_write passes held)]
    rfl
  | load slot | store slot | free slot =>
    show (code.readByte >>= _) _ = _
    rw [Decoder.bind_ok (readByte_holds held)]
    rfl
  | convert type | getItem type =>
    show (code.readType >>= _) _ = _
    rw [Decoder.bind_ok (readType_holds held)]
    rfl
  | callHost name =>
    show (code.readString >>= _) _ = _
    rw [Decoder.bind_ok (readString_write passes held)]
    rfl
  | makeList count =>
    show (code.readNat 2 >>= _) _ = _
    rw [Decoder.bind_ok (readNat_little held (by omega) count.toNat_lt)]
    simp [Instruction.writeOperand, Decoder.pure_ok]
  | pop | dup | arith | order | equal | notEqual | invert | negate | ret | setItem => rfl

/-- An instruction that has an encoded form is decoded where its encoded form stands. -/
theorem decodeAt_write {code : Bytecode} {offset : Nat} {i : Instruction}
    (passes : i.check = .ok ()) (small : ∀ target, i.target? = some target → target < 0x80000000)
    (held : code.Holds offset i.write) :
    code.decodeAt offset = .ok (i, offset + i.size) := by
  rw [Instruction.write, holds_cons] at held
  rw [decodeAt, readInstruction, Decoder.bind_ok (readOpcode_holds held.1),
    readOperand_write passes small held.2, Instruction.size, Instruction.write, List.length_cons,
    Nat.add_assoc, Nat.add_comm 1]

private theorem readAddress_beyond {code : Bytecode} {offset address : Nat}
    (large : 0x80000000 ≤ address) (fits : address < Nat.pow 256 4)
    (held : code.Holds offset (Bytes.little 4 address)) :
    code.readAddress offset = .error (.badTarget address offset) := by
  have start : (get : Decoder Nat) offset = .ok (offset, offset) := rfl
  rw [readAddress, Decoder.bind_ok start, Decoder.bind_ok (readNat_little held (by omega) fits),
    if_neg (Nat.not_lt.mpr large)]
  rfl

/-- An address that fills the sign bit of its field has an encoded form, which is not decoded. -/
theorem decodeAt_beyond {code : Bytecode} {offset address : Nat} {i : Instruction}
    (target : i.target? = some address) (large : 0x80000000 ≤ address)
    (fits : address < 0x100000000) (held : code.Holds offset i.write) :
    code.decodeAt offset = .error (.badTarget address (offset + 1)) := by
  rw [Instruction.write, holds_cons] at held
  rw [decodeAt, readInstruction, Decoder.bind_ok (readOpcode_holds held.1)]
  cases i with
  | jump other | jumpIf other | call other =>
    cases target
    exact Decoder.bind_error (readAddress_beyond large fits held.2)
  | _ => cases target

end Bytecode

end Primer
