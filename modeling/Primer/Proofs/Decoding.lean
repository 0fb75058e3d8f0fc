import Primer.Proofs.EncodedValues
import Primer.Proofs.Execution.Verified

/-!
Decoding any bytes, whether or not they were ever encoded. What an instruction is read from is
settled by its own bytes: another buffer that holds them decodes to the same, and one that ends
among them is found to be truncated. Encoding what was decoded gives these bytes again, with one
exception: every byte but 1 is read as false, which is written as 0.
-/

set_option autoImplicit false
set_option relaxedAutoImplicit false

namespace Primer

namespace Bytecode

/-- Another buffer holds the same bytes from one offset up to a second. -/
def Repeats (code other : Bytecode) (start stop : Nat) : Prop :=
  ∀ k, start ≤ k → k < stop → other.bytes[k]? = code.bytes[k]?

theorem Repeats.mono {code other : Bytecode} {start stop start' stop' : Nat}
    (repeats : code.Repeats other start stop) (after : start ≤ start') (before : stop' ≤ stop) :
    code.Repeats other start' stop' :=
  fun k first last => repeats k (Nat.le_trans after first) (Nat.lt_of_lt_of_le last before)

/-- Where bytes of a buffer are repeated there is room for them. -/
theorem Repeats.le_size {code other : Bytecode} {start stop : Nat}
    (repeats : code.Repeats other start stop) (filled : start < stop) (fits : stop ≤ code.size) :
    stop ≤ other.size := by
  have last := repeats (stop - 1) (by omega) (by omega)
  rw [Array.getElem?_eq_getElem (show stop - 1 < code.bytes.size by unfold size at fits; omega)]
    at last
  have inside := (Array.getElem?_eq_some_iff.mp last).1
  unfold size
  omega

/-- Reading from the offset finds that the buffer ends too early. -/
def Truncates {α : Type} (read : Decoder α) (start : Nat) : Prop :=
  ∃ place needed, read start = .error (.truncated place needed)

theorem Truncates.bind {α β : Type} {first : Decoder α} {start : Nat}
    (truncates : Truncates first start)
    (rest : α → Decoder β) : Truncates (first >>= rest) start := by
  obtain ⟨place, needed, failed⟩ := truncates
  exact ⟨place, needed, Decoder.bind_error failed⟩

/-- What one reader takes from its buffer another takes from a second buffer that repeats the bytes,
if they are fewer than it has room for; otherwise it may find the buffer truncated. It does find it
truncated if it ends too early. -/
structure Echoes {α : Type} (code other : Bytecode) (room : Nat) (one two : Decoder α) : Prop where
  onward : code.Onward 0 one
  same : ∀ {start a stop}, one start = .ok (a, stop) → code.Repeats other start stop →
    two start = .ok (a, stop) ∨ start + room ≤ stop ∧ Truncates two start
  cut : ∀ {start a stop}, one start = .ok (a, stop) → start ≤ other.size → other.size < stop →
    code.Repeats other start other.size → Truncates two start

namespace Echoes

variable {α β : Type} {code other : Bytecode} {room : Nat}

theorem pure (a : α) : Echoes code other room (Pure.pure a) (Pure.pure a) where
  onward := .pure a
  same := fun done _ => .inl done
  cut := fun done within beyond _ => by
    cases done
    omega

theorem fail (fault : DecodeFault) (two : Decoder α) :
    Echoes code other room (throw fault) two where
  onward := .fail fault
  same := fun done => by cases done
  cut := fun done => by cases done

/-- Reading goes on where the first part ended. What the first part takes is room that the second
does not need. -/
theorem bind {least : Nat} {first first' : Decoder α} {rest rest' : α → Decoder β}
    (takes : code.Onward least first) (before : Echoes code other (room + least) first first')
    (after : ∀ a, Echoes code other room (rest a) (rest' a)) :
    Echoes code other (room + least) (first >>= rest) (first' >>= rest') where
  onward := .bind before.onward fun a => (after a).onward
  same := by
    intro start b stop done repeats
    obtain ⟨⟨a, middle⟩, read, last⟩ := Machine.bind_eq_ok.mp done
    obtain ⟨taken, -⟩ := takes start a middle read
    obtain ⟨onward, -⟩ := (after a).onward middle b stop last
    rcases before.same read (repeats.mono (Nat.le_refl _) (by omega)) with
      again | ⟨short, truncates⟩
    · rcases (after a).same last (repeats.mono (by omega) (Nat.le_refl _)) with
        more | ⟨short, truncates⟩
      · exact .inl ((Decoder.bind_ok again).trans more)
      · refine .inr ⟨by omega, ?_⟩
        rwa [Truncates, Decoder.bind_ok again]
    · exact .inr ⟨by omega, truncates.bind rest'⟩
  cut := by
    intro start b stop done within beyond repeats
    obtain ⟨⟨a, middle⟩, read, last⟩ := Machine.bind_eq_ok.mp done
    obtain ⟨taken, -⟩ := takes start a middle read
    -- The buffer ends among the bytes of the first part or among those of the second.
    by_cases early : other.size < middle
    · exact (before.cut read within early repeats).bind rest'
    · rcases before.same read (repeats.mono (Nat.le_refl _) (by omega)) with again | ⟨-, truncates⟩
      · rw [Truncates, Decoder.bind_ok again]
        exact (after a).cut last (by omega) beyond (repeats.mono (by omega) (Nat.le_refl _))
      · exact truncates.bind rest'

/-- Both parts have the same room. -/
theorem andThen {first first' : Decoder α} {rest rest' : α → Decoder β}
    (before : Echoes code other room first first')
    (after : ∀ a, Echoes code other room (rest a) (rest' a)) :
    Echoes code other room (first >>= rest) (first' >>= rest') :=
  show Echoes code other (room + 0) _ _ from bind before.onward before after

theorem look {rest rest' : Nat → Decoder β}
    (after : ∀ offset, Echoes code other room (rest offset) (rest' offset)) :
    Echoes code other room (get >>= rest) (get >>= rest') where
  onward := .look fun offset => (after offset).onward
  same := fun {start} => (after start).same
  cut := fun {start} => (after start).cut

theorem take {width : Nat} (positive : 0 < width) :
    Echoes code other room (code.take width) (other.take width) where
  onward := (Onward.take width).weaken
  same := by
    intro start bytes stop done repeats
    obtain ⟨taken, within⟩ := Onward.take width start bytes stop done
    unfold Bytecode.take at done ⊢
    split at done
    · rename_i fits
      cases done
      have fits' := repeats.le_size (by omega) fits
      rw [if_pos fits']
      have same :
          other.bytes.extract start (start + width) = code.bytes.extract start (start + width) := by
        refine Array.ext_getElem? fun k => ?_
        rw [Array.getElem?_extract, Array.getElem?_extract,
          Nat.min_eq_left (show _ ≤ code.bytes.size from fits),
          Nat.min_eq_left (show _ ≤ other.bytes.size from fits')]
        split
        · exact repeats (start + k) (by omega) (by omega)
        · rfl
      rw [same]
      exact .inl rfl
    · cases done
  cut := by
    intro start bytes stop done within beyond repeats
    have fits : ¬start + width ≤ other.size := by
      unfold Bytecode.take at done
      split at done
      · cases done
        omega
      · cases done
    exact ⟨start, width, if_neg fits⟩

theorem readNat {width : Nat} (positive : 0 < width) :
    Echoes code other room (code.readNat width) (other.readNat width) :=
  andThen (take positive) fun _ => pure _

theorem readByte : Echoes code other room code.readByte other.readByte :=
  andThen (readNat Nat.one_pos) fun _ => pure _

theorem readType : Echoes code other room code.readType other.readType := by
  refine look fun offset => andThen readByte fun byte => ?_
  cases Ty.ofTag? byte with
  | some type => exact pure type
  | none => exact fail _ _

theorem readOnto {one two : Decoder α} (each : Echoes code other room one two) (count : Nat)
    (done : List α) :
    Echoes code other room (Bytecode.readOnto one count done)
      (Bytecode.readOnto two count done) := by
  induction count generalizing done with
  | zero => exact pure _
  | succ count ih => exact andThen each fun _ => ih _

theorem readMany {one two : Decoder α} (each : Echoes code other room one two) (count : Nat) :
    Echoes code other room (Bytecode.readMany one count) (Bytecode.readMany two count) :=
  readOnto each count []

-- The fuel of the second reader is the room that it has; without fuel it takes the buffer for
-- truncated.
theorem readValueWithin (fuel room : Nat) :
    Echoes code other room (code.readValueWithin fuel) (other.readValueWithin room) := by
  induction fuel generalizing room with
  | zero => exact look fun _ => fail _ _
  | succ fuel ih =>
    cases room with
    | zero =>
      have out (start : Nat) : Truncates (other.readValueWithin 0) start := ⟨start, 1, rfl⟩
      refine ⟨Onward.readValueWithin _, fun {start a stop} done repeats => ?_, fun _ _ _ _ => out _⟩
      obtain ⟨onward, -⟩ := Onward.readValueWithin (fuel + 1) start a stop done
      exact .inr ⟨onward, out start⟩
    | succ room =>
      refine look fun offset => bind Onward.readType readType fun type => ?_
      cases type with
      | number => exact andThen (readNat (by decide)) fun _ => pure _
      | boolean => exact andThen readByte fun _ => pure _
      | string =>
        refine andThen (readNat (by decide)) fun count => ?_
        refine andThen (readMany (readNat (by decide)) count) fun units => ?_
        cases Text.ofUnits? (units.map UInt16.ofNat) with
        | some cs => exact pure _
        | none => exact fail _ _
      | list =>
        exact andThen (readNat (by decide)) fun count =>
          andThen (readMany (ih room) count) fun _ => pure _
      | void => exact fail _ _

theorem readValue : Echoes code other room code.readValue other.readValue where
  onward := .readValue
  same := by
    intro start v stop done repeats
    obtain ⟨onward, within⟩ := Onward.readValue start v stop done
    rcases (readValueWithin _ (other.size - start + 1)).same done repeats with again | ⟨short, -⟩
    · exact .inl again
    · rcases Nat.eq_or_lt_of_le onward with none | some
      · omega
      · have fits := repeats.le_size some (by omega)
        omega
  cut := fun done => (readValueWithin _ _).cut done

theorem readString : Echoes code other room code.readString other.readString := by
  refine look fun offset => andThen readValue fun value => ?_
  cases value with
  | string s => exact pure s
  | number | boolean | list | void => exact fail _ _

theorem readAddress : Echoes code other room code.readAddress other.readAddress := by
  refine look fun offset => andThen (readNat (by decide)) fun address => ?_
  split
  · exact pure address
  · exact fail _ _

theorem readOpcode : Echoes code other room code.readOpcode other.readOpcode := by
  refine look fun offset => andThen readByte fun byte => ?_
  cases Opcode.ofByte? byte with
  | some op => exact pure op
  | none => exact fail _ _

theorem readOperand (op : Opcode) :
    Echoes code other room (code.readOperand op) (other.readOperand op) := by
  cases op with
  | jump | jumpIf | call => exact andThen readAddress fun _ => pure _
  | push => exact andThen readValue fun _ => pure _
  | load | store | free => exact andThen readByte fun _ => pure _
  | convert | getItem => exact andThen readType fun _ => pure _
  | callHost => exact andThen readString fun _ => pure _
  | makeList => exact andThen (readNat (by decide)) fun _ => pure _
  | pop | dup | arith | order | equal | notEqual | invert | negate | ret | setItem => exact pure _

theorem readInstruction : Echoes code other room code.readInstruction other.readInstruction :=
  andThen readOpcode readOperand

end Echoes

end Bytecode

namespace Text

theorem toNat_ofNat {n : Nat} (valid : n.isValidChar) : (Char.ofNat n).toNat = n := by
  rw [Char.ofNat, dif_pos valid]
  rfl

/-- A unit that is no surrogate is that of its character. -/
theorem charUnits_ofNat {u : UInt16} (high : isHighSurrogate u = false)
    (low : isLowSurrogate u = false) : charUnits (Char.ofNat u.toNat) = [u] := by
  have small := u.toNat_lt
  have valid : u.toNat.isValidChar := by
    simp only [isHighSurrogate, isLowSurrogate, Bool.and_eq_false_iff,
      decide_eq_false_iff_not] at high low
    unfold Nat.isValidChar
    omega
  rw [charUnits, toNat_ofNat valid]
  simp only [if_pos small, UInt16.ofNat_toNat]

/-- A surrogate pair is that of its character. -/
theorem charUnits_pairChar {u v : UInt16} (high : isHighSurrogate u = true)
    (low : isLowSurrogate v = true) : charUnits (pairChar u v) = [u, v] := by
  simp only [isHighSurrogate, isLowSurrogate, Bool.and_eq_true, decide_eq_true_eq] at high low
  have valid : (0x10000 + (u.toNat - 0xD800) * 0x400 + (v.toNat - 0xDC00)).isValidChar := by
    unfold Nat.isValidChar
    omega
  have large : ¬0x10000 + (u.toNat - 0xD800) * 0x400 + (v.toNat - 0xDC00) < 0x10000 := by omega
  have first :
      0xD800 + (0x10000 + (u.toNat - 0xD800) * 0x400 + (v.toNat - 0xDC00) - 0x10000) / 0x400 =
        u.toNat := by omega
  have second :
      0xDC00 + (0x10000 + (u.toNat - 0xD800) * 0x400 + (v.toNat - 0xDC00) - 0x10000) % 0x400 =
        v.toNat := by omega
  rw [charUnits, pairChar, toNat_ofNat valid]
  simp only [if_neg large, first, second, UInt16.ofNat_toNat]

theorem units_cons (c : Char) (cs : List Char) : units (c :: cs) = charUnits c ++ units cs := by
  simp [units]

theorem ofUnitsOnto_eq_some {done cs : List Char} {us : List UInt16}
    (spelled : ofUnitsOnto done us = some cs) :
    ∃ more, cs = done.reverse ++ more ∧ units more = us := by
  fun_induction ofUnitsOnto done us with
  | case1 done =>
    cases spelled
    exact ⟨[], by simp, rfl⟩
  | case2 => cases spelled
  | case3 done u plain =>
    cases spelled
    simp only [Bool.or_eq_true, not_or, Bool.not_eq_true] at plain
    exact ⟨[Char.ofNat u.toNat], by simp, by simp [units, charUnits_ofNat plain.1 plain.2]⟩
  | case4 done u v rest high low ih =>
    obtain ⟨more, rfl, same⟩ := ih spelled
    exact ⟨pairChar u v :: more, by simp,
      by rw [units_cons, charUnits_pairChar high low, same]; rfl⟩
  | case5 => cases spelled
  | case6 => cases spelled
  | case7 done u v rest high low ih =>
    obtain ⟨more, rfl, same⟩ := ih spelled
    refine ⟨Char.ofNat u.toNat :: more, by simp, ?_⟩
    rw [units_cons, charUnits_ofNat (Bool.eq_false_iff.mpr high) (Bool.eq_false_iff.mpr low), same]
    rfl

/-- Units that spell a text are its units. -/
theorem units_of_ofUnits? {cs : List Char} {us : List UInt16} (spelled : ofUnits? us = some cs) :
    units cs = us := by
  obtain ⟨more, rfl, same⟩ := ofUnitsOnto_eq_some spelled
  exact same

end Text

namespace Bytes

theorem little_value (bytes : List UInt8) : little bytes.length (value bytes) = bytes := by
  induction bytes with
  | nil => rfl
  | cons byte more ih =>
    have small := byte.toNat_lt
    have low : UInt8.ofNat (byte.toNat + 256 * value more) = byte := by
      apply UInt8.toNat_inj.mp
      rw [UInt8.toNat_ofNat']
      omega
    have high : (byte.toNat + 256 * value more) / 256 = value more := by omega
    rw [List.length_cons, value, little, low, high, ih]

theorem value_lt (bytes : List UInt8) : value bytes < Nat.pow 256 bytes.length := by
  induction bytes with
  | nil => exact Nat.one_pos
  | cons byte more ih =>
    have small := byte.toNat_lt
    have power : Nat.pow 256 (more.length + 1) = 256 * Nat.pow 256 more.length := Nat.pow_succ'
    rw [value, List.length_cons, power]
    omega

/-- Where the payload of a boolean stands, every byte but 1 is taken for 0. -/
def settle (flag : Nat → Bool) (bytes : List UInt8) : List UInt8 :=
  bytes.mapIdx fun k byte => if flag k then (if byte = 1 then 1 else 0) else byte

@[simp] theorem length_settle (flag : Nat → Bool) (bytes : List UInt8) :
    (settle flag bytes).length = bytes.length := List.length_mapIdx

theorem settle_append (flag : Nat → Bool) (first second : List UInt8) :
    settle flag (first ++ second) =
      settle flag first ++ settle (fun k => flag (k + first.length)) second :=
  List.mapIdx_append

theorem settle_congr {flag flag' : Nat → Bool} {bytes : List UInt8}
    (same : ∀ k < bytes.length, flag k = flag' k) : settle flag bytes = settle flag' bytes := by
  refine List.mapIdx_eq_mapIdx_iff.mpr fun k inside => ?_
  rw [same k inside]

/-- Without booleans all bytes stay. -/
theorem settle_plain {flag : Nat → Bool} {bytes : List UInt8}
    (none : ∀ k < bytes.length, flag k = false) : settle flag bytes = bytes := by
  rw [settle_congr none]
  refine List.ext_getElem? fun k => ?_
  simp [settle]

/-- Booleans that come only after a front leave it as it is. -/
theorem settle_after {flag : Nat → Bool} (flag' : Nat → Bool) {front : List UInt8}
    (back : List UInt8)
    (before : ∀ k < front.length, flag k = false) (after : ∀ k, flag (k + front.length) = flag' k) :
    settle flag (front ++ back) = front ++ settle flag' back := by
  rw [settle_append, settle_plain before, funext after]

end Bytes

/-- The tag of a type is the only byte that stands for it. -/
theorem Ty.tag_of_ofTag? {byte : UInt8} {type : Ty} (found : ofTag? byte = some type) :
    type.tag = byte := by
  have inside : byte.toNat < all.length := (List.getElem?_eq_some_iff.mp found).1
  have same : all[byte.toNat]? = all[type.tag.toNat]? := found.trans (ofTag?_tag type).symm
  exact (UInt8.toNat_inj.mp ((List.getElem?_inj inside (by decide)).mp same)).symm

/-- The byte of an opcode is the only one that stands for it. -/
theorem Opcode.byte_of_ofByte? {byte : UInt8} {op : Opcode} (found : ofByte? byte = some op) :
    op.byte = byte := by
  have inside : byte.toNat < all.toList.length := (Array.getElem?_eq_some_iff.mp found).1
  have same : all.toList[byte.toNat]? = all.toList[op.byte.toNat]? := by
    rw [Array.getElem?_toList, Array.getElem?_toList]
    exact found.trans (ofByte?_byte op).symm
  exact (UInt8.toNat_inj.mp ((List.getElem?_inj inside (by decide)).mp same)).symm

namespace Value

mutual

/-- The payload of a boolean stands at the offset of the encoded form. -/
def booleanAt : Value → Nat → Bool
  | boolean _, offset => offset = 1
  | list items, offset => 3 ≤ offset && booleanAtItems items (offset - 3)
  | _, _ => false

def booleanAtItems : List Value → Nat → Bool
  | [], _ => false
  | item :: items, offset =>
    if offset < item.write.length then booleanAt item offset
    else booleanAtItems items (offset - item.write.length)

end

end Value

/-- The payload of a boolean stands at the offset of the encoded form. -/
def Instruction.booleanAt : Instruction → Nat → Bool
  | push value, offset => 1 ≤ offset && value.booleanAt (offset - 1)
  | _, _ => false

namespace Bytecode

variable {code : Bytecode} {start stop : Nat}

/-- The bytes from one offset up to a second. -/
def slice (code : Bytecode) (start stop : Nat) : List UInt8 :=
  (code.bytes.extract start stop).toList

theorem slice_append {middle : Nat} (first : start ≤ middle) (second : middle ≤ stop) :
    code.slice start middle ++ code.slice middle stop = code.slice start stop := by
  rw [slice, slice, ← Array.toList_append, Array.extract_append_extract, Nat.min_eq_left first,
    Nat.max_eq_right second]
  rfl

theorem take_ok {width : Nat} {bytes : List UInt8}
    (done : code.take width start = .ok (bytes, stop)) :
    stop = start + width ∧ code.slice start stop = bytes ∧ bytes.length = width := by
  unfold take at done
  split at done
  · rename_i fits
    cases done
    refine ⟨rfl, rfl, ?_⟩
    rw [Array.length_toList, Array.size_extract,
      Nat.min_eq_left (show _ ≤ code.bytes.size from fits)]
    omega
  · cases done

/-- A number is written as it was read. -/
theorem readNat_ok {width n : Nat} (done : code.readNat width start = .ok (n, stop)) :
    code.slice start stop = Bytes.little width n ∧ n < Nat.pow 256 width := by
  obtain ⟨⟨bytes, after⟩, taken, last⟩ := Machine.bind_eq_ok.mp done
  cases last
  obtain ⟨-, same, rfl⟩ := take_ok taken
  exact ⟨by rw [same, Bytes.little_value], Bytes.value_lt bytes⟩

theorem readByte_ok {byte : UInt8} (done : code.readByte start = .ok (byte, stop)) :
    code.slice start stop = [byte] := by
  obtain ⟨⟨n, after⟩, read, last⟩ := Machine.bind_eq_ok.mp done
  cases last
  exact (readNat_ok read).1

theorem readType_ok {type : Ty} (done : code.readType start = .ok (type, stop)) :
    code.slice start stop = [type.tag] := by
  obtain ⟨⟨byte, after⟩, read, last⟩ := Machine.bind_eq_ok.mp done
  cases found : Ty.ofTag? byte with
  | none =>
    simp only [found] at last
    cases last
  | some other =>
    simp only [found] at last
    cases last
    rw [readByte_ok read, Ty.tag_of_ofTag? found]

theorem readOpcode_ok {op : Opcode} (done : code.readOpcode start = .ok (op, stop)) :
    code.slice start stop = [op.byte] := by
  obtain ⟨⟨byte, after⟩, read, last⟩ := Machine.bind_eq_ok.mp done
  cases found : Opcode.ofByte? byte with
  | none =>
    simp only [found] at last
    cases last
  | some other =>
    simp only [found] at last
    cases last
    rw [readByte_ok read, Opcode.byte_of_ofByte? found]

theorem readAddress_ok {address : Nat} (done : code.readAddress start = .ok (address, stop)) :
    code.slice start stop = Bytes.little 4 address := by
  obtain ⟨⟨n, after⟩, read, last⟩ := Machine.bind_eq_ok.mp done
  simp only at last
  split at last
  · cases last
    exact (readNat_ok read).1
  · cases last

/-- Things are read one after another. -/
inductive Series {α : Type} (one : Decoder α) : Nat → List α → Nat → Prop
  | nil (offset : Nat) : Series one offset [] offset
  | cons {start middle stop : Nat} {a : α} {more : List α} (first : one start = .ok (a, middle))
      (rest : Series one middle more stop) : Series one start (a :: more) stop

theorem readOnto_ok {α : Type} {one : Decoder α} {count : Nat} {done found : List α}
    (read : readOnto one count done start = .ok (found, stop)) :
    ∃ more, found = done.reverse ++ more ∧ more.length = count ∧ Series one start more stop := by
  induction count generalizing start done with
  | zero =>
    cases read
    exact ⟨[], by simp, rfl, .nil _⟩
  | succ count ih =>
    obtain ⟨⟨a, middle⟩, first, rest⟩ := Machine.bind_eq_ok.mp read
    obtain ⟨more, rfl, rfl, series⟩ := ih rest
    exact ⟨a :: more, by simp, rfl, .cons first series⟩

theorem readMany_ok {α : Type} {one : Decoder α} {count : Nat} {found : List α}
    (read : readMany one count start = .ok (found, stop)) :
    found.length = count ∧ Series one start found stop := by
  obtain ⟨more, rfl, counted, series⟩ := readOnto_ok read
  exact ⟨counted, series⟩

theorem Onward.le {α : Type} {one : Decoder α} {a : α} (onward : code.Onward 0 one)
    (read : one start = .ok (a, stop)) : start ≤ stop :=
  (onward start a stop read).1

theorem Series.le {α : Type} {one : Decoder α} {found : List α} (onward : code.Onward 0 one)
    (series : Series one start found stop) : start ≤ stop := by
  induction series with
  | nil => exact Nat.le_refl _
  | cons first _ ih => exact Nat.le_trans (onward.le first) ih

/-- Numbers of one width, one after another. -/
theorem Series.slice_eq {width : Nat} {found : List Nat}
    (series : Series (code.readNat width) start found stop) :
    code.slice start stop = found.flatMap (Bytes.little width) ∧
      ∀ n ∈ found, n < Nat.pow 256 width := by
  induction series with
  | nil offset => simp [slice]
  | cons first rest ih =>
    obtain ⟨same, small⟩ := readNat_ok first
    have onward : code.Onward 0 (code.readNat width) := (Onward.readNat width).weaken
    rw [← slice_append (onward.le first) (rest.le onward), same, ih.1, List.flatMap_cons]
    exact ⟨rfl, by simpa using ⟨small, ih.2⟩⟩

/-- Values, one after another, of each of which it is known how it was written. -/
theorem Series.settle_eq {one : Decoder Value} {items : List Value} (onward : code.Onward 0 one)
    (each : ∀ {start v stop}, one start = .ok (v, stop) →
      v.Encodable ∧ Bytes.settle v.booleanAt (code.slice start stop) = v.write)
    (series : Series one start items stop) : (∀ item ∈ items, item.Encodable) ∧
      Bytes.settle (Value.booleanAtItems items) (code.slice start stop) =
        Value.writeItems items := by
  induction series with
  | nil offset => simp [slice, Bytes.settle, Value.writeItems]
  | @cons start middle stop item items first rest ih =>
    obtain ⟨encodable, written⟩ := each first
    have sized : (code.slice start middle).length = item.write.length := by
      rw [← written, Bytes.length_settle]
    have here : Bytes.settle (Value.booleanAtItems (item :: items)) (code.slice start middle) =
        item.write := by
      rw [← written]
      refine Bytes.settle_congr fun k inside => ?_
      rw [Value.booleanAtItems, if_pos (sized ▸ inside)]
    have there :
        (fun k => Value.booleanAtItems (item :: items) (k + (code.slice start middle).length)) =
          Value.booleanAtItems items := by
      funext k
      rw [Value.booleanAtItems, sized, if_neg (by omega), Nat.add_sub_cancel]
    rw [← slice_append (onward.le first) (rest.le onward), Bytes.settle_append, here, there, ih.2,
      Value.writeItems]
    exact ⟨by simpa using ⟨encodable, ih.1⟩, rfl⟩

/-- The text that was read is written as it stood, and is short enough to be. -/
theorem slice_units {count after : Nat} {units : List Nat} {cs : List Char}
    (counted : code.readNat 2 start = .ok (count, after))
    (read : readMany (code.readNat 2) count after = .ok (units, stop))
    (spelled : Text.ofUnits? (units.map UInt16.ofNat) = some cs) :
    Text.unitCount cs ≤ 65535 ∧ start ≤ stop ∧ code.slice start stop =
      Bytes.little 2 (Text.units cs).length ++
        (Text.units cs).flatMap fun u => Bytes.little 2 u.toNat := by
  obtain ⟨rfl, series⟩ := readMany_ok read
  obtain ⟨head, few⟩ := readNat_ok counted
  obtain ⟨body, small⟩ := series.slice_eq
  have same : Text.units cs = units.map UInt16.ofNat := Text.units_of_ofUnits? spelled
  have sized : (Text.units cs).length = units.length := by rw [same, List.length_map]
  have back : (units.map UInt16.ofNat).flatMap (fun u => Bytes.little 2 u.toNat) =
      units.flatMap (Bytes.little 2) := by
    rw [List.flatMap_map, List.flatMap_def, List.flatMap_def]
    refine congrArg List.flatten (List.map_congr_left fun n member => ?_)
    rw [UInt16.toNat_ofNat_of_lt' (small n member)]
  have counted_le := (Onward.readNat 2).weaken.le counted
  have units_le := series.le (Onward.readNat 2).weaken
  refine ⟨?_, Nat.le_trans counted_le units_le, ?_⟩
  · rw [Text.unitCount, sized]
    exact Nat.lt_succ_iff.mp few
  · rw [← slice_append counted_le units_le, head, body, sized, same, back]

/-- A value is written as it was read, booleans apart. -/
theorem readValueWithin_ok {fuel : Nat} {v : Value}
    (done : code.readValueWithin fuel start = .ok (v, stop)) :
    v.Encodable ∧ Bytes.settle v.booleanAt (code.slice start stop) = v.write := by
  induction fuel generalizing start v stop with
  | zero => cases done
  | succ fuel ih =>
    obtain ⟨⟨type, middle⟩, tagged, rest⟩ := Machine.bind_eq_ok.mp done
    have front := readType_ok tagged
    have before := Onward.readType.weaken.le tagged
    cases type with
    | number =>
      obtain ⟨⟨n, after⟩, read, last⟩ := Machine.bind_eq_ok.mp rest
      cases last
      obtain ⟨same, small⟩ := readNat_ok read
      refine ⟨.number _, ?_⟩
      rw [Bytes.settle_plain fun k _ => show Value.booleanAt (.number _) k = false from rfl,
        ← slice_append before ((Onward.readNat 8).weaken.le read), front, same, Value.write,
        UInt64.toNat_ofNat_of_lt' small]
      rfl
    | boolean =>
      obtain ⟨⟨byte, after⟩, read, last⟩ := Machine.bind_eq_ok.mp rest
      cases last
      refine ⟨.boolean _, ?_⟩
      rw [← slice_append before (Onward.readByte.weaken.le read), front, readByte_ok read,
        Value.write]
      simp [Bytes.settle, Value.booleanAt]
    | string =>
      obtain ⟨⟨count, after⟩, counted, rest⟩ := Machine.bind_eq_ok.mp rest
      obtain ⟨⟨units, final⟩, read, rest⟩ := Machine.bind_eq_ok.mp rest
      cases spelled : Text.ofUnits? (units.map UInt16.ofNat) with
      | none =>
        simp only [spelled] at rest
        cases rest
      | some cs =>
        simp only [spelled] at rest
        cases rest
        obtain ⟨short, onward, body⟩ := slice_units counted read spelled
        refine ⟨.string (by rwa [String.toList_ofList]), ?_⟩
        rw [Bytes.settle_plain fun k _ => show Value.booleanAt (.string _) k = false from rfl,
          ← slice_append before onward, front, body, Value.write, String.toList_ofList]
        rfl
    | list =>
      obtain ⟨⟨count, after⟩, counted, rest⟩ := Machine.bind_eq_ok.mp rest
      obtain ⟨⟨items, final⟩, read, last⟩ := Machine.bind_eq_ok.mp rest
      cases last
      obtain ⟨rfl, series⟩ := readMany_ok read
      obtain ⟨head, few⟩ := readNat_ok counted
      obtain ⟨encodable, body⟩ := series.settle_eq (Onward.readValueWithin fuel).weaken ih
      refine ⟨.list (Nat.lt_succ_iff.mp few) encodable, ?_⟩
      have counted_le := (Onward.readNat 2).weaken.le counted
      have items_le := series.le (Onward.readValueWithin fuel).weaken
      rw [← slice_append before (Nat.le_trans counted_le items_le),
        ← slice_append counted_le items_le, front, head, ← List.append_assoc,
        Bytes.settle_after (Value.booleanAtItems items), body]
      · rfl
      · intro k inside
        have early : k < 3 := inside
        simp [Value.booleanAt, Nat.not_le.mpr early]
      · intro k
        show Value.booleanAt (.list items) (k + 3) = _
        simp [Value.booleanAt]
    | void => cases rest

theorem slice_self : code.slice start start = [] := by
  simp [slice]

theorem readString_ok {name : String} (done : code.readString start = .ok (name, stop)) :
    Text.unitCount name.toList ≤ 65535 ∧ code.slice start stop = (Value.string name).write := by
  obtain ⟨⟨v, after⟩, read, last⟩ := Machine.bind_eq_ok.mp done
  cases v with
  | string s =>
    cases last
    obtain ⟨encodable, written⟩ := readValueWithin_ok read
    cases encodable with
    | string short => exact ⟨short, (Bytes.settle_plain fun _ _ => rfl).symm.trans written⟩
  | _ => cases last

/-- An operand is written as it was read, booleans apart. -/
theorem readOperand_ok {op : Opcode} {i : Instruction}
    (done : code.readOperand op start = .ok (i, stop)) :
    i.opcode = op ∧ i.Encodable ∧
      Bytes.settle (fun k => i.booleanAt (k + 1)) (code.slice start stop) = i.writeOperand := by
  cases op with
  | push =>
    obtain ⟨⟨v, after⟩, read, last⟩ := Machine.bind_eq_ok.mp done
    cases last
    obtain ⟨encodable, written⟩ := readValueWithin_ok read
    refine ⟨rfl, encodable, Eq.trans (Bytes.settle_congr fun k _ => ?_) written⟩
    simp [Instruction.booleanAt]
  | jump | jumpIf | call =>
    obtain ⟨⟨address, after⟩, read, last⟩ := Machine.bind_eq_ok.mp done
    cases last
    exact ⟨rfl, trivial, (Bytes.settle_plain fun _ _ => rfl).trans (readAddress_ok read)⟩
  | load | store | free =>
    obtain ⟨⟨slot, after⟩, read, last⟩ := Machine.bind_eq_ok.mp done
    cases last
    exact ⟨rfl, trivial, (Bytes.settle_plain fun _ _ => rfl).trans (readByte_ok read)⟩
  | convert | getItem =>
    obtain ⟨⟨type, after⟩, read, last⟩ := Machine.bind_eq_ok.mp done
    cases last
    exact ⟨rfl, trivial, (Bytes.settle_plain fun _ _ => rfl).trans (readType_ok read)⟩
  | callHost =>
    obtain ⟨⟨name, after⟩, read, last⟩ := Machine.bind_eq_ok.mp done
    cases last
    obtain ⟨short, written⟩ := readString_ok read
    exact ⟨rfl, short, (Bytes.settle_plain fun _ _ => rfl).trans written⟩
  | makeList =>
    obtain ⟨⟨count, after⟩, read, last⟩ := Machine.bind_eq_ok.mp done
    cases last
    obtain ⟨written, small⟩ := readNat_ok read
    refine ⟨rfl, trivial, (Bytes.settle_plain fun _ _ => rfl).trans ?_⟩
    rw [written, Instruction.writeOperand, UInt16.toNat_ofNat_of_lt' small]
  | _ =>
    cases done
    exact ⟨rfl, trivial, (Bytes.settle_plain fun _ _ => rfl).trans slice_self⟩

/-- An instruction is encoded as it was read, booleans apart. -/
theorem encode_of_decodeAt {i : Instruction} (decoded : code.decodeAt start = .ok (i, stop)) :
    i.encode = .ok (Bytes.settle i.booleanAt (code.slice start stop)) := by
  obtain ⟨⟨op, middle⟩, first, rest⟩ := Machine.bind_eq_ok.mp decoded
  obtain ⟨rfl, encodable, written⟩ := readOperand_ok rest
  have first_le : start ≤ middle := Onward.readOpcode.weaken.le first
  have rest_le : middle ≤ stop := (Onward.readOperand _).le rest
  have unmarked : i.booleanAt 0 = false := by cases i <;> rfl
  rw [encodable.encode, ← slice_append first_le rest_le, readOpcode_ok first,
    Bytes.settle_after (fun k => i.booleanAt (k + 1)), written]
  · rfl
  · intro k inside
    rw [Nat.lt_one_iff.mp inside, unmarked]
  · intro k
    rfl

/-- Decoding is settled by the bytes of the instruction alone. They are one at least and lie in the
buffer; any buffer that has them at the same place decodes to the same instruction, and any that
agrees as far as it goes and ends before the last of them is truncated. Encoding the instruction
gives the bytes back, except that a byte for a boolean becomes 0 unless it is 1. -/
theorem decodeAt_delimited {i : Instruction} {offset next : Nat}
    (decoded : code.decodeAt offset = .ok (i, next)) :
    (offset < next ∧ next ≤ code.size) ∧
    (∀ other, code.Repeats other offset next → other.decodeAt offset = .ok (i, next)) ∧
    (∀ other : Bytecode, offset ≤ other.size → other.size < next →
      code.Repeats other offset other.size →
      ∃ place needed, other.decodeAt offset = .error (.truncated place needed)) ∧
    i.encode = .ok (Bytes.settle i.booleanAt (code.slice offset next)) := by
  refine ⟨decodeAt_onward decoded, ?_, ?_, encode_of_decodeAt decoded⟩
  · intro other repeats
    -- with more room than the instruction takes it cannot be found truncated
    have echoes :
        Echoes code other (next - offset + 1) code.readInstruction other.readInstruction :=
      Echoes.readInstruction
    rcases echoes.same decoded repeats with same | ⟨long, -⟩
    · exact same
    · omega
  · intro other inside short repeats
    have echoes : Echoes code other 0 code.readInstruction other.readInstruction :=
      Echoes.readInstruction
    exact echoes.cut decoded inside short repeats

/-- A pushed list in which 7 stands for a boolean, after a byte that belongs to nothing: the 7 comes
back as 0, and a buffer that ends within the string is truncated. -/
theorem decodeAt_delimited_list :
    (ofList [255, 2, 3, 3, 0, 2, 7, 3, 1, 0, 2, 1, 1, 1, 0, 223, 0]).decodeAt 1 =
      .ok (.push (.list [.boolean false, .list [.boolean true], .string "ß"]), 17) ∧
    (∃ place needed, (ofList [9, 2, 3, 3, 0, 2, 7, 3, 1, 0, 2, 1, 1, 1, 0, 223]).decodeAt 1 =
      .error (.truncated place needed)) ∧
    (Instruction.push (.list [.boolean false, .list [.boolean true], .string "ß"])).encode =
      .ok [2, 3, 3, 0, 2, 0, 3, 1, 0, 2, 1, 1, 1, 0, 223, 0] := by
  have decoded : (ofList [255, 2, 3, 3, 0, 2, 7, 3, 1, 0, 2, 1, 1, 1, 0, 223, 0]).decodeAt 1 =
      .ok (.push (.list [.boolean false, .list [.boolean true], .string "ß"]), 17) := rfl
  obtain ⟨-, -, cut, encoded⟩ := decodeAt_delimited decoded
  have agree : ∀ k < 16, 1 ≤ k →
      (ofList [9, 2, 3, 3, 0, 2, 7, 3, 1, 0, 2, 1, 1, 1, 0, 223]).bytes[k]? =
        (ofList [255, 2, 3, 3, 0, 2, 7, 3, 1, 0, 2, 1, 1, 1, 0, 223, 0]).bytes[k]? := by decide
  have settled : Bytes.settle
      (Instruction.push (.list [.boolean false, .list [.boolean true], .string "ß"])).booleanAt
      ((ofList [255, 2, 3, 3, 0, 2, 7, 3, 1, 0, 2, 1, 1, 1, 0, 223, 0]).slice 1 17) =
        [2, 3, 3, 0, 2, 0, 3, 1, 0, 2, 1, 1, 1, 0, 223, 0] := by
    decide +kernel
  exact ⟨decoded, cut _ (by decide) (by decide) fun k first last => agree k last first,
    encoded.trans (congrArg Except.ok settled)⟩

end Bytecode

end Primer
