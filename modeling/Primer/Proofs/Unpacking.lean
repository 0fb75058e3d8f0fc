import Primer.Packed

/-!
Reading back packed programs. Each reader takes from the front of the bytes what the writer of the
same kind of thing has put there, and leaves what is behind it. A length is read as a 64-bit number,
which is no limit for what fits into a buffer whose own length is one.
-/

set_option autoImplicit false
set_option relaxedAutoImplicit false

namespace Primer

/-- The bytes of an array, one after another. -/
theorem toList_byteArray (bytes : ByteArray) : bytes.toList = bytes.data.toList := by
  -- The loop has the bytes before an index at hand, last first.
  have loop (index : Nat) (done : List UInt8) :
      ByteArray.toList.loop bytes index done = done.reverse ++ bytes.data.toList.drop index := by
    fun_induction ByteArray.toList.loop bytes index done with
    | case1 index done inside ih =>
      have here : index < bytes.data.toList.length := by simpa using inside
      have same : bytes.get! index = bytes.data.toList[index] := by
        simp [ByteArray.get!, getElem!_pos, inside]
      rw [ih, List.drop_eq_getElem_cons here, same]
      simp
    | case2 index done outside =>
      have beyond : bytes.data.toList.length ≤ index := by simpa using outside
      rw [List.drop_eq_nil_of_le beyond, List.append_nil]
  exact loop 0 []

namespace Packed

namespace Reader

/-- Where a form stands in front, the reader takes it and gives what it stands for. -/
def Reads {α : Type} (reader : Reader α) (form : List UInt8) (a : α) : Prop :=
  ∀ rest, reader (form ++ rest) = .ok (a, rest)

section

variable {α β : Type} {first : Reader α} {front back : List UInt8} {a : α} {b : β}

theorem reads_pure : Reads (pure a) [] a := fun _ => rfl

/-- One reader after another. -/
theorem Reads.andThen {next : α → Reader β} (one : Reads first front a)
    (two : Reads (next a) back b) : Reads (first >>= next) (front ++ back) b := by
  intro rest
  show (StateT.bind first next) _ = _
  unfold StateT.bind
  rw [List.append_assoc, one]
  exact two rest

/-- After the last reader nothing more is taken. -/
theorem Reads.ending {next : α → Reader β} (one : Reads first front a)
    (last : Reads (next a) [] b) : Reads (first >>= next) front b := by
  have whole := one.andThen last
  rwa [List.append_nil] at whole

end

theorem reads_byte (b : UInt8) : Reads byte [b] b := fun _ => rfl

theorem take_eq (count : Nat) (bytes : List UInt8) : take count bytes =
    if (bytes.take count).length < count then .error .unexpectedEnd
    else .ok (bytes.take count, bytes.drop count) := by
  unfold take
  show (StateT.bind get _) _ = _
  unfold StateT.bind
  simp only [get, getThe, MonadStateOf.get, StateT.get, pure, Except.pure, bind, Except.bind]
  split <;> rfl

theorem reads_take (bytes : List UInt8) : Reads (take bytes.length) bytes bytes := by
  intro rest
  rw [take_eq, List.take_left, List.drop_left, if_neg (Nat.lt_irrefl _)]

/-- A number below 128 is a byte of its own; where it is the last one allowed it has a bound. -/
theorem reads_varint_last {bound left n : Nat} (low : n < 128) (fits : left = 0 → n ≤ bound) :
    Reads (Reader.varint bound (left + 1)) (Packed.varint n) n := by
  have same : (UInt8.ofNat n).toNat = n := UInt8.toNat_ofNat_of_lt (Nat.lt_trans low (by decide))
  rw [Packed.varint, if_pos low]
  refine (reads_byte _).ending ?_
  have allowed : ¬(left = 0 ∧ bound < n) := fun ⟨full, beyond⟩ => Nat.not_lt.mpr (fits full) beyond
  simp only [same, if_pos low, if_neg allowed]
  exact reads_pure

-- Every byte but the last takes seven bits off the number.
theorem reads_varint {bound left n : Nat} (low : bound < 128)
    (fits : n < Nat.pow 128 left * (bound + 1)) :
    Reads (Reader.varint bound (left + 1)) (Packed.varint n) n := by
  induction left generalizing n with
  | zero =>
    have last : n < bound + 1 := by
      rwa [show Nat.pow 128 0 = 1 from rfl, Nat.one_mul] at fits
    exact reads_varint_last (by omega) fun _ => by omega
  | succ left ih =>
    by_cases short : n < 128
    · exact reads_varint_last short nofun
    · have power : Nat.pow 128 (left + 1) = 128 * Nat.pow 128 left := Nat.pow_succ'
      rw [power, Nat.mul_assoc] at fits
      have rest := ih (Nat.div_lt_of_lt_mul fits)
      have same : (UInt8.ofNat (n % 128 + 128)).toNat = n % 128 + 128 :=
        UInt8.toNat_ofNat_of_lt (show n % 128 + 128 < 256 by omega)
      have whole : n % 128 + 128 - 128 + 128 * (n / 128) = n := by omega
      rw [Packed.varint, if_neg short]
      refine (reads_byte _).andThen ?_
      simp only [same, if_neg (show ¬n % 128 + 128 < 128 by omega)]
      refine rest.ending ?_
      rw [whole]
      exact reads_pure

theorem reads_choice {n : Nat} (fits : n < UInt32.size) : Reads choice (Packed.varint n) n :=
  reads_varint (by decide) fits

theorem reads_length {n : Nat} (fits : n < UInt64.size) : Reads length (Packed.varint n) n :=
  reads_varint (by decide) fits

theorem fromUTF8?_toUTF8 (s : String) : String.fromUTF8? ⟨s.toUTF8.toList.toArray⟩ = some s := by
  have same : (⟨s.toUTF8.toList.toArray⟩ : ByteArray) = s.toUTF8 := by
    rw [toList_byteArray, Array.toArray_toList]
  have valid : s.toUTF8.IsValidUTF8 := s.isValidUTF8
  rw [same, String.fromUTF8?, dif_pos valid]
  rfl

theorem reads_text {s : String} (fits : (Packed.text s).length < UInt64.size) :
    Reads text (Packed.text s) s := by
  have count : s.toUTF8.toList.length < UInt64.size := by
    rw [Packed.text, List.length_append] at fits
    omega
  refine (reads_length count).andThen ((reads_take _).ending ?_)
  rw [fromUTF8?_toUTF8]
  exact reads_pure

theorem reads_boolean (b : Bool) : Reads boolean [if b then 1 else 0] b := by
  cases b <;> exact fun _ => rfl

theorem reads_option {α : Type} {one : Reader α} {write : α → List UInt8} {found : Option α}
    (reads : ∀ a, found = some a → Reads one (write a) a) :
    Reads (option one) (Packed.option write found) found := by
  cases found with
  | none => exact fun _ => rfl
  | some a => exact (reads_byte 1).andThen ((reads a rfl).ending reads_pure)

-- The induction is on the things still to be read; those before are at hand, last first.
theorem reads_manyOnto {α : Type} {one : Reader α} {write : α → List UInt8} (xs done : List α)
    (reads : ∀ x ∈ xs, Reads one (write x) x) :
    Reads (manyOnto one xs.length done) (xs.flatMap write) (done.reverse ++ xs) := by
  induction xs generalizing done with
  | nil =>
    rw [List.append_nil]
    exact reads_pure
  | cons x xs ih =>
    have rest := ih (x :: done) fun y member => reads y (List.mem_cons_of_mem x member)
    rw [List.reverse_cons, List.append_assoc, List.singleton_append] at rest
    exact (reads x List.mem_cons_self).andThen rest

theorem reads_sequence {α : Type} {one : Reader α} {write : α → List UInt8} {xs : List α}
    (reads : ∀ x ∈ xs, Reads one (write x) x) (fits : xs.length < UInt64.size) :
    Reads (sequence one) (Packed.varint xs.length ++ xs.flatMap write) xs :=
  (reads_length fits).andThen (reads_manyOnto xs [] reads)

theorem reads_type (ty : Ty) : Reads type (Packed.type ty) ty := by
  cases ty <;> exact (reads_choice (by decide)).ending reads_pure

theorem reads_binaryOp (op : BinaryOp) :
    Reads binaryOp (Packed.varint (binaryIndex op)) op := by
  cases op with
  | arith op | order op | logic op =>
    cases op <;> exact (reads_choice (by decide)).ending reads_pure
  | equal | notEqual => exact (reads_choice (by decide)).ending reads_pure

theorem reads_unaryOp (op : UnaryOp) : Reads unaryOp (Packed.varint (unaryIndex op)) op := by
  cases op <;> exact (reads_choice (by decide)).ending reads_pure

theorem reads_param {p : Param} (fits : (Packed.param p).length < UInt64.size) :
    Reads param (Packed.param p) p := by
  rw [Packed.param, List.length_append] at fits
  refine (reads_text (by omega)).andThen (Reads.ending ?_ reads_pure)
  exact reads_option fun ty _ => reads_type ty

/-- Things whose forms are not empty and short enough for their reader, after their number. -/
theorem reads_block {α : Type} {one : Reader α} {write : α → List UInt8} {xs : List α} {fuel : Nat}
    (reads : ∀ x, (write x).length ≤ fuel ∧ (write x).length < UInt64.size → Reads one (write x) x)
    (filled : ∀ x, 0 < (write x).length)
    (fits : (xs.flatMap write).length ≤ fuel ∧ (xs.flatMap write).length < UInt64.size) :
    Reads (sequence one) (Packed.varint xs.length ++ xs.flatMap write) xs := by
  refine reads_sequence (fun x member => reads x ?_) (Nat.lt_of_le_of_lt ?_ fits.2)
  · have part : (write x).length ≤ (xs.flatMap write).length :=
      (List.sublist_flatten_of_mem (List.mem_map_of_mem member)).length_le
    omega
  · clear fits
    induction xs with
    | nil => exact Nat.zero_le _
    | cons x xs ih =>
      have := filled x
      rw [List.flatMap_cons, List.length_append, List.length_cons]
      omega

end Reader

theorem varint_pos (n : Nat) : 0 < (varint n).length := by
  unfold varint
  split <;> exact Nat.succ_pos _

theorem values_eq_flatMap (items : List Value) : values items = items.flatMap value := by
  induction items with
  | nil => rfl
  | cons first more ih => rw [values, ih, List.flatMap_cons]

theorem nodes_eq_flatMap (block : List Node) : nodes block = block.flatMap node := by
  induction block with
  | nil => rfl
  | cons first more ih => rw [nodes, ih, List.flatMap_cons]

theorem nodeOption_eq_option (found : Option Node) : nodeOption found = option node found := by
  cases found <;> rfl

theorem blockOption_eq_option (found : Option (List Node)) : blockOption found =
    option (fun block => varint block.length ++ block.flatMap node) found := by
  cases found with
  | none => rfl
  | some block => rw [blockOption, nodes_eq_flatMap, option]

theorem value_pos (v : Value) : 0 < (value v).length := by
  have tag := varint_pos
  cases v <;> simp only [value, List.length_append, List.append_assoc, Nat.add_pos_left, tag]

theorem param_pos (p : Param) : 0 < (param p).length := by
  simp only [param, text, List.length_append, List.append_assoc, Nat.add_pos_left, varint_pos]

theorem node_pos (n : Node) : 0 < (node n).length := by
  have tag := varint_pos
  cases n <;> simp only [node, List.length_append, List.append_assoc, Nat.add_pos_left, tag]

namespace Reader

-- What is inside a value is shorter than the value, so the fuel that is enough for the value is
-- enough for it.
theorem reads_value {fuel : Nat} {v : Value}
    (fits : (Packed.value v).length ≤ fuel ∧ (Packed.value v).length < UInt64.size) :
    Reads (value fuel) (Packed.value v) v := by
  induction fuel generalizing v with
  | zero =>
    have filled := value_pos v
    omega
  | succ fuel ih =>
    cases v with
    | number n =>
      refine (reads_choice (by decide)).andThen ?_
      have taken := reads_take (Bytes.little 8 n.bits.toNat)
      rw [Bytes.length_little] at taken
      refine taken.ending ?_
      rw [Bytes.value_little, Nat.mod_eq_of_lt n.bits.toNat_lt, UInt64.ofNat_toNat]
      exact reads_pure
    | string s =>
      simp only [Packed.value, List.length_append] at fits
      exact (reads_choice (by decide)).andThen ((reads_text (by omega)).ending reads_pure)
    | boolean b =>
      exact (reads_choice (by decide)).andThen ((reads_boolean b).ending reads_pure)
    | list items =>
      have tag := varint_pos 3
      simp only [Packed.value, List.length_append, values_eq_flatMap, List.append_assoc] at fits ⊢
      refine (reads_choice (by decide)).andThen (Reads.ending ?_ reads_pure)
      exact reads_block (fun _ => ih) value_pos (by omega)
    | void => exact (reads_choice (by decide)).ending reads_pure

-- As for values; blocks and lists of arguments are read by the reader of what is inside.
theorem reads_node {fuel : Nat} {n : Node}
    (fits : (Packed.node n).length ≤ fuel ∧ (Packed.node n).length < UInt64.size) :
    Reads (node fuel) (Packed.node n) n := by
  induction fuel generalizing n with
  | zero =>
    have filled := node_pos n
    omega
  | succ fuel ih =>
    have block {body : List Node} (fits : (body.flatMap Packed.node).length ≤ fuel ∧
        (body.flatMap Packed.node).length < UInt64.size) :
        Reads (sequence (node fuel)) (Packed.varint body.length ++ body.flatMap Packed.node) body :=
      reads_block (fun _ => ih) node_pos fits
    have typeOption (found : Option Ty) :
        Reads (option type) (Packed.option Packed.type found) found :=
      reads_option fun ty _ => reads_type ty
    have nodeOption {found : Option Node}
        (fits : (Packed.option Packed.node found).length ≤ fuel + 1 ∧
          (Packed.option Packed.node found).length < UInt64.size) :
        Reads (option (node fuel)) (Packed.option Packed.node found) found := by
      refine reads_option fun m given => ?_
      rw [given, Packed.option, List.length_cons] at fits
      exact ih (by omega)
    cases n with
    | literal v =>
      have tag := varint_pos 0
      simp only [Packed.node, List.length_append] at fits
      exact (reads_choice (by decide)).andThen ((reads_value (by omega)).ending reads_pure)
    | unary op operand =>
      have tag := varint_pos 1
      simp only [Packed.node, List.length_append, List.append_assoc] at fits ⊢
      exact (reads_choice (by decide)).andThen
        ((reads_unaryOp op).andThen ((ih (by omega)).ending reads_pure))
    | binary op left right =>
      have tag := varint_pos 2
      simp only [Packed.node, List.length_append, List.append_assoc] at fits ⊢
      exact (reads_choice (by decide)).andThen ((ih (by omega)).andThen
        ((reads_binaryOp op).andThen ((ih (by omega)).ending reads_pure)))
    | result => exact (reads_choice (by decide)).ending reads_pure
    | var name =>
      simp only [Packed.node, List.length_append] at fits
      exact (reads_choice (by decide)).andThen ((reads_text (by omega)).ending reads_pure)
    | declare name ty start =>
      have tag := varint_pos 5
      simp only [Packed.node, List.length_append, List.append_assoc, nodeOption_eq_option] at fits ⊢
      exact (reads_choice (by decide)).andThen ((reads_text (by omega)).andThen
        ((typeOption ty).andThen ((nodeOption (by omega)).ending reads_pure)))
    | assign name new =>
      have tag := varint_pos 6
      simp only [Packed.node, List.length_append, List.append_assoc] at fits ⊢
      exact (reads_choice (by decide)).andThen
        ((reads_text (by omega)).andThen ((ih (by omega)).ending reads_pure))
    | branch condition body otherwise =>
      have tag := varint_pos 7
      simp only [Packed.node, List.length_append, nodes_eq_flatMap, blockOption_eq_option] at fits
      simp only [Packed.node, List.append_assoc, nodes_eq_flatMap, blockOption_eq_option]
      rw [← List.append_assoc (Packed.varint _) (List.flatMap _ _)]
      refine (reads_choice (by decide)).andThen ((ih (by omega)).andThen
        ((block (by omega)).andThen (Reads.ending ?_ reads_pure)))
      refine reads_option fun other given => ?_
      rw [given, Packed.option, List.length_cons, List.length_append] at fits
      exact block (by omega)
    | loop condition body =>
      have tag := varint_pos 8
      simp only [Packed.node, List.length_append, List.append_assoc, nodes_eq_flatMap] at fits ⊢
      exact (reads_choice (by decide)).andThen
        ((ih (by omega)).andThen ((block (by omega)).ending reads_pure))
    | times count body =>
      have tag := varint_pos 9
      simp only [Packed.node, List.length_append, List.append_assoc, nodes_eq_flatMap] at fits ⊢
      exact (reads_choice (by decide)).andThen
        ((ih (by omega)).andThen ((block (by omega)).ending reads_pure))
    | call name arguments =>
      have tag := varint_pos 10
      simp only [Packed.node, List.length_append, List.append_assoc, nodes_eq_flatMap] at fits ⊢
      exact (reads_choice (by decide)).andThen
        ((reads_text (by omega)).andThen ((block (by omega)).ending reads_pure))
    | define name ps returns body =>
      have tag := varint_pos 11
      simp only [Packed.node, Packed.params, List.length_append, nodes_eq_flatMap] at fits
      simp only [Packed.node, List.append_assoc, nodes_eq_flatMap]
      refine (reads_choice (by decide)).andThen ((reads_text (by omega)).andThen
        (Reads.andThen ?_ ((typeOption returns).andThen ((block (by omega)).ending reads_pure))))
      exact reads_block (fun _ fits => reads_param fits.2) param_pos ⟨Nat.le_refl _, by omega⟩
    | convert operand target =>
      have tag := varint_pos 12
      simp only [Packed.node, List.length_append, List.append_assoc] at fits ⊢
      exact (reads_choice (by decide)).andThen
        ((ih (by omega)).andThen ((reads_type target).ending reads_pure))
    | giveBack expr =>
      simp only [Packed.node, List.length_append, nodeOption_eq_option] at fits ⊢
      exact (reads_choice (by decide)).andThen ((nodeOption (by omega)).ending reads_pure)
    | list items =>
      have tag := varint_pos 14
      simp only [Packed.node, List.length_append, List.append_assoc, nodes_eq_flatMap] at fits ⊢
      exact (reads_choice (by decide)).andThen ((block (by omega)).ending reads_pure)
    | item index list =>
      have tag := varint_pos 15
      simp only [Packed.node, List.length_append, List.append_assoc] at fits ⊢
      exact (reads_choice (by decide)).andThen
        ((ih (by omega)).andThen ((ih (by omega)).ending reads_pure))
    | setItem index list new =>
      have tag := varint_pos 16
      simp only [Packed.node, List.length_append, List.append_assoc] at fits ⊢
      exact (reads_choice (by decide)).andThen ((ih (by omega)).andThen
        ((ih (by omega)).andThen ((ih (by omega)).ending reads_pure)))

end Reader

/-- The packed form of a program is read back as that program, whatever stands behind it. -/
theorem read_program (p : Program) (rest : List UInt8) (fits : (program p).length < UInt64.size) :
    read (program p ++ rest) = .ok p := by
  have whole :
      Reader.Reads (Reader.sequence (Reader.node (program p ++ rest).length)) (program p) p := by
    rw [program, List.length_append, nodes_eq_flatMap] at fits
    rw [List.length_append, program, List.length_append, nodes_eq_flatMap]
    exact Reader.reads_block (fun _ => Reader.reads_node) node_pos (by omega)
  have done := whole rest
  unfold read
  show Except.bind _ _ = _
  rw [show (Reader.sequence _).run (program p ++ rest) = _ from done]
  rfl

/-- A definition with an open parameter, a branch on two sides, and a literal with lists in lists of
which one is so long that its length takes two bytes; other bytes follow. -/
theorem read_program_definition : ∃ p : Program,
    p = [.define "größer" [⟨"n", none⟩, ⟨"m", some .list⟩] (some .boolean)
        [.branch (.binary (.order .greater) (.var "n") (.literal (.number .one)))
          [.giveBack (some (.literal (.boolean true)))]
          (some [.giveBack (some (.unary .invert (.literal (.boolean true))))])],
      .declare "x" none
        (some (.literal (.list (List.replicate 200 (.list [.void, .string "ß"])))))] ∧
    (program p).length < UInt64.size ∧ read (program p ++ [255, 0]) = .ok p := by
  refine ⟨_, rfl, ?_⟩
  refine ⟨?fits, read_program _ [255, 0] ?fits⟩
  decide +kernel

end Packed

end Primer
