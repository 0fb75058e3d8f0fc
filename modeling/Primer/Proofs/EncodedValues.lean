import Primer.Proofs.Streams

/-!
Encoded values. A value has an encoded form unless something void or too long stands in it, however
deep. The encoded form is read back wherever it stands in a buffer, so that none is the start of
another, and no two values share one.
-/

set_option autoImplicit false
set_option relaxedAutoImplicit false

namespace Primer.Value

/-- A value stands in another: it is the whole, or it stands in an item. -/
inductive Within (part : Value) : Value → Prop
  | whole : Within part part
  | item {items : List Value} {item : Value} (member : item ∈ items) (inner : Within part item) :
      Within part (.list items)

/-- Values are built from lists of values. -/
@[elab_as_elim]
theorem induction {motive : Value → Prop} (number : ∀ n, motive (.number n))
    (string : ∀ s, motive (.string s)) (boolean : ∀ b, motive (.boolean b))
    (list : ∀ items, (∀ item ∈ items, motive item) → motive (.list items)) (void : motive .void)
    (v : Value) : motive v := by
  refine @Value.rec motive (fun items => ∀ item ∈ items, motive item) number string
    boolean list void nofun ?_ v
  intro first more holds rest item member
  rcases List.mem_cons.mp member with rfl | later
  · exact holds
  · exact rest item later

/-- What passes the check has an encoded form, by the rule that does not mention the encoder. -/
theorem encodable_of_check {v : Value} (passes : v.check = .ok ()) : v.Encodable := by
  induction v using Value.induction with
  | number n => exact .number n
  | boolean b => exact .boolean b
  | string s => exact .string (check_string passes)
  | list items ih =>
    obtain ⟨short, all⟩ := check_list passes
    exact .list short fun item member => ih item member (all item member)
  | void => cases passes

theorem check_eq_ok_iff {v : Value} : v.check = .ok () ↔ v.Encodable :=
  ⟨encodable_of_check, Encodable.check⟩

/-- What is encoded is written. -/
theorem encode_eq_ok_iff {v : Value} {bytes : List UInt8} :
    v.encode = .ok bytes ↔ v.Encodable ∧ bytes = v.write := by
  rw [← check_eq_ok_iff, encode]
  cases v.check with
  | error fault => simp [bind, Except.bind]
  | ok passed => simp [bind, Except.bind, pure, Except.pure, eq_comm]

theorem Encodable.within {v part : Value} (encodable : v.Encodable) (inside : part.Within v) :
    part.Encodable := by
  induction inside with
  | whole => exact encodable
  | item member _ ih =>
    cases encodable with
    | list short inner => exact ih (inner _ member)

/-- A value whose parts are all in order has an encoded form. -/
theorem encodable_of_within {v : Value} (filled : ¬void.Within v)
    (strings : ∀ s, (string s).Within v → Text.unitCount s.toList ≤ 65535)
    (lists : ∀ items, (list items).Within v → items.length ≤ 65535) : v.Encodable := by
  induction v using Value.induction with
  | number n => exact .number n
  | boolean b => exact .boolean b
  | string s => exact .string (strings s .whole)
  | list items ih =>
    refine .list (lists items .whole) fun item member => ih item member ?_ ?_ ?_
    · exact fun inside => filled (.item member inside)
    · exact fun s inside => strings s (.item member inside)
    · exact fun others inside => lists others (.item member inside)
  | void => exact absurd .whole filled

/-- The rule for encoded forms, part by part. -/
theorem encodable_iff_within {v : Value} : v.Encodable ↔ ¬void.Within v ∧
    (∀ s, (string s).Within v → Text.unitCount s.toList ≤ 65535) ∧
    ∀ items, (list items).Within v → items.length ≤ 65535 := by
  constructor
  · intro encodable
    refine ⟨fun inside => ?_, fun s inside => ?_, fun items inside => ?_⟩
    · cases encodable.within inside
    · cases encodable.within inside with
      | string short => exact short
    · cases encodable.within inside with
      | list short => exact short
  · rintro ⟨filled, strings, lists⟩
    exact encodable_of_within filled strings lists

/-- The encoded form is read back, whatever stands around it. -/
theorem Encodable.valueAt_write {v : Value} (encodable : v.Encodable) (front rest : List UInt8) :
    (Bytecode.ofList (front ++ v.write ++ rest)).valueAt front.length =
      .ok (v, front.length + v.write.length) := by
  refine Bytecode.readValue_write encodable.check ?_
  simp [Bytecode.Holds, Bytecode.ofList]

/-- Of two encoded forms neither is the start of the other, unless the values are the same. -/
theorem Encodable.eq_of_prefix {v other : Value} (encodable : v.Encodable)
    (encodable' : other.Encodable) (start : v.write <+: other.write) : v = other := by
  obtain ⟨rest, whole⟩ := start
  have first := encodable.valueAt_write [] rest
  have second := encodable'.valueAt_write [] []
  rw [List.nil_append, whole] at first
  rw [List.nil_append, List.append_nil, first] at second
  exact congrArg Prod.fst (Except.ok.inj second)

/-- A value has an encoded form just when nothing in it is void, no string in it has more units and
no list in it has more items than the field of the length can tell. From every place of a buffer the
encoded form is read back as that value, up to where it ends. So no encoded form starts another, and
two values have two encoded forms. -/
theorem encode_delimited (v : Value) :
    ((∃ bytes, v.encode = .ok bytes) ↔ ¬void.Within v ∧
      (∀ s, (string s).Within v → Text.unitCount s.toList ≤ 65535) ∧
      ∀ items, (list items).Within v → items.length ≤ 65535) ∧
    ∀ bytes, v.encode = .ok bytes →
      (∀ front rest, (Bytecode.ofList (front ++ bytes ++ rest)).valueAt front.length =
        .ok (v, front.length + bytes.length)) ∧
      ∀ other bytes', other.encode = .ok bytes' →
        (bytes <+: bytes' → bytes = bytes') ∧ (v ≠ other → bytes ≠ bytes') := by
  refine ⟨?_, fun bytes encoded => ?_⟩
  · rw [← encodable_iff_within]
    constructor
    · rintro ⟨bytes, encoded⟩
      exact (encode_eq_ok_iff.mp encoded).1
    · intro encodable
      exact ⟨v.write, encode_eq_ok_iff.mpr ⟨encodable, rfl⟩⟩
  · obtain ⟨encodable, rfl⟩ := encode_eq_ok_iff.mp encoded
    refine ⟨encodable.valueAt_write, fun other bytes' encoded' => ?_⟩
    obtain ⟨encodable', rfl⟩ := encode_eq_ok_iff.mp encoded'
    refine ⟨fun start => ?_, fun different same => different ?_⟩
    · rw [encodable.eq_of_prefix encodable' start]
    · exact encodable.eq_of_prefix encodable' (same ▸ List.prefix_rfl)

/-- A NaN with a payload, a character of two units and a list in a list; an item that is void, or
one item more than fits, leaves no encoded form. -/
theorem encode_delimited_nested :
    (∃ bytes, (list [number ⟨0x7FF8000000000001⟩, list [string "𝄞", boolean true]]).encode =
      .ok bytes ∧ ∀ front rest, (Bytecode.ofList (front ++ bytes ++ rest)).valueAt front.length =
        .ok (list [number ⟨0x7FF8000000000001⟩, list [string "𝄞", boolean true]],
          front.length + bytes.length)) ∧
    (¬∃ bytes, (list [boolean true, list [void]]).encode = .ok bytes) ∧
    ¬∃ bytes, (list (List.replicate 65536 (boolean true))).encode = .ok bytes := by
  refine ⟨⟨_, rfl, ((encode_delimited _).2 _ rfl).1⟩, fun encoded => ?_, fun encoded => ?_⟩
  · have filled := ((encode_delimited _).1.mp encoded).1
    exact filled
      (.item (List.mem_cons_of_mem _ List.mem_cons_self) (.item List.mem_cons_self .whole))
  · have short := ((encode_delimited _).1.mp encoded).2.2 _ .whole
    rw [List.length_replicate] at short
    exact absurd short (by decide)

end Primer.Value
