import Primer.Segment
import Primer.Proofs.Regions

/-!
Programs compiled in pieces. A unit of two programs is compiled exactly as the first and then the
second: the same errors, the same compiler in the end, and the same top-level code, laid one after
the other. What differs is where the code stands, so the targets of its jumps are moved and no other
byte changes.
-/

set_option autoImplicit false
set_option relaxedAutoImplicit false

namespace Primer

namespace Bytes

theorem little_mod (width n : Nat) : little width (n % Nat.pow 256 width) = little width n := by
  induction width generalizing n with
  | zero => rfl
  | succ width ih =>
    have power : Nat.pow 256 (width + 1) = 256 * Nat.pow 256 width := Nat.pow_succ'
    have low : UInt8.ofNat (n % (256 * Nat.pow 256 width)) = UInt8.ofNat n := by
      apply UInt8.toNat.inj
      rw [UInt8.toNat_ofNat', UInt8.toNat_ofNat']
      exact Nat.mod_mul_right_mod n 256 _
    rw [little, little, power, low, Nat.mod_mul_right_div_self, ih]

/-- A field that is read, added to and written back is added to. -/
theorem little_value_add (width n more : Nat) :
    little width (value (little width n) + more) = little width (n + more) := by
  rw [value_little, ← little_mod width (_ + more), Nat.mod_add_mod, little_mod]

end Bytes

namespace Segment

theorem overwrite_between (less old more : List UInt8) {new : List UInt8}
    (same : old.length = new.length) :
    overwrite (less ++ old ++ more).toArray less.length new = (less ++ new ++ more).toArray := by
  induction new generalizing less old with
  | nil =>
    rw [List.eq_nil_of_length_eq_zero same]
    rfl
  | cons byte new ih =>
    obtain ⟨first, rest, rfl⟩ := List.exists_cons_of_length_eq_add_one same
    have set : (less ++ first :: rest ++ more).toArray.setIfInBounds less.length byte =
        ((less ++ [byte]) ++ rest ++ more).toArray := by
      simp
    have later := ih (less ++ [byte]) rest (Nat.succ.inj same)
    rw [List.length_append] at later
    rw [overwrite, set]
    simpa using later

theorem field_between (less more : List UInt8) {bytes : List UInt8} (four : bytes.length = 4) :
    field (less ++ bytes ++ more).toArray less.length = Bytes.value bytes := by
  rw [field, List.extract_toArray, ← four]
  simp [List.extract]

/-- Moving the field that an address stands in. -/
theorem move_between (displacement : Nat) (less more : List UInt8) (address : Nat) :
    move displacement (less ++ Bytes.little 4 address ++ more).toArray less.length =
      (less ++ Bytes.little 4 (address + displacement) ++ more).toArray := by
  rw [move, field_between less more (Bytes.length_little 4 address), Bytes.little_value_add]
  exact overwrite_between less _ more (by simp)

/-- The segment with a displacement added to every relocated address. -/
def moved (s : Segment) (displacement : Nat) : Segment :=
  { s with bytes := s.relocations.foldl (move displacement) s.bytes }

end Segment

namespace Fragment

/-- Where the targets of the jumps are written, the first instruction at an offset. -/
def fields (start : Nat) (code : Fragment) : List Nat :=
  ((listing start code).filter (·.2.jump?.isSome)).map (·.1 + 1)

theorem fields_cons (start : Nat) (i : Instruction) (rest : Fragment) :
    fields start (i :: rest) =
      (if i.jump?.isSome then [start + 1] else []) ++ fields (start + i.size) rest := by
  rw [fields, listing, List.filter_cons]
  by_cases jumps : i.jump?.isSome
  · rw [if_pos jumps, if_pos jumps]
    rfl
  · rw [if_neg jumps, if_neg jumps]
    rfl

theorem fields_append (start : Nat) (first second : Fragment) :
    fields start (first ++ second) = fields start first ++ fields (start + size first) second := by
  simp only [fields, listing_append, List.filter_append, List.map_append]

theorem fields_shift (start : Nat) (code : Fragment) (distance : Nat) :
    fields start (code.shift distance) = fields start code := by
  induction code generalizing start with
  | nil => rfl
  | cons i rest ih =>
    rw [shift_cons, fields_cons, fields_cons, ih, Instruction.jump?_shift, Option.isSome_map,
      Instruction.size_shift]

theorem fields_add (distance start : Nat) (code : Fragment) :
    fields (distance + start) code = (fields start code).map (distance + ·) := by
  induction code generalizing start with
  | nil => rfl
  | cons i rest ih =>
    rw [fields_cons, fields_cons, Nat.add_assoc distance start i.size, ih, List.map_append]
    by_cases jumps : i.jump?.isSome <;> simp [jumps, Nat.add_assoc]

theorem bytes_append (first second : Fragment) :
    bytes (first ++ second) = bytes first ++ bytes second :=
  List.flatMap_append

/-- The bytes of shifted code: the targets of the jumps are moved, and no other byte changes. -/
theorem bytes_shift_between (distance : Nat) (less more : List UInt8) (code : Fragment) :
    (fields less.length code).foldl (Segment.move distance) (less ++ code.bytes ++ more).toArray =
      (less ++ (code.shift distance).bytes ++ more).toArray := by
  induction code generalizing less with
  | nil => rfl
  | cons i rest ih =>
    have later := ih (less ++ (i.shift distance).write)
    have size : (i.shift distance).write.length = i.size := i.size_shift distance
    rw [List.length_append, size] at later
    have split (first : Instruction) (code : Fragment) :
        less ++ bytes (first :: code) ++ more = less ++ first.write ++ bytes code ++ more := by
      simp [bytes]
    rw [fields_cons, shift_cons, split, split, List.foldl_append]
    by_cases jumps : i.jump?.isSome
    · -- The opcode stays in front of the field, which is the rest of the instruction.
      obtain ⟨op, target, same, moved⟩ : ∃ op target, i.write = [op] ++ Bytes.little 4 target ∧
          (i.shift distance).write = [op] ++ Bytes.little 4 (target + distance) := by
        cases i with
        | jump target => exact ⟨_, target, rfl, rfl⟩
        | jumpIf target => exact ⟨_, target, rfl, rfl⟩
        | _ => cases jumps
      have here : Segment.move distance (less ++ i.write ++ bytes rest ++ more).toArray
          (less.length + 1) = (less ++ (i.shift distance).write ++ bytes rest ++ more).toArray := by
        have moving := Segment.move_between distance (less ++ [op]) (bytes rest ++ more) target
        rw [same, moved]
        simpa using moving
      rw [if_pos jumps, List.foldl_cons, List.foldl_nil, here, later]
    · have stays : i.shift distance = i :=
        Instruction.shift_of_straight (Option.not_isSome_iff_eq_none.mp jumps)
      rw [if_neg jumps, List.foldl_nil, ← later, stays]

theorem bytes_shift (distance : Nat) (code : Fragment) :
    (fields 0 code).foldl (Segment.move distance) code.bytes.toArray =
      (code.shift distance).bytes.toArray := by
  have whole := bytes_shift_between distance [] [] code
  simpa using whole

/-- The fields of the code behind some other code, counted from where it starts. -/
theorem fields_behind (less code : Fragment) :
    ((listing 0 (less ++ code)).filter fun (offset, i) =>
      less.size ≤ offset && i.jump?.isSome).map (·.1 + 1 - less.size) = fields 0 code := by
  have before : ((listing 0 less).filter fun (offset, i) =>
      less.size ≤ offset && i.jump?.isSome) = [] := by
    rw [List.filter_eq_nil_iff]
    rintro ⟨offset, i⟩ member
    obtain ⟨place, rfl, found⟩ := mem_listing.mp member
    have inside := lt_size_of_at? found
    have positive := i.size_pos
    simp only [Bool.and_eq_true, decide_eq_true_eq]
    omega
  have behind : ((listing (0 + less.size) code).filter fun (offset, i) =>
      less.size ≤ offset && i.jump?.isSome) =
        (listing (0 + less.size) code).filter (·.2.jump?.isSome) := by
    refine List.filter_congr ?_
    rintro ⟨offset, i⟩ member
    obtain ⟨place, rfl, -⟩ := mem_listing.mp member
    simp
  have moved := fields_add less.size 0 code
  calc _ = (fields (0 + less.size) code).map (· - less.size) := by
        rw [listing_append, List.filter_append, before, behind, List.nil_append, fields,
          List.map_map]
        rfl
    _ = fields 0 code := by
        rw [Nat.zero_add, ← Nat.add_zero less.size, moved, List.map_map]
        simp [Function.comp_def]

/-- Parts laid one after another, and more parts behind them. -/
theorem sequence_append (first second : List Fragment) :
    sequence (first ++ second) = sequence first ++ shift (sequence second)
      (size (sequence first)) := by
  induction first with
  | nil => simp
  | cons code more ih =>
    rw [List.cons_append, sequence_cons, sequence_cons, ih]
    simp [Nat.add_comm]

end Fragment

namespace Bytecode

/-- The code from an offset on, as a segment: the targets of its jumps move with it. -/
def segmentFrom (code : Bytecode) (start : Nat) : Segment where
  bytes := code.bytes.extract start code.size
  relocations :=
    (code.walk.instructions.filter fun (offset, i) => start ≤ offset && i.jump?.isSome).map
      (·.1 + 1 - start)

end Bytecode

namespace Compiler

variable {c : Compiler} {top : Fragment}

theorem bytes_assemble (c : Compiler) (top : Fragment) :
    (c.assemble (top ++ [Instruction.ret])).bytes =
      (Fragment.bytes ([Instruction.jump c.libraryEnd] ++ c.library) ++
        Fragment.bytes (Fragment.shift (top ++ [Instruction.ret]) c.libraryEnd)).toArray := by
  rw [assemble_eq, image, Fragment.bytes_append]
  rfl

theorem length_library (c : Compiler) :
    (Fragment.bytes ([Instruction.jump c.libraryEnd] ++ c.library)).length = c.libraryEnd := by
  rw [Fragment.length_bytes, ← (image_top c []).2]

/-- In front of the top-level code there is nothing but the library. -/
theorem extract_assemble (c : Compiler) (top : Fragment) :
    (c.assemble (top ++ [Instruction.ret])).bytes.extract 0 c.libraryEnd =
      (Fragment.bytes ([Instruction.jump c.libraryEnd] ++ c.library)).toArray := by
  rw [bytes_assemble, List.extract_toArray, List.extract_eq_take_drop, Nat.sub_zero, List.drop_zero,
    List.take_left' c.length_library]

/-- The top-level code ends with a return. -/
theorem bytes_top (top : Fragment) (base : Nat) :
    Fragment.bytes (Fragment.shift (top ++ [Instruction.ret]) base) =
      Fragment.bytes (Fragment.shift top base) ++ [Opcode.ret.byte] := by
  rw [Fragment.shift_append, Fragment.bytes_append]
  rfl

section Assembled

variable (library : Library c.procedures c.library) (outside : c.draft = none)
  (sound : top.Sound c.Callable) (short : (c.assemble (top ++ [Instruction.ret])).size < 0x80000000)

include library outside sound short

theorem entryPoint_assemble :
    (c.assemble (top ++ [Instruction.ret])).entryPoint = .ok c.libraryEnd := by
  obtain ⟨⟨rest, spells⟩, -⟩ := spells_unit library outside sound short
  rw [Bytecode.entryPoint, spells.head]
  rfl

/-- The top-level code of a unit. -/
theorem segmentFrom_assemble :
    (c.assemble (top ++ [Instruction.ret])).segmentFrom c.libraryEnd =
      ⟨(Fragment.shift (top ++ [Instruction.ret]) c.libraryEnd).bytes.toArray,
        Fragment.fields 0 (top ++ [Instruction.ret])⟩ := by
  obtain ⟨spells, whole⟩ := spells_image library outside sound short
  have walked := Bytecode.walk_spells spells whole
  rw [Bytecode.segmentFrom, Segment.mk.injEq]
  constructor
  · have length := c.length_library
    rw [Bytecode.size, bytes_assemble, List.extract_toArray, List.size_toArray,
      List.extract_eq_take_drop, List.length_append, length, Nat.add_sub_cancel_left,
      List.drop_left' length, List.take_length]
  · have fields := Fragment.fields_behind ([Instruction.jump c.libraryEnd] ++ c.library)
      (Fragment.shift (top ++ [Instruction.ret]) c.libraryEnd)
    rw [Fragment.fields_shift, ← (image_top c top).2] at fields
    rw [walked]
    exact fields

/-- The top-level code of a unit at another place. -/
theorem moved_assemble (displacement : Nat) :
    (((c.assemble (top ++ [Instruction.ret])).segmentFrom c.libraryEnd).moved displacement).bytes =
      (Fragment.shift (top ++ [Instruction.ret]) (c.libraryEnd + displacement)).bytes.toArray := by
  rw [segmentFrom_assemble library outside sound short, Segment.moved]
  have moved :=
    Fragment.bytes_shift displacement (Fragment.shift (top ++ [Instruction.ret]) c.libraryEnd)
  rwa [Fragment.fields_shift, Fragment.shift_shift] at moved

end Assembled

end Compiler

namespace Compile

/-- Statements are compiled one after another, so those of two programs are too. -/
theorem statements_append (first second : List Node) :
    statements (first ++ second) = do
      let before ← statements first
      let behind ← statements second
      return before ++ behind := by
  induction first with
  | nil => simp [statements]
  | cons n more ih =>
    simp only [List.cons_append, statements, ih, bind_assoc, pure_bind]

end Compile

namespace Compiler

/-- The code of a unit of two programs, in terms of the code of each. The top-level code of the
first without its last instruction, which is a return, stands in front of that of the second. -/
structure Joined (code first second : Bytecode) (middle last : Compiler) : Prop where
  entries : first.entryPoint = .ok middle.libraryEnd ∧ second.entryPoint = .ok last.libraryEnd ∧
    code.entryPoint = .ok last.libraryEnd
  later : middle.libraryEnd ≤ last.libraryEnd
  library : code.bytes.extract 0 last.libraryEnd = second.bytes.extract 0 last.libraryEnd
  returns : (first.segmentFrom middle.libraryEnd).bytes.back? = some Opcode.ret.byte
  bytes : (code.segmentFrom last.libraryEnd).bytes =
    ((first.segmentFrom middle.libraryEnd).moved (last.libraryEnd - middle.libraryEnd)).bytes.pop ++
      ((second.segmentFrom last.libraryEnd).moved
        ((first.segmentFrom middle.libraryEnd).size - 1)).bytes
  relocations : (code.segmentFrom last.libraryEnd).relocations =
    (first.segmentFrom middle.libraryEnd).relocations ++
      (second.segmentFrom last.libraryEnd).relocations.map
        ((first.segmentFrom middle.libraryEnd).size - 1 + ·)

theorem Grows.libraryEnd_le {before after : Compiler} (grows : before.Grows after) :
    before.libraryEnd ≤ after.libraryEnd := by
  obtain ⟨more, added⟩ := grows.library
  rw [libraryEnd, libraryEnd, ← added, Fragment.size_append]
  omega

/-- The pieces are no longer than the whole. -/
theorem short_pieces {middle last : Compiler} {top top' : Fragment} (grows : middle.Grows last)
    {limit : Nat}
    (short : (last.assemble (top ++ top'.shift top.size ++ [Instruction.ret])).size < limit) :
    (middle.assemble (top ++ [Instruction.ret])).size < limit ∧
      (last.assemble (top' ++ [Instruction.ret])).size < limit := by
  have later := grows.libraryEnd_le
  rw [size_assemble, Fragment.size_append, Fragment.size_append, Fragment.size_shift] at short
  rw [size_assemble, size_assemble, Fragment.size_append, Fragment.size_append]
  omega

/-- The top-level code of two programs that are compiled one after another. -/
theorem joined {c middle last : Compiler} {P Q : Program} {top top' : Fragment} (ready : c.Ready)
    (before : Yields (.statements P) c ⟨none, top⟩ middle)
    (behind : Yields (.statements Q) middle ⟨none, top'⟩ last)
    (short : (last.assemble (top ++ top'.shift top.size ++ [Instruction.ret])).size < 0x80000000) :
    Joined (last.assemble (top ++ top'.shift top.size ++ [Instruction.ret]))
      (middle.assemble (top ++ [Instruction.ret]))
      (last.assemble (top' ++ [Instruction.ret])) middle last := by
  have ready' := ready.yields before
  have ready'' := ready'.yields behind
  have grows := behind.grows ready'.tidy
  have sound := before.sound ready.tidy
  have sound' := behind.sound ready'.tidy
  have whole := (sound.mono fun _ => grows.callable).append sound'
  have later := grows.libraryEnd_le
  have one : Fragment.size [.ret] = 1 := rfl
  obtain ⟨shortFirst, shortSecond⟩ := short_pieces grows short
  have segment := segmentFrom_assemble ready'.library ready'.outside sound shortFirst
  have segment' := segmentFrom_assemble ready''.library ready''.outside sound' shortSecond
  have joint := segmentFrom_assemble ready''.library ready''.outside whole short
  have length :
      ((middle.assemble (top ++ [Instruction.ret])).segmentFrom middle.libraryEnd).size - 1 =
        top.size := by
    rw [segment, Segment.size, List.size_toArray, Fragment.length_bytes, Fragment.size_shift,
      Fragment.size_append, one, Nat.add_sub_cancel]
  constructor
  · exact ⟨entryPoint_assemble ready'.library ready'.outside sound shortFirst,
      entryPoint_assemble ready''.library ready''.outside sound' shortSecond,
      entryPoint_assemble ready''.library ready''.outside whole short⟩
  · exact later
  · rw [extract_assemble, extract_assemble]
  · rw [segment, bytes_top]
    simp
  · have sum : middle.libraryEnd + (last.libraryEnd - middle.libraryEnd) = last.libraryEnd := by
      omega
    have both : Fragment.shift (top ++ top'.shift top.size ++ [Instruction.ret]) last.libraryEnd =
        Fragment.shift top last.libraryEnd ++
          Fragment.shift (top' ++ [Instruction.ret]) (last.libraryEnd + top.size) := by
      simp [Nat.add_comm, Instruction.shift]
    rw [length, joint, moved_assemble ready'.library ready'.outside sound shortFirst,
      moved_assemble ready''.library ready''.outside sound' shortSecond, sum, bytes_top top, both,
      Fragment.bytes_append]
    simp
  · have behind : Fragment.fields 0 (top'.shift top.size ++ [Instruction.ret]) =
        Fragment.fields 0 (top' ++ [Instruction.ret]) := by
      rw [← Fragment.fields_shift 0 (top' ++ [Instruction.ret]) top.size, Fragment.shift_append]
      rfl
    have returns : Fragment.fields 0 (top ++ [Instruction.ret]) = Fragment.fields 0 top := by
      rw [Fragment.fields_append]
      exact List.append_nil _
    have moved := Fragment.fields_add top.size 0 (top'.shift top.size ++ [Instruction.ret])
    rw [length, joint, segment, segment', List.append_assoc, Fragment.fields_append, returns,
      Nat.zero_add, ← behind, ← moved, Nat.add_zero]

/-- The code of a program, and the compiler behind it. -/
theorem compile_eq {c c' : Compiler} {program : Program} {parts : List Fragment}
    (done : Compile.statements program c = .ok (parts, c')) :
    c.compile program = .ok (c'.assemble (Fragment.sequence parts ++ [Instruction.ret]), c') := by
  unfold compile
  rw [show (Compile.statements program).run c = .ok (parts, c') from done]
  rfl

theorem compile_error {c : Compiler} {program : Program} {fault : CompileError}
    (failed : Compile.statements program c = .error fault) : c.compile program = .error fault := by
  unfold compile
  rw [show (Compile.statements program).run c = .error fault from failed]
  rfl

/-- Two programs compile together exactly when they compile one after the other. The first fault is
the same, and so is the compiler in the end; the code of both is that of each, joined. -/
theorem Reached.compile_append {hosts : List (String × Signature)} {c : Compiler}
    (reached : Reached hosts c) (P Q : Program) :
    match c.compile P with
    | .error fault => c.compile (P ++ Q) = .error fault
    | .ok (first, middle) =>
      match middle.compile Q with
      | .error fault => c.compile (P ++ Q) = .error fault
      | .ok (second, last) => ∃ code, c.compile (P ++ Q) = .ok (code, last) ∧
          (code.size < 0x80000000 → Joined code first second middle last) := by
  have split := Compile.statements_append P Q
  cases before : Compile.statements P c with
  | error fault =>
    rw [compile_error before]
    refine compile_error ?_
    rw [split]
    exact Compile.bind_eq_error.mpr (.inl before)
  | ok found =>
    obtain ⟨parts, middle⟩ := found
    rw [compile_eq before]
    cases behind : Compile.statements Q middle with
    | error fault =>
      simp only [compile_error behind]
      refine compile_error ?_
      rw [split, Compile.bind_of_ok before]
      exact Compile.bind_eq_error.mpr (.inl behind)
    | ok found' =>
      obtain ⟨parts', last⟩ := found'
      simp only [compile_eq behind]
      have both : Compile.statements (P ++ Q) c = .ok (parts ++ parts', last) := by
        rw [split, Compile.bind_of_ok before, Compile.bind_of_ok behind]
        rfl
      refine ⟨_, compile_eq both, fun short => ?_⟩
      rw [Fragment.sequence_append] at short ⊢
      exact joined reached.ready (Task.yields (Compile.joined_eq_ok.mpr ⟨parts, before, rfl⟩))
        (Task.yields (Compile.joined_eq_ok.mpr ⟨parts', behind, rfl⟩)) short

/-- A loop, and behind it a definition, which moves the loop away from the start, and a branch. -/
theorem compile_append_definition : ∃ first middle second last code,
    (new []).compile [.loop (.literal (.boolean false)) [.literal (.string "again")]] =
        .ok (first, middle) ∧
      middle.compile [.define "greet" [] none [.literal (.string "hello")],
        .branch (.literal (.boolean true)) [.call "greet" []] none] = .ok (second, last) ∧
      (new []).compile ([.loop (.literal (.boolean false)) [.literal (.string "again")]] ++
        [.define "greet" [] none [.literal (.string "hello")],
          .branch (.literal (.boolean true)) [.call "greet" []] none]) = .ok (code, last) ∧
      middle.libraryEnd = 5 ∧ last.libraryEnd = 22 ∧ code.size = 67 ∧
      Joined code first second middle last := by
  have lone : ((new []).compile
      [.loop (.literal (.boolean false)) [.literal (.string "again")]]).toOption.map
        (·.2.libraryEnd) = some 5 := by decide +kernel
  have sizes :
      ((new []).compile ([.loop (.literal (.boolean false)) [.literal (.string "again")]] ++
      [.define "greet" [] none [.literal (.string "hello")],
        .branch (.literal (.boolean true)) [.call "greet" []] none])).toOption.map
        (fun made => (made.2.libraryEnd, made.1.size)) = some (22, 67) := by decide +kernel
  have compiled := Reached.compile_append (Reached.new : Reached [] (new []))
    [.loop (.literal (.boolean false)) [.literal (.string "again")]]
    [.define "greet" [] none [.literal (.string "hello")],
      .branch (.literal (.boolean true)) [.call "greet" []] none]
  split at compiled
  · rename_i fault failed
    rw [failed] at lone
    cases lone
  · rename_i first middle before
    rw [before] at lone
    split at compiled
    · rw [compiled] at sizes
      cases sizes
    · rename_i second last behind
      obtain ⟨code, both, joins⟩ := compiled
      rw [both] at sizes
      obtain ⟨start, size⟩ : last.libraryEnd = 22 ∧ code.size = 67 :=
        Prod.mk.inj (Option.some.inj sizes)
      exact ⟨first, middle, second, last, code, before, behind, both, Option.some.inj lone,
        start, size, joins (by rw [size]; decide)⟩

end Compiler

end Primer
