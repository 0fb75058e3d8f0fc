import Primer.Proofs.Compilation.Unit
import Primer.Proofs.Walk

/-!
The structure of compiled bytecode: the jump to the entry point, one region for each procedure in
the order of the definitions, and the region of the top-level code, which ends with a return. Jumps
stay in their region and calls lead to procedures, so every unit that is compiled is accepted.
-/

set_option autoImplicit false
set_option relaxedAutoImplicit false

namespace Primer

namespace Library

variable {procedures : List Procedure} {library : Fragment}

/-- The code of one procedure of the library, and where it starts and stops. -/
structure Region (procedures : List Procedure) (library : Fragment) (procedure : Procedure)
    (stop : Nat) (less code more : Fragment) : Prop where
  parts : library = less ++ code.shift procedure.address ++ more
  start : procedure.address = Compiler.libraryStart + less.size
  stop : stop = procedure.address + code.size
  sound : code.Sound fun target => ∃ other ∈ procedures, other.address = target
  sealed : ¬code.Exits

/-- The region stays when procedures and their code are added. -/
theorem Region.extend {procedure : Procedure} {stop : Nat} {less code more : Fragment}
    (region : Region procedures library procedure stop less code more) (others : List Procedure)
    (extra : Fragment) :
    Region (procedures ++ others) (library ++ extra) procedure stop less code (more ++ extra) where
  parts := by rw [region.parts, List.append_assoc]
  start := region.start
  stop := region.stop
  sound := region.sound.mono fun _ ⟨other, member, same⟩ =>
    ⟨other, List.mem_append_left _ member, same⟩
  sealed := region.sealed

/-- What stopped at the end of the library stops at the procedure that is added there. -/
theorem stop_concat {last : Procedure}
    (address : last.address = Compiler.libraryStart + library.size)
    (others : List Procedure) (stop : Nat) : ((others.concat last).map (·.address)).headD stop =
      (others.map (·.address)).headD (Compiler.libraryStart + library.size) := by
  cases others with
  | nil => exact address
  | cons => rfl

/-- A procedure's region stops where the next one starts. -/
theorem region (whole : Library procedures library) {before after : List Procedure}
    {procedure : Procedure} (split : procedures = before ++ procedure :: after) :
    ∃ less code more, Region procedures library procedure
      ((after.map (·.address)).headD (Compiler.libraryStart + library.size)) less code more := by
  induction whole generalizing after with
  | empty => simp at split
  | @add procedures library last code whole address sound sealed ih =>
    rcases List.eq_nil_or_concat after with rfl | ⟨others, final, rfl⟩
    · obtain ⟨rfl, same⟩ := List.append_inj' split rfl
      cases same
      refine ⟨library, code, [], by simp, address, ?_, sound, sealed⟩
      simp [address, Nat.add_assoc]
    · rw [List.concat_eq_append, ← List.cons_append, ← List.append_assoc] at split
      obtain ⟨rfl, same⟩ := List.append_inj' split rfl
      cases same
      obtain ⟨less, inner, more, found⟩ := ih rfl
      rw [stop_concat address]
      exact ⟨less, inner, _, found.extend _ _⟩

/-- What the instructions of the library are. -/
theorem uses (whole : Library procedures library) : library.Uses
    (Instruction.Fits fun target => ∃ other ∈ procedures, other.address = target) := by
  induction whole with
  | empty => exact Fragment.uses_nil
  | add _ _ sound _ ih =>
    refine Fragment.uses_append.mpr ⟨ih.imp fun i fits => ⟨fits.1, fun target call => ?_⟩,
      Fragment.uses_shift.mpr sound.uses⟩
    obtain ⟨other, member, same⟩ := fits.2 target call
    exact ⟨other, List.mem_append_left _ member, same⟩

/-- The jumps of the library stay in it. -/
theorem jumpsTo (whole : Library procedures library) (front : Fragment)
    (start : front.size = Compiler.libraryStart) :
    library.JumpsTo (Fragment.Boundary (front ++ library)) := by
  induction whole with
  | empty => exact Fragment.jumpsTo_nil _
  | @add _ library last code _ address sound _ ih =>
    rw [← List.append_assoc]
    refine Fragment.jumpsTo_append.mpr ⟨ih.imp fun _ cut => cut.append _, ?_⟩
    refine sound.closed.jumpsTo ((Fragment.lies_shift_end code _).beyond ?_)
    rw [Fragment.size_append, start, address]
    rfl

/-- The addresses ascend from the start of the library to its end. -/
theorem ascending (whole : Library procedures library) :
    (procedures.map (·.address) ++ [Compiler.libraryStart + library.size]).Pairwise (· < ·) ∧
      (procedures.map (·.address) ++ [Compiler.libraryStart + library.size]).head? =
        some Compiler.libraryStart := by
  induction whole with
  | empty => simp
  | @add procedures library last code whole address sound sealed ih =>
    obtain ⟨ascends, starts⟩ := ih
    have filled : 0 < code.size := by
      refine Fragment.size_pos fun none => sealed ?_
      rw [none]
      exact .start
    rw [← address] at ascends starts
    rw [List.map_append, List.map_singleton, Fragment.size_append, Fragment.size_shift,
      ← Nat.add_assoc, ← address]
    refine ⟨List.pairwise_append.mpr ⟨ascends, by simp, ?_⟩, by rw [List.head?_append, starts]; rfl⟩
    intro earlier member later last
    rw [List.mem_singleton] at last
    rw [List.mem_append, List.mem_singleton] at member
    rcases member with member | rfl
    · have := (List.pairwise_append.mp ascends).2.2 earlier member _ List.mem_cons_self
      omega
    · omega

theorem addresses (whole : Library procedures library) :
    (procedures.map (·.address)).Pairwise (· < ·) :=
  (List.pairwise_append.mp whole.ascending.1).1

/-- The addresses of the procedures are inside the library. -/
theorem address_lt (whole : Library procedures library) {p : Procedure} (member : p ∈ procedures) :
    p.address < Compiler.libraryStart + library.size :=
  (List.pairwise_append.mp whole.ascending.1).2.2 _ (List.mem_map_of_mem member) _
    List.mem_cons_self

theorem nodup (whole : Library procedures library) : procedures.Nodup := by
  have ascends := whole.addresses
  rw [List.pairwise_map] at ascends
  exact ascends.imp fun less same => by
    rw [same] at less
    exact Nat.lt_irrefl _ less

/-- No two procedures have one address. -/
theorem address_inj (whole : Library procedures library) {p q : Procedure} (first : p ∈ procedures)
    (second : q ∈ procedures) (same : p.address = q.address) : p = q := by
  have ascends := whole.addresses
  obtain ⟨before, after, rfl⟩ := List.append_of_mem first
  rw [List.map_append, List.map_cons, List.pairwise_append, List.pairwise_cons] at ascends
  obtain ⟨-, ⟨later, -⟩, earlier⟩ := ascends
  rw [List.mem_append, List.mem_cons] at second
  rcases second with inBefore | rfl | inAfter
  · have := earlier _ (List.mem_map_of_mem inBefore) _ List.mem_cons_self
    omega
  · rfl
  · have := later _ (List.mem_map_of_mem inAfter)
    omega

end Library

namespace Bytecode

/-- The offsets of the instructions. -/
def Walk.offsets (walk : Walk) : List Nat := walk.instructions.map Prod.fst

/-- A jump from an instruction of the region leads to an instruction of the region, or to its end if
an instruction starts there. -/
def Walk.Keeps (walk : Walk) (start stop : Nat) : Prop :=
  ∀ offset i target, (offset, i) ∈ walk.instructions → start ≤ offset → offset < stop →
    i.jump? = some target → start ≤ target ∧ target ≤ stop ∧ target ∈ walk.offsets

/-- The regions between starts that ascend; the last one stops at a given offset. -/
def regions : List Nat → Nat → List (Nat × Nat)
  | [], _ => []
  | [start], stop => [(start, stop)]
  | start :: next :: more, stop => (start, next) :: regions (next :: more) stop

/-- The starts of the regions: those of the procedures, and that of the top-level code. -/
def starts (procedures : List Procedure) (entry : Nat) : List Nat :=
  procedures.map (·.address) ++ [entry]

/-- The structure of compiled code. -/
structure Organised (code : Bytecode) (procedures : List Procedure) (entry : Nat) : Prop where
  accepted : code.verify = .ok code.walk.instructions.length
  entryJump : code.walk.instructions.head? = some (0, .jump entry)
  first : (starts procedures entry).head? = some Compiler.libraryStart
  ascending : (starts procedures entry ++ [code.size]).Pairwise (· < ·)
  aligned : ∀ start ∈ starts procedures entry, start ∈ code.walk.offsets
  jumps : ∀ region ∈ regions (starts procedures entry) code.size,
    code.walk.Keeps region.1 region.2
  calls : ∀ offset target, (offset, .call target) ∈ code.walk.instructions →
    ∃ procedure ∈ procedures, procedure.address = target
  finalReturn : ∃ offset, code.walk.instructions.getLast? = some (offset, .ret)

/-- A region is that of a procedure or the last. -/
theorem mem_regions {procedures : List Procedure} {entry stop : Nat} {region : Nat × Nat}
    (member : region ∈ regions (starts procedures entry) stop) :
    region = (entry, stop) ∨ ∃ before procedure after, procedures = before ++ procedure :: after ∧
      region = (procedure.address, (after.map (·.address)).headD entry) := by
  induction procedures with
  | nil => exact .inl (by simpa [starts, regions] using member)
  | cons procedure more ih =>
    have unfolded : regions (starts (procedure :: more) entry) stop =
        (procedure.address, (more.map (·.address)).headD entry) ::
          regions (starts more entry) stop := by
      cases more <;> rfl
    rw [unfolded, List.mem_cons] at member
    rcases member with rfl | later
    · exact .inr ⟨[], procedure, more, rfl, rfl⟩
    · rcases ih later with same | ⟨before, other, after, rfl, same⟩
      · exact .inl same
      · exact .inr ⟨procedure :: before, other, after, rfl, same⟩

/-- Closed code with something behind it keeps its jumps. -/
theorem keeps_closed (less : Fragment) {code more : Fragment} (closed : code.Closed)
    (filled : more ≠ []) :
    Walk.Keeps ⟨Fragment.listing 0 (less ++ code.shift less.size ++ more), none⟩ less.size
      (less.size + code.size) := by
  intro offset i target member start stop jumps
  obtain ⟨place, same, found⟩ := Fragment.mem_listing.mp member
  rw [Nat.zero_add] at same
  subst same
  obtain ⟨rest, rfl⟩ := Nat.exists_eq_add_of_le start
  rw [List.append_assoc, Fragment.at?_append_right,
    Fragment.at?_append_left (by rw [Fragment.size_shift]; omega)] at found
  obtain ⟨inner, there, rfl⟩ := Fragment.at?_shift_eq_some found
  rw [Instruction.jump?_shift, Option.map_eq_some_iff] at jumps
  obtain ⟨local', jumps, rfl⟩ := jumps
  have cut := closed inner (Fragment.mem_of_at? there) local' jumps
  have inside := cut.le_size
  have shifted : (code.shift less.size).Boundary local' := Fragment.boundary_shift.mpr cut
  have whole := (shifted.append more).prepend less
  rw [← List.append_assoc] at whole
  have behind := Fragment.size_pos filled
  have listed := whole.mem_listing (by simp; omega) 0
  rw [Nat.zero_add] at listed
  rw [Nat.add_comm local']
  exact ⟨by omega, by omega, listed⟩

end Bytecode

namespace Compiler

variable {c : Compiler} {top : Fragment}

/-- The instructions of a unit: the jump to the entry point, the library and the top-level code. -/
def image (c : Compiler) (top : Fragment) : Fragment :=
  [.jump c.libraryEnd] ++ c.library ++ Fragment.shift (top ++ [.ret]) c.libraryEnd

theorem assemble_eq (c : Compiler) (top : Fragment) :
    c.assemble (top ++ [Instruction.ret]) = .ofList (c.image top).bytes := rfl

theorem size_image (c : Compiler) (top : Fragment) :
    (c.image top).size = c.libraryEnd + top.size + 1 := by
  have one : Instruction.ret.size = 1 := rfl
  simp [image, libraryEnd, libraryStart, one]
  omega

/-- The top-level code takes up the rest of the buffer. -/
theorem size_assemble (c : Compiler) (top : Fragment) :
    (c.assemble (top ++ [Instruction.ret])).size =
      c.libraryEnd + Fragment.size (top ++ [Instruction.ret]) := by
  have whole : (c.image top).size = (c.assemble (top ++ [Instruction.ret])).size := by
    simp [assemble_eq, Bytecode.size, Bytecode.ofList, Fragment.length_bytes]
  have one : Fragment.size [.ret] = 1 := rfl
  rw [← whole, size_image, Fragment.size_append, one, Nat.add_assoc]

/-- The region of a procedure in a unit. -/
theorem image_region (top : Fragment) {procedure : Procedure} {stop : Nat}
    {less code more : Fragment}
    (region : Library.Region c.procedures c.library procedure stop less code more) :
    c.image top = [Instruction.jump c.libraryEnd] ++ less ++
        code.shift (Fragment.size ([Instruction.jump c.libraryEnd] ++ less)) ++
        (more ++ Fragment.shift (top ++ [Instruction.ret]) c.libraryEnd) ∧
      procedure.address = Fragment.size ([Instruction.jump c.libraryEnd] ++ less) := by
  have start : procedure.address = Fragment.size ([Instruction.jump c.libraryEnd] ++ less) := by
    simp [region.start, libraryStart]
  refine ⟨?_, start⟩
  rw [image, region.parts, ← start]
  simp

/-- The top-level region of a unit. -/
theorem image_top (c : Compiler) (top : Fragment) :
    c.image top = [Instruction.jump c.libraryEnd] ++ c.library ++
        top.shift (Fragment.size ([Instruction.jump c.libraryEnd] ++ c.library)) ++
          [Instruction.ret] ∧
      c.libraryEnd = Fragment.size ([Instruction.jump c.libraryEnd] ++ c.library) := by
  have start : c.libraryEnd = Fragment.size ([Instruction.jump c.libraryEnd] ++ c.library) := by
    simp [libraryEnd, libraryStart]
  refine ⟨?_, start⟩
  rw [image, ← start]
  simp [Instruction.shift]

section Image

variable (library : Library c.procedures c.library)

include library

/-- Every region of a unit keeps its jumps. -/
theorem image_keeps (closed : top.Closed) {region : Nat × Nat}
    (member : region ∈ Bytecode.regions (Bytecode.starts c.procedures c.libraryEnd)
      (c.image top).size) :
    Bytecode.Walk.Keeps ⟨(c.image top).listing 0, none⟩ region.1 region.2 := by
  have behind : ([.ret] : Fragment) ≠ [] := by simp
  rcases Bytecode.mem_regions member with rfl | ⟨before, procedure, after, split, rfl⟩
  · obtain ⟨parts, start⟩ := image_top c top
    have kept := Bytecode.keeps_closed ([Instruction.jump c.libraryEnd] ++ c.library) closed behind
    rw [← parts, ← start] at kept
    intro offset i target member begins ends jumps
    rw [size_image] at ends
    by_cases inside : offset < c.libraryEnd + top.size
    · obtain ⟨lower, upper, listed⟩ := kept offset i target member begins inside jumps
      exact ⟨lower, by rw [size_image]; omega, listed⟩
    · -- What is left is the return.
      obtain ⟨place, same, found⟩ := Fragment.mem_listing.mp member
      have last : Fragment.size
          ([Instruction.jump c.libraryEnd] ++ c.library ++ top.shift c.libraryEnd) + 0 = place := by
        rw [Fragment.size_append, ← start, Fragment.size_shift]
        omega
      rw [parts, ← start, Fragment.at?_append_beyond last] at found
      cases found
      cases jumps
  · obtain ⟨less, code, more, found⟩ := library.region split
    obtain ⟨parts, start⟩ := image_region top found
    have kept := Bytecode.keeps_closed ([Instruction.jump c.libraryEnd] ++ less) found.sound.closed
      (show more ++ Fragment.shift (top ++ [Instruction.ret]) c.libraryEnd ≠ [] by simp)
    rw [← parts, ← start, ← found.stop] at kept
    exact kept

/-- An instruction starts at the start of every region. -/
theorem image_aligned (top : Fragment) {start : Nat}
    (member : start ∈ Bytecode.starts c.procedures c.libraryEnd) :
    (c.image top).Boundary start ∧ start < (c.image top).size := by
  rw [Bytecode.starts, List.mem_append, List.mem_singleton, List.mem_map] at member
  rcases member with ⟨procedure, member, rfl⟩ | rfl
  · obtain ⟨before, after, split⟩ := List.append_of_mem member
    obtain ⟨less, code, more, found⟩ := library.region split
    obtain ⟨parts, start⟩ := image_region top found
    rw [start, parts, List.append_assoc]
    have positive := Instruction.ret.size_pos
    refine ⟨(Fragment.boundary_size _).append _, ?_⟩
    simp only [Fragment.size_append, Fragment.size_shift, Fragment.size_cons]
    omega
  · obtain ⟨parts, start⟩ := image_top c top
    rw [← start] at parts
    have cut := (Fragment.boundary_size ([Instruction.jump c.libraryEnd] ++ c.library)).append
      (top.shift c.libraryEnd ++ [Instruction.ret])
    rw [← start, ← List.append_assoc, ← parts] at cut
    exact ⟨cut, by rw [size_image]; omega⟩

/-- The instructions of a unit other than jumps. -/
theorem image_uses (outside : c.draft = none) (sound : top.Sound c.Callable) :
    (c.image top).Uses (Instruction.Fits fun target =>
      ∃ procedure ∈ c.procedures, procedure.address = target) := by
  have jump : Fragment.Uses (Instruction.Fits fun target =>
      ∃ procedure ∈ c.procedures, procedure.address = target) [.jump c.libraryEnd] :=
    Fragment.uses_single ⟨rfl, by simp⟩
  have return' : Fragment.Uses (Instruction.Fits fun target =>
      ∃ procedure ∈ c.procedures, procedure.address = target) [.ret] :=
    Fragment.uses_single ⟨rfl, by simp⟩
  have inner := sound.mono fun target callable => by
    have known : ∃ procedure ∈ c.procedures, procedure.address = target := by
      rcases callable with defined | ⟨draft, inside, -⟩
      · exact defined
      · rw [outside] at inside
        cases inside
    exact known
  simp only [image, Fragment.uses_append, Fragment.uses_shift]
  exact ⟨⟨jump, library.uses⟩, inner.uses, return'⟩

/-- Control passes to instructions of the unit only. -/
theorem image_placed (outside : c.draft = none) (sound : top.Sound c.Callable) {i : Instruction}
    (member : i ∈ c.image top) {target : Nat} (found : i.target? = some target) :
    (c.image top).Boundary target ∧ target < (c.image top).size := by
  rcases Instruction.jump?_or_call found with jumps | rfl
  · obtain ⟨parts, start⟩ := image_top c top
    rw [← start] at parts
    have entry := (Fragment.boundary_size ([Instruction.jump c.libraryEnd] ++ c.library)).append
      (top.shift c.libraryEnd)
    rw [← start] at entry
    have inLibrary := library.jumpsTo [.jump c.libraryEnd] rfl
    have lies :
        Fragment.Lies top ([Instruction.jump c.libraryEnd] ++ c.library ++ top.shift c.libraryEnd)
        c.libraryEnd :=
      (Fragment.lies_shift_end top c.libraryEnd).beyond start.symm
    have inTop := sound.closed.jumpsTo lies
    rw [parts, List.mem_append, List.mem_append, List.mem_append, List.mem_singleton,
      List.mem_singleton] at member
    have cut : Fragment.Boundary
        ([Instruction.jump c.libraryEnd] ++ c.library ++ top.shift c.libraryEnd) target := by
      rcases member with ((rfl | within) | within) | rfl
      · cases jumps
        exact entry
      · exact (inLibrary i within target jumps).append _
      · exact inTop i within target jumps
      · cases jumps
    have inside := cut.le_size
    rw [Fragment.size_append, ← start, Fragment.size_shift] at inside
    exact ⟨parts ▸ cut.append _, by rw [size_image]; omega⟩
  · have plain := Fragment.mem_plain.mpr ⟨member, rfl⟩
    obtain ⟨procedure, known, same⟩ := (image_uses library outside sound _ plain).2 target rfl
    exact image_aligned library top
      (List.mem_append_left _ (List.mem_map.mpr ⟨procedure, known, same⟩))

/-- The bytes of a unit that is not too long spell its instructions. -/
theorem spells_image (outside : c.draft = none) (sound : top.Sound c.Callable)
    (short : (c.assemble (top ++ [Instruction.ret])).size < 0x80000000) :
    (c.assemble (top ++ [Instruction.ret])).Spells 0 (c.image top) ∧
      (c.image top).size = (c.assemble (top ++ [Instruction.ret])).size := by
  have whole : (c.image top).size = (c.assemble (top ++ [Instruction.ret])).size := by
    simp [assemble_eq, Bytecode.size, Bytecode.ofList, Fragment.length_bytes]
  refine ⟨Bytecode.spells_ofList (fun i member => ?_) fun i member target found => ?_, whole⟩
  · cases jumps : i.jump? with
    | none => exact (image_uses library outside sound i (Fragment.mem_plain.mpr ⟨member, jumps⟩)).1
    | some target => cases i <;> first | rfl | cases jumps
  · have := (image_placed library outside sound member found).2
    omega

/-- A unit that is not too long starts with the jump to its top-level code. -/
theorem spells_unit (outside : c.draft = none) (sound : top.Sound c.Callable)
    (short : (c.assemble (top ++ [Instruction.ret])).size < 0x80000000) :
    (∃ rest, (c.assemble (top ++ [Instruction.ret])).Spells 0 (.jump c.libraryEnd :: rest)) ∧
      (c.assemble (top ++ [Instruction.ret])).Spells c.libraryEnd
        (Fragment.shift (top ++ [Instruction.ret]) c.libraryEnd) := by
  have spells := (spells_image library outside sound short).1
  have right := spells.right
  rw [Nat.zero_add, ← (image_top c top).2] at right
  rw [image, List.append_assoc, List.singleton_append] at spells
  exact ⟨⟨_, spells⟩, right⟩

end Image

theorem Ready.organised (ready : c.Ready)
    (sound : top.Sound c.Callable)
    (short : (c.assemble (top ++ [Instruction.ret])).size < 0x80000000) :
    (c.assemble (top ++ [Instruction.ret])).Organised c.procedures c.libraryEnd := by
  obtain ⟨spells, whole⟩ := spells_image ready.library ready.outside sound short
  have walked := Bytecode.walk_spells spells whole
  have counted :
      (c.assemble (top ++ [Instruction.ret])).walk.instructions.length = (c.image top).length := by
    rw [walked, Fragment.length_listing]
  obtain ⟨ascends, first⟩ := ready.library.ascending
  constructor
  · rw [counted]
    exact Bytecode.verify_spells spells whole rfl fun i member target found =>
      image_placed ready.library ready.outside sound member found
  · rw [walked]
    rfl
  · exact first
  · refine List.pairwise_append.mpr ⟨ascends, by simp, fun start member stop last => ?_⟩
    rw [List.mem_singleton.mp last, ← whole]
    exact (image_aligned ready.library top member).2
  · intro start member
    obtain ⟨cut, inside⟩ := image_aligned ready.library top member
    have listed := cut.mem_listing inside 0
    rw [Nat.zero_add] at listed
    rwa [walked]
  · intro region member
    rw [walked]
    rw [← whole] at member
    exact image_keeps ready.library sound.closed member
  · intro offset target member
    rw [walked] at member
    obtain ⟨place, -, found⟩ := Fragment.mem_listing.mp member
    have plain := Fragment.mem_plain.mpr ⟨Fragment.mem_of_at? found, rfl⟩
    exact (image_uses ready.library ready.outside sound _ plain).2 target rfl
  · refine ⟨c.libraryEnd + top.size, ?_⟩
    obtain ⟨parts, start⟩ := image_top c top
    rw [← start] at parts
    rw [walked, parts, Fragment.listing_append, Nat.zero_add, Fragment.size_append, ← start,
      Fragment.size_shift]
    exact List.getLast?_concat

/-- A compilation whose code is known to have a size gives some code. -/
theorem exists_of_size {found : Except CompileError (Bytecode × Compiler)} (n : Nat)
    (sized : found.toOption.map (·.1.size) = some n) {P : Bytecode → Compiler → Prop}
    (holds : ∀ code after, found = .ok (code, after) → code.size = n → P code after) :
    ∃ code after, found = .ok (code, after) ∧ P code after := by
  cases found with
  | error fault => cases sized
  | ok pair => exact ⟨pair.1, pair.2, rfl, holds _ _ rfl (Option.some.inj sized)⟩

end Compiler

end Primer
