import Primer.Proofs.Concatenation
import Primer.Proofs.Representation
import Primer.Proofs.Streams

/-!
What later units keep of earlier ones. The library only grows, so the code of a procedure stays
where it was for all units that follow. The procedures stand in the order of their definitions, at
addresses that ascend, and each starts with an instruction; so an address names one procedure.
-/

set_option autoImplicit false
set_option relaxedAutoImplicit false

namespace Primer

/-- The name that a definition gives to a procedure. -/
def Node.defines? : Node → Option String
  | define name .. => some name
  | _ => none

/-- The names of the procedures that a unit defines, in the order of the definitions. -/
def Program.defined (program : Program) : List String := program.filterMap Node.defines?

/-- The procedure of a definition has the name that the definition gives it. -/
theorem Making.defines (m : Making) : m.definition.defines? = some m.draft.finish.name :=
  congrArg some m.unknown.1.symm

theorem Yields.names_node {n : Node} {c c' : Compiler} {x : Compiled}
    (derivation : Yields (.node n none) c x c') (ready : c.Ready) :
    c'.procedures.map (·.name) = c.procedures.map (·.name) ++ n.defines?.toList := by
  cases n with
  | define =>
    obtain ⟨m, same, -, -, procedures, -⟩ := derivation.making ready
    rw [← same, m.defines, procedures, List.map_append]
    rfl
  | declare =>
    cases derivation with
    | declare fresh allocated initial typed =>
      obtain ⟨slots, -, rfl⟩ := Compile.allocate_ok allocated
      have steady := (initial.growth ready.tidy).2 trivial
      rw [steady.procedures]
      exact (List.append_nil _).symm
  | _ =>
    have steady := (derivation.growth ready.tidy).2 rfl
    rw [steady.procedures]
    exact (List.append_nil _).symm

/-- A unit adds the procedures that it defines behind those that are known. -/
theorem Yields.names {nodes : List Node} {c c' : Compiler} {x : Compiled}
    (derivation : Yields (.statements nodes) c x c') (ready : c.Ready) :
    c'.procedures.map (·.name) = c.procedures.map (·.name) ++ Program.defined nodes := by
  induction nodes generalizing c x with
  | nil =>
    cases derivation
    exact (List.append_nil _).symm
  | cons n more ih =>
    cases derivation with
    | @moreStatements _ _ _ _ _ _ c₂ _ _ first finished rest =>
      have between : c₂.Ready := ready.yields (.moreStatements first finished .noStatements)
      have settled := Compile.finishStatement_steady finished
      have split : Program.defined (n :: more) = n.defines?.toList ++ Program.defined more := by
        unfold Program.defined
        rw [List.filterMap_cons]
        cases n.defines? <;> rfl
      rw [ih rest between, show c₂.procedures = _ from settled.procedures, first.names_node ready,
        split, List.append_assoc]

namespace Library

variable {procedures : List Procedure} {library : Fragment}

/-- An instruction starts where a procedure starts. -/
theorem boundary (whole : Library procedures library) {p : Procedure} (member : p ∈ procedures)
    {front : Fragment} (start : front.size = Compiler.libraryStart) :
    Fragment.Boundary (front ++ library) p.address := by
  obtain ⟨before, after, split⟩ := List.append_of_mem member
  obtain ⟨less, code, more, region⟩ := whole.region split
  refine ⟨front ++ less, code.shift p.address ++ more, ?_, ?_⟩
  · rw [region.parts]
    simp only [List.append_assoc]
  · rw [Fragment.size_append, start, region.start]

/-- The library has an encoded form, and control passes to addresses up to its end. -/
theorem encodable (whole : Library procedures library) {i : Instruction} (member : i ∈ library) :
    i.check = .ok () ∧
      ∀ target, i.target? = some target → target ≤ Compiler.libraryStart + library.size := by
  cases jumps : i.jump? with
  | some place =>
    have passes : i.check = .ok () := by
      cases i with
      | jump | jumpIf => rfl
      | _ => cases jumps
    refine ⟨passes, fun target found => ?_⟩
    have same : place = target := by
      rw [Instruction.target?_of_jump? jumps] at found
      exact Option.some.inj found
    -- Any jump stands for the one in front of the library.
    have cut := (whole.jumpsTo [.jump 0] rfl i member place jumps).le_size
    rw [Fragment.size_append, same] at cut
    exact cut
  | none =>
    have fits := whole.uses i (Fragment.mem_plain.mpr ⟨member, jumps⟩)
    refine ⟨fits.1, fun target found => ?_⟩
    rcases Instruction.jump?_or_call found with jump | call
    · rw [jumps] at jump
      cases jump
    · obtain ⟨other, known, rfl⟩ := fits.2 target call
      exact Nat.le_of_lt (whole.address_lt known)

end Library

namespace Compiler

variable {c : Compiler}

/-- The names of the procedures that units define, one after another. One that does not compile is
passed over. -/
def defined (c : Compiler) : List Program → List String
  | [] => []
  | program :: more =>
    match c.compile program with
    | .ok (_, next) => program.defined ++ next.defined more
    | .error _ => c.defined more

theorem after_append (c : Compiler) (first second : List Program) :
    c.after (first ++ second) = (c.after first).after second := by
  induction first generalizing c with
  | nil => rfl
  | cons program more ih =>
    rw [List.cons_append, after, after]
    cases c.compile program with
    | error fault => exact ih c
    | ok found => exact ih found.2

/-- The compiler of a unit that compiles goes on with the units behind it. -/
theorem after_cons {program : Program} {code : Bytecode} {next : Compiler}
    (done : c.compile program = .ok (code, next)) (more : List Program) :
    c.after (program :: more) = next.after more := by
  rw [after, done]

/-- The procedures stand in the order of their definitions. -/
theorem Ready.names_after (ready : c.Ready) (programs : List Program) :
    (c.after programs).procedures.map (·.name) = c.procedures.map (·.name) ++
      c.defined programs := by
  induction programs generalizing c with
  | nil => exact (List.append_nil _).symm
  | cons program more ih =>
    rw [Compiler.after, defined]
    cases compiled : c.compile program with
    | error fault => exact ih ready
    | ok found =>
      obtain ⟨top, derivation, -⟩ := compile_ok compiled
      have names := ih (ready.compile compiled)
      rw [derivation.names ready, List.append_assoc] at names
      exact names

/-- Whatever units a compiler was given before, with success or not, the code of one that compiles
is well formed. Its procedures are those that the units define, apart from units that do not
compile. -/
theorem compile_organised (hosts : List (String × Signature)) (programs : List Program)
    (program : Program) {code : Bytecode} {after : Compiler}
    (done : ((new hosts).after programs).compile program = .ok (code, after))
    (short : code.size < 0x80000000) :
    code.Organised after.procedures after.libraryEnd ∧
      after.procedures.map (·.name) = (new hosts).defined (programs ++ [program]) := by
  have whole : (new hosts).after (programs ++ [program]) = after := by
    rw [after_append, after_cons done]
    rfl
  have names := (ready_new hosts).names_after (programs ++ [program])
  rw [whole] at names
  have ready := (ready_new hosts).after programs
  obtain ⟨top, derivation, rfl⟩ := compile_ok done
  exact ⟨(ready.yields derivation).organised (derivation.sound ready.tidy) short, names⟩

/-- A procedure with two ways to return, a unit that does not compile, and a unit with a loop around
a short circuit and a call. -/
theorem compile_organised_loop : ∃ code after,
    ((new [("ask", ⟨[], .boolean⟩)]).after
      [[.define "pick" [⟨"flag", none⟩] none
          [.branch (.var "flag") [.giveBack (some (.literal (.string "yes")))]
            (some [.giveBack (some (.literal (.string "no")))])]],
        [.var "unknown"]]).compile
      [.loop (.binary (.logic .and) (.call "ask" []) (.literal (.boolean true)))
        [.call "pick" [.call "ask" []]]] = .ok (code, after) ∧
      code.size < 0x80000000 ∧ code.Organised after.procedures after.libraryEnd ∧
      after.procedures.map (·.name) = ["pick"] := by
  refine exists_of_size 96 (by decide +kernel) fun code after done size => ?_
  have short : code.size < 0x80000000 := by
    rw [size]
    decide
  obtain ⟨organised, names⟩ := compile_organised _ _ _ done short
  exact ⟨short, organised, names.trans (by decide +kernel)⟩

theorem Ready.grows_after (ready : c.Ready) (programs : List Program) :
    c.Grows (c.after programs) := by
  induction programs generalizing c with
  | nil => exact .refl c
  | cons program more ih =>
    rw [Compiler.after]
    cases compiled : c.compile program with
    | error fault => exact ih ready
    | ok found =>
      obtain ⟨top, derivation, -⟩ := compile_ok compiled
      exact (derivation.grows ready.tidy).trans (ih (ready.compile compiled))

/-- A procedure that is known stays known, with all that is known of it. -/
theorem Grows.procedure? {c' : Compiler} (grows : c.Grows c') {name : String} {p : Procedure}
    (known : c.procedure? name = some p) : c'.procedure? name = some p := by
  obtain ⟨more, added⟩ := grows.procedures
  rw [Compiler.procedure?] at known ⊢
  rw [← added, List.find?_append, known]
  rfl

/-- The code of the procedures in front of a buffer. -/
theorem extract_library (top : Fragment) {front more : Fragment}
    (parts : c.library = front ++ more) :
    (c.assemble (top ++ [Instruction.ret])).bytes.extract 5 (5 + front.size) =
      front.bytes.toArray := by
  have start : (Fragment.bytes [.jump c.libraryEnd]).length = 5 := rfl
  rw [bytes_assemble, parts, Fragment.bytes_append, Fragment.bytes_append, List.append_assoc,
    List.append_assoc, List.extract_toArray, List.extract_eq_take_drop, List.drop_left' start,
    Nat.add_sub_cancel_left, List.take_left' (Fragment.length_bytes front)]

theorem spells_library (library : Library c.procedures c.library) (near : c.libraryEnd < 0x80000000)
    (top : Fragment) :
    (c.assemble (top ++ [Instruction.ret])).Spells 0
    ([Instruction.jump c.libraryEnd] ++ c.library) := by
  have passes : ∀ i ∈ [Instruction.jump c.libraryEnd] ++ c.library, i.check = .ok () := by
    intro i member
    rcases List.mem_cons.mp member with rfl | inside
    · rfl
    · exact (library.encodable inside).1
  have small :
      ∀ i ∈ [Instruction.jump c.libraryEnd] ++ c.library, ∀ target, i.target? = some target →
      target < 0x80000000 := by
    intro i member target found
    rcases List.mem_cons.mp member with rfl | inside
    · cases found
      exact near
    · exact Nat.lt_of_le_of_lt ((library.encodable inside).2 target found) near
  have whole := Bytecode.spells_append passes small
    (Fragment.bytes (Fragment.shift (top ++ [Instruction.ret]) c.libraryEnd))
  rw [← Fragment.bytes_append] at whole
  exact whole

/-- An instruction starts at the address of every procedure. -/
theorem mem_offsets (library : Library c.procedures c.library) (near : c.libraryEnd < 0x80000000)
    (top : Fragment) {p : Procedure} (member : p ∈ c.procedures) :
    p.address ∈ (c.assemble (top ++ [Instruction.ret])).walk.offsets := by
  have cut : Fragment.Boundary ([Instruction.jump c.libraryEnd] ++ c.library) p.address :=
    library.boundary member rfl
  have inside : p.address < Fragment.size ([Instruction.jump c.libraryEnd] ++ c.library) := by
    rw [Fragment.size_append]
    exact library.address_lt member
  have listed := cut.mem_listing inside 0
  obtain ⟨fuel, -, walked⟩ := Bytecode.walk_front (spells_library library near top)
  rw [Nat.zero_add] at listed
  rw [Bytecode.Walk.offsets, walked, List.map_append]
  exact List.mem_append_left _ listed

/-- An address is the label of one procedure. -/
theorem lookup_labels (library : Library c.procedures c.library) {p : Procedure}
    (member : p ∈ c.procedures) : c.labels.lookup p.address = some p.name := by
  obtain ⟨before, after, split⟩ := List.append_of_mem member
  have ascends := library.addresses
  rw [split, List.map_append, List.pairwise_append] at ascends
  have earlier : (before.map fun q => (q.address, q.name)).lookup p.address = none := by
    rw [List.lookup_eq_none_iff]
    intro label found
    obtain ⟨q, known, rfl⟩ := List.mem_map.mp found
    have less := ascends.2.2 _ (List.mem_map_of_mem known) _ List.mem_cons_self
    simpa using Nat.ne_of_gt less
  rw [labels, split, List.map_append, List.lookup_append, earlier, List.map_cons,
    List.lookup_cons_self]
  rfl

/-- What the code of a later unit keeps of that of an earlier one, and how it holds the procedures
that have been defined by then. -/
structure Retained (code : Bytecode) (c : Compiler) (code' : Bytecode) (c' : Compiler)
    (defined : List String) : Prop where
  within : 5 + c.library.size ≤ code.size ∧ 5 + c.library.size ≤ code'.size
  bytes : code'.bytes.extract 5 (5 + c.library.size) = code.bytes.extract 5 (5 + c.library.size)
  procedures : ∀ name p, c.procedure? name = some p →
    ∃ q, c'.procedure? name = some q ∧ q.address = p.address ∧ q.signature = p.signature
  names : c'.procedures.map (·.name) = defined ∧ defined.Nodup
  ascending : (c'.procedures.map (·.address)).Pairwise (· < ·)
  aligned : ∀ p ∈ c'.procedures, p.address ∈ code'.walk.offsets
  labels : c'.labels.length = defined.length ∧
    ∀ p ∈ c'.procedures, c'.labels.lookup p.address = some p.name

/-- Whatever units a compiler was given before, between and since, with success or not: a unit that
compiles has the code of the procedures of an earlier one at the same place, all procedures keep
their address and signature, and in the order of their definitions they stand at ascending addresses
where instructions start. The address of the entry point has to fit the field of the jump to it. -/
theorem compile_retains (hosts : List (String × Signature)) (earlier between : List Program)
    (first second : Program) {code code' : Bytecode} {c c' : Compiler}
    (done : ((new hosts).after earlier).compile first = .ok (code, c))
    (again : (c.after between).compile second = .ok (code', c'))
    (near : c'.libraryEnd < 0x80000000) :
    Retained code c code' c' ((new hosts).defined (earlier ++ first :: (between ++ [second]))) := by
  have before := (ready_new hosts).after earlier
  have ready := before.compile done
  have between' := ready.after between
  have later := between'.compile again
  obtain ⟨top, -, rfl⟩ := compile_ok done
  obtain ⟨top', derivation, rfl⟩ := compile_ok again
  have grows := (ready.grows_after between).trans (derivation.grows between'.tidy)
  have whole : (new hosts).after (earlier ++ first :: (between ++ [second])) = c' := by
    rw [after_append, after_cons done, after_append, after_cons again]
    rfl
  have names := (ready_new hosts).names_after (earlier ++ first :: (between ++ [second]))
  have distinct := ((Reached.new : Reached hosts (new hosts)).after
    (earlier ++ first :: (between ++ [second]))).shelf.2.names.1
  rw [names] at distinct
  rw [whole] at names
  obtain ⟨more, library⟩ := grows.library
  refine ⟨?_, ?_, fun name p known => ⟨p, grows.procedure? known, rfl, rfl⟩, ⟨names, distinct⟩,
    later.library.addresses, fun p member => mem_offsets later.library near top' member, ?_,
    fun p member => lookup_labels later.library member⟩
  · have bound := grows.libraryEnd_le
    have start : c.libraryEnd = 5 + c.library.size := rfl
    rw [size_assemble, size_assemble, ← start]
    omega
  · rw [extract_library top' library.symm, extract_library top (List.append_nil _).symm]
  · rw [labels, List.length_map, ← List.length_map (·.name), names]
    rfl

/-- Of three procedures the last two are defined by units with other statements around the
definitions; in between, a unit does not compile although it starts with a definition. -/
theorem compile_retains_definitions : ∃ code c code' c',
    ((new []).after [[.define "one" [] none []]]).compile
        [.declare "x" (some .number) none, .define "two" [⟨"n", none⟩] none
          [.giveBack (some (.unary .negate (.var "n")))], .call "two" [.var "x"]] = .ok (code, c) ∧
      (c.after [[.define "lost" [] none [], .var "y"]]).compile
        [.call "one" [],
          .define "three" [] none [.loop (.literal (.boolean false)) [.call "one" []]],
          .call "three" []] = .ok (code', c') ∧
      c'.libraryEnd < 0x80000000 ∧ Retained code c code' c' ["one", "two", "three"] := by
  let earlier : List Program := [[.define "one" [] none []]]
  let first : Program := [.declare "x" (some .number) none, .define "two" [⟨"n", none⟩] none
    [.giveBack (some (.unary .negate (.var "n")))], .call "two" [.var "x"]]
  let between : List Program := [[.define "lost" [] none [], .var "y"]]
  let second : Program := [.call "one" [],
    .define "three" [] none [.loop (.literal (.boolean false)) [.call "one" []]], .call "three" []]
  have names :
      (new []).defined (earlier ++ first :: (between ++ [second])) = ["one", "two", "three"] := by
    decide +kernel
  have known : (((new []).after earlier).compile first).toOption.any (fun found =>
      ((found.2.after between).compile second).toOption.any (·.2.libraryEnd < 0x80000000)) =
          true := by
    decide +kernel
  cases done : ((new []).after earlier).compile first with
  | error fault => simp [done, Except.toOption] at known
  | ok found =>
    cases again : (found.2.after between).compile second with
    | error fault => simp [done, again, Except.toOption] at known
    | ok found' =>
      have near :
        found'.2.libraryEnd < 0x80000000 := by simpa [done, again, Except.toOption] using known
      have retained := compile_retains [] earlier between first second done again near
      rw [names] at retained
      exact ⟨found.1, found.2, found'.1, found'.2, rfl, again, near, retained⟩

end Compiler

end Primer
