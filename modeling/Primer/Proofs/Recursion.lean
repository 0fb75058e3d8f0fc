import Primer.Proofs.CallFrames
import Primer.Proofs.Compilation.Declarations
import Primer.Proofs.SelfCalls

/-!
What recursion leaves of the variables of the calling code. All calls of a procedure that are active
use the same slots. When a call that a procedure makes to itself returns, the variables that the
calling code has declared are still filled, with one exception: a call inside has freed the slot, as
it does at the end of the block that declares the variable, and nothing was stored there since.
-/

set_option autoImplicit false
set_option relaxedAutoImplicit false

namespace Primer

open Compile

variable {σ : Type} {hosts : HostTable (StateM σ)}

/-- Slots are changed by stores and frees only. -/
theorem Instruction.of_changes? {i : Instruction} {slot : UInt8}
    (changes : i.changes? = some slot) : i = .store slot ∨ i = .free slot := by
  cases i <;> simp_all [Instruction.changes?]

namespace Machine

/-- While an activation was waiting for a call that it made, code inside the call has freed the
slot, and the slot has been empty since. The activation is the one that was entered when the given
calls were active. -/
inductive Emptied (hosts : HostTable (StateM σ)) (start : Machine) (w : σ) (slot : UInt8)
    (outer : List Machine) : Machine → List Machine → σ → Prop
  | freed {m next : Machine} {callers : List Machine} {w₁ w₂ : σ} {behind : Nat}
      (passes : Passes hosts start w m callers w₁) (inside : ∃ s, s :: outer <:+ callers)
      (frees : m.code.decodeAt m.ip = .ok (.free slot, behind))
      (turns : m.turn hosts w₁ = (.inl next, w₂)) (empty : next.locals.get? slot = none) :
      Emptied hosts start w slot outer next (m.callersAfter callers) w₂
  | later {m next : Machine} {callers : List Machine} {w₁ w₂ : σ}
      (before : Emptied hosts start w slot outer m callers w₁)
      (turns : m.turn hosts w₁ = (.inl next, w₂)) (empty : next.locals.get? slot = none)
      (active : outer <:+ m.callersAfter callers) :
      Emptied hosts start w slot outer next (m.callersAfter callers) w₂

/-- A store fills its slot. -/
theorem turn_store {m next : Machine} {w w' : σ} {slot : UInt8} {behind : Nat}
    (turns : m.turn hosts w = (.inl next, w'))
    (decoded : m.code.decodeAt m.ip = .ok (.store slot, behind)) :
    next.locals.get? slot ≠ none := by
  obtain ⟨value, -, locals, -⟩ := turn_stored turns decoded
  rw [locals, Locals.get?_set_self]
  nofun

end Machine

namespace Layout

variable {l : Layout} {start m next : Machine} {outer callers : List Machine} {w w₁ w₂ : σ}

/-- At some point of a run: the slot is filled, or it may be that the active call of a routine has
not stored in it or has freed it itself, or it was emptied while the call was waiting. -/
def Accounted (hosts : HostTable (StateM σ)) (start : Machine) (w : σ) (m : Machine)
    (callers : List Machine) (w₁ : σ) : Claim := fun r outer s =>
  ∀ offset slot, s.ip = r.base + offset → m.locals.get? slot ≠ none ∨ r.code.Bare slot offset ∨
    Machine.Emptied hosts start w slot outer m callers w₁

/-- What an instruction leaves alone stays filled or emptied. -/
theorem accounted_of_same {slot : UInt8} {p q : Prop}
    (turns : m.turn hosts w₁ = (.inl next, w₂)) (same : next.locals.get? slot = m.locals.get? slot)
    (active : outer <:+ m.callersAfter callers) (implies : p → q)
    (before : m.locals.get? slot ≠ none ∨ p ∨
      Machine.Emptied hosts start w slot outer m callers w₁) :
    next.locals.get? slot ≠ none ∨ q ∨
      Machine.Emptied hosts start w slot outer next (m.callersAfter callers) w₂ := by
  rcases before with filled | bare | emptied
  · exact .inl (same ▸ filled)
  · exact .inr (.inl (implies bare))
  · by_cases empty : next.locals.get? slot = none
    · exact .inr (.inr (emptied.later turns empty active))
    · exact .inl empty

/-- What a turn empties is accounted for in the active calls that wait. -/
theorem Accounted.waits (passes : Machine.Passes hosts start w m callers w₁)
    (turns : m.turn hosts w₁ = (.inl next, w₂)) {r : Routine} {s : Machine}
    (inside : s :: outer <:+ callers) (accounted : Accounted hosts start w m callers w₁ r outer s) :
    Accounted hosts start w next (m.callersAfter callers) w₂ r outer s := by
  intro offset slot here
  obtain ⟨i, behind, decoded, carried⟩ := Machine.turn_carried turns
  by_cases empty : next.locals.get? slot = none
  · by_cases changes : i.changes? = some slot
    · rcases Instruction.of_changes? changes with rfl | rfl
      · exact absurd empty (Machine.turn_store turns decoded)
      · exact .inr (.inr (.freed passes ⟨s, inside⟩ decoded turns empty))
    · exact accounted_of_same turns (carried.get? changes) (Machine.suffix_callersAfter inside) id
        (accounted offset slot here)
  · exact .inl empty

/-- Every turn accounts for the slots that it empties. -/
theorem leads_accounted (passes : Machine.Passes hosts start w m callers w₁)
    (turns : m.turn hosts w₁ = (.inl next, w₂)) :
    Leads hosts l (Accounted hosts start w m callers w₁)
      (Accounted hosts start w next (m.callersAfter callers) w₂) m next callers := by
  refine ⟨fun inside => .waits passes turns inside, ?_, ?_, ?_⟩
  · intro r offset i after place stays lands goes accounted offset' slot here
    obtain rfl : after = offset' := by omega
    have decoded := place.decoded
    have callers_eq : m.callersAfter callers = callers := place.callersAfter_eq stays goes
    by_cases changes : i.changes? = some slot
    · rcases Instruction.of_changes? changes with rfl | rfl
      · exact .inl (Machine.turn_store turns decoded)
      · rcases goes with ⟨-, rfl⟩ | jumps
        · exact .inr (.inl (.freed place.found))
        · cases jumps
    · refine accounted_of_same turns (place.get? changes) (callers_eq.symm ▸ List.suffix_rfl)
        (fun bare => ?_) (accounted offset slot place.here)
      rcases goes with ⟨goesOn, rfl⟩ | jumps
      · exact bare.next place.found goesOn fun store => changes (store ▸ rfl)
      · exact bare.jump place.found jumps
  · intro r offset p code place held accounted
    have entered : m.callersAfter callers = m :: callers := by
      rw [Machine.callersAfter, place.decoded]
      rfl
    refine ⟨fun offset' slot here => ?_, fun offset' slot here => .inr (.inl ?_)⟩
    · refine accounted_of_same turns (place.get? fun changes => by cases changes) ?_ id
        (accounted offset' slot here)
      rw [entered]
      exact List.suffix_cons _ _
    · have begins : next.ip = p.address + offset' := here
      have called := place.called
      obtain rfl : offset' = 0 := by omega
      exact .start
  · rintro r offset s outer p code offset' rfl member here found held accounted place lands -
      after slot there
    obtain rfl : after = offset + (Instruction.call p.address).size := by omega
    rcases accounted.waits passes turns List.suffix_rfl offset slot here with
      filled | bare | emptied
    · exact .inl filled
    · exact .inr (.inl (bare.next found rfl fun store => by cases store))
    · exact .inr (.inr emptied)

/-- Throughout a run the slots are accounted for in every active call. -/
theorem Active.accounted (passes : Machine.Passes hosts start w m callers w₁)
    (buffer : start.code = l.buffer) (zero : start.ip = 0) (idle : start.calls = []) :
    m.code = l.buffer ∧ (m = start ∧ callers = [] ∧ w₁ = w ∨
      ∃ r, l.Active (Accounted hosts start w m callers w₁) r m callers) := by
  refine Active.follows (fun passes turns => leads_accounted passes turns) passes buffer
    zero idle ?_
  intro next w' _ base offset slot here
  obtain rfl : offset = 0 := by omega
  exact .inr (.inl .start)

end Layout

namespace Fragment

/-- Code is cut in one way only. -/
theorem append_inj {first second first' second' : Fragment}
    (same : first ++ second = first' ++ second') (sizes : size first = size first') :
    first = first' ∧ second = second' := by
  have empty {more : Fragment} (nothing : size more = 0) : more = [] := by
    by_contra filled
    have := size_pos filled
    omega
  rcases List.append_eq_append_iff.mp same with ⟨more, rfl, rfl⟩ | ⟨more, rfl, rfl⟩ <;>
    · rw [size_append] at sizes
      have nothing : size more = 0 := by omega
      rw [empty nothing]
      simp

theorem shift_inj {code code' : Fragment} {distance : Nat}
    (same : code.shift distance = code'.shift distance) : code = code' := by
  refine List.map_injective_iff.mpr (fun i j same => ?_) same
  have jumps := congrArg Instruction.jump? same
  rw [Instruction.jump?_shift, Instruction.jump?_shift] at jumps
  have jumps := Option.map_injective (fun _ _ => Nat.add_right_cancel) jumps
  cases known : i.jump? with
  | none =>
    have plain {k : Instruction} (none : k.jump? = none) : k.shift distance = k := by
      cases k <;> first | rfl | cases none
    rwa [plain known, plain (jumps ▸ known)] at same
  | some target =>
    have jump {k : Instruction} (some : k.jump? = some target) :
        k = .jump target ∨ k = .jumpIf target := by
      cases k <;> simp_all [Instruction.jump?]
    rcases jump known with rfl | rfl <;> rcases jump (jumps ▸ known) with rfl | rfl <;>
      first | rfl | cases same

end Fragment

namespace Compiler

/-- However a procedure was made, its code is what stands in the library. -/
theorem Makes.code_eq {allowed : Node → Prop} {c : Compiler} {p : Procedure} {one two : Making}
    (library : Library c.procedures c.library) (first : c.Makes allowed p one)
    (second : c.Makes allowed p two) : one.code = two.code := by
  obtain ⟨after, less, more, split, region⟩ := first.region
  obtain ⟨after', less', more', split', region'⟩ := second.region
  have distinct := library.nodup
  rw [split] at distinct
  obtain ⟨-, later, apart⟩ := List.nodup_append.mp distinct
  obtain ⟨-, -, rfl⟩ := (List.append_cons_inj_of_notMem
    (fun earlier => apart p earlier p List.mem_cons_self rfl) (List.nodup_cons.mp later).1).mp
      (split.symm.trans split')
  have parts := region.parts.symm.trans region'.parts
  rw [List.append_assoc, List.append_assoc] at parts
  have start := region.start.symm.trans region'.start
  have stop := region.stop.symm.trans region'.stop
  obtain ⟨-, rest⟩ := Fragment.append_inj parts (by omega)
  exact Fragment.shift_inj (Fragment.append_inj rest (by simp; omega)).1

/-- The last procedure was made by its definition. -/
theorem makes_last {c : Compiler} (m : Making) (table : m.before.hosts = c.hosts)
    (procedures : c.procedures = m.before.procedures ++ [m.draft.finish])
    (library : c.library = m.before.library ++ m.code.shift m.draft.finish.address) :
    c.Makes (fun _ => True) m.draft.finish m := by
  refine ⟨trivial, table, rfl, [], m.before.library, [], procedures, ?_, m.address, ?_,
    ?_, m.sealed⟩
  · rw [library, List.append_nil]
  · show Compiler.libraryStart + c.library.size = _
    rw [library, Fragment.size_append, Fragment.size_shift, ← Nat.add_assoc]
    exact congrArg (· + m.code.size) m.address.symm
  · exact procedures ▸ m.sound

end Compiler

namespace Yields

variable {c c' : Compiler} {x : Compiled}

theorem reference_size {name : String} {want : Option Ty}
    (derivation : Yields (.node (.var name) want) c x c') : 0 < x.code.size := by
  cases derivation with
  | var found =>
    rcases reference_ok found with ⟨_, _, _, code, _⟩ | ⟨_, _, _, rfl, _⟩
    · rw [code]
      exact Nat.two_pos
    · exact Nat.two_pos

/-- A variable whose initial value is a constant has the type of the constant. -/
theorem type_of_constant {name : String} {value : Value}
    (derivation : Yields (.initial name none (some (.literal value))) c x c') :
    x.type = some value.type := by
  cases derivation with
  | initialValue given => cases given with
    | valueFound inner typed =>
      cases inner
      exact typed.symm

/-- Statements that introduce no name leave the library as it was. -/
theorem library_eq {nodes : List Node} (derivation : Yields (.statements nodes) c x c')
    (tidy : c.scope.Tidy) (plain : ∀ n ∈ nodes, n.introduces = false) :
    c'.hosts = c.hosts ∧ c'.procedures = c.procedures ∧ c'.library = c.library := by
  induction nodes generalizing c x with
  | nil =>
    cases derivation
    exact ⟨rfl, rfl, rfl⟩
  | cons n more ih => cases derivation with
    | moreStatements first finished rest =>
      have steady := (first.growth tidy).2 (plain n List.mem_cons_self)
      have settled := finishStatement_steady finished
      obtain ⟨hosts, procedures, library⟩ :=
        ih rest (settled.grows.of_prior.tidy (steady.tidy tidy))
          fun n member => plain n (List.mem_cons_of_mem _ member)
      exact ⟨hosts.trans (settled.hosts.trans steady.hosts),
        procedures.trans (settled.procedures.trans steady.procedures),
        library.trans (settled.library.trans steady.library)⟩

/-- A definition with statements behind it that introduce no name makes the last procedure. -/
theorem makes_last {name : String} {params : List Param} {returns : Option Ty}
    {body more : List Node}
    (derivation : Yields (.statements (.define name params returns body :: more)) c x c')
    (ready : c.Ready) (plain : ∀ n ∈ more, n.introduces = false) :
    ∃ m : Making, m.definition = .define name params returns body ∧ m.before = c ∧
      c'.Makes (fun _ => True) m.draft.finish m := by
  cases derivation with
  | moreStatements defined finished rest =>
    obtain ⟨m, same, rfl, hosts, procedures, library⟩ := defined.making ready
    have settled := finishStatement_steady finished
    have between := ready.yields (.moreStatements defined finished .noStatements)
    obtain ⟨hosts', procedures', library'⟩ := rest.library_eq between.tidy plain
    refine ⟨m, same, rfl, Compiler.makes_last m ?_ ?_ ?_⟩
    · exact (hosts'.trans (settled.hosts.trans hosts)).symm
    · exact procedures'.trans (settled.procedures.trans procedures)
    · exact library'.trans (settled.library.trans library)

end Yields

namespace Occurs

variable {c d : Compiler} {place : Nat} {n : Node} {want expected : Option Ty}

/-- A node that occurs in a declaration is the declaration or occurs in the initial value. -/
theorem in_declaration {name : String} {type : Option Ty} {start : Node}
    (occurs : Occurs (.node (.declare name type (some start)) want) c place (.node n expected) d) :
    n = .declare name type (some start) ∨
      ∃ rest c₁, Occurs (.node start type) c₁ rest (.node n expected) d := by
  rcases occurs.split with ⟨same, -⟩ | ⟨_, _, _, _, part, initial⟩
  · cases same
    exact .inl rfl
  cases part with
  | declare allocated =>
    rcases initial.split with ⟨same, -⟩ | ⟨_, _, _, _, part, value⟩
    · cases same
    cases part
    rcases value.split with ⟨same, -⟩ | ⟨_, _, _, _, part, inner⟩
    · cases same
    cases part
    exact .inr ⟨_, _, inner⟩

/-- Nothing else occurs in a constant. -/
theorem in_constant {value : Value} {task : Task}
    (occurs : Occurs (.node (.literal value) want) c place task d) :
    task = .node (.literal value) want := by
  rcases occurs.split with ⟨same, -⟩ | ⟨_, _, _, _, part, -⟩
  · exact same
  · cases part

end Occurs

namespace Making

variable {name : String} {d : Compiler} {stop : Nat}

/-- The variable was declared in the body, and is visible in the state. -/
def Declares (m : Making) (d : Compiler) (binding : String × Variable) : Prop :=
  binding ∈ d.scope.bindings ∧ binding ∉ m.started.scope.bindings

/-- In its body a procedure is called by its name only. -/
theorem name_of_callSite (m : Making)
    (site : (Task.block m.body).CallSite m.started m.draft.address name d stop) :
    name = m.name := by
  rcases site.named m.compiles m.since with ⟨p, member, -, same⟩ | ⟨draft, inside, named, -⟩
  · rw [m.procedures] at member
    have before := m.ready.library.address_lt member
    exact absurd (same.trans m.address) (Nat.ne_of_lt before)
  · rw [m.drafted] at inside
    cases inside
    exact named.symm.trans m.signed.1

/-- At a call in the body the variables that the body has declared and that are visible are not
bare. -/
theorem not_bare_call (m : Making) {address offset : Nat}
    (site : (Task.block m.body).CallSite m.started address name d stop)
    (ends : offset + (Instruction.call address).size = m.prologue.size + stop)
    {binding : String × Variable} (visible : binding ∈ d.scope.bindings)
    (own : binding ∉ m.started.scope.bindings) : ¬m.code.Bare binding.2.slot offset := by
  obtain ⟨⟨place, args, want, y, d', occurs, made, rfl⟩, callee, found, same⟩ := site
  have last : ∃ front : Fragment, y.code.size = front.size + (Instruction.call address).size := by
    cases made with
    | @call _ _ _ _ _ x _ _ _ found' _ _ finished =>
      rw [found] at found'
      cases found'
      refine ⟨x.code, ?_⟩
      rw [(finishCall_ok finished).1, same]
      simp
  obtain ⟨front, sized⟩ := last
  have positive := (Instruction.call address).size_pos
  obtain rfl : offset = m.prologue.size + (place + front.size) := by omega
  exact m.not_bare occurs made visible own (by omega)

/-- The variable that the first statement of the body declares is visible at every node behind this
statement. -/
theorem declares_first (m : Making) {type : Option Ty} {value : Option Node} {more : List Node}
    (bodied : m.body = .declare name type value :: more) {offset : Nat} {n : Node}
    {want : Option Ty} (occurs : Occurs (.block m.body) m.started offset (.node n want) d)
    (behind : ∀ place, ¬Occurs (.node (.declare name type value) none) m.started.entered place
      (.node n want) d) :
    ∃ slot c₁ x c₂ found, allocate m.started.entered = .ok (slot, c₁) ∧
      Yields (.initial name type value) c₁ x c₂ ∧ x.type = some found ∧
      m.Declares d (name, ⟨found, slot, m.started.scope.depth + 1⟩) := by
  obtain ⟨inner, ended, compiles⟩ : ∃ inner ended, Yields (.block m.body) m.started inner ended :=
    ⟨_, _, m.compiles⟩
  rw [bodied] at occurs compiles
  cases compiles with
  | block statements => cases statements with
    | moreStatements first finished rest =>
      rcases occurs.split with ⟨same, -⟩ | ⟨_, _, _, _, part, within⟩
      · cases same
      cases part
      rcases within.split with ⟨same, -⟩ | ⟨_, _, _, _, part, within⟩
      · cases same
      cases part with
      | firstStatement => exact absurd within (behind _)
      | moreStatements first' finished' =>
        obtain ⟨rfl, rfl⟩ := first.unique first'
        rw [finished] at finished'
        cases finished'
        have since := m.since.entered.yields (.moreStatements first finished .noStatements)
        have visible := within.visible rest since
        cases first with
        | @declare _ _ _ _ _ slot c₁ x c₂ found _ allocated start typed =>
          refine ⟨slot, c₁, x, c₂, found, allocated, start, typed, visible ?_, fun old => ?_⟩
          · rw [(finishStatement_steady finished).scope]
            obtain ⟨slots, -, rfl⟩ := allocate_ok allocated
            have depth : c₂.scope.depth = m.started.scope.depth + 1 :=
              congrArg Scope.depth ((start.growth m.tidy.enter).2 trivial).scope
            rw [← depth]
            exact List.mem_cons_self
          · exact absurd (m.tidy.bindings _ old) (Nat.not_succ_le_self _)

/-- A constant calls nothing, so a variable that the body first of all declares with a constant is
visible at all its calls. -/
theorem declares_constant (m : Making) {declared : String} {value : Value} {more : List Node}
    {address : Nat} (bodied : m.body = .declare declared none (some (.literal value)) :: more)
    (site : (Task.block m.body).CallSite m.started address name d stop) :
    ∃ slot c₁, allocate m.started.entered = .ok (slot, c₁) ∧
      m.Declares d (declared, ⟨value.type, slot, m.started.scope.depth + 1⟩) := by
  obtain ⟨⟨place, args, want, y, d', occurs, -⟩, -⟩ := site
  have behind : ∀ place, ¬Occurs (.node (.declare declared none (some (.literal value))) none)
      m.started.entered place (.node (.call name args) want) d := by
    intro place within
    rcases within.in_declaration with same | ⟨_, _, inner⟩
    · cases same
    · cases inner.in_constant
  obtain ⟨slot, c₁, x, c₂, found, allocated, initial, typed, declares⟩ :=
    m.declares_first bodied occurs behind
  cases initial.type_of_constant.symm.trans typed
  exact ⟨slot, c₁, allocated, declares⟩

end Making

/-- The routine of an active call is the code of the procedure that was called. -/
theorem Layout.Of.routine_eq {after : Compiler} {top : Fragment} {l : Layout} {claim : Layout.Claim}
    {r : Routine} {m above : Machine} {outer : List Machine} {p : Procedure} {making : Making}
    {ahead : Nat}
    (unit : Layout.Of (fun _ => True) after top l)
    (library : Library after.procedures after.library)
    (active : l.Active claim r m (above :: outer))
    (entered : l.buffer.decodeAt above.ip = .ok (.call p.address, ahead))
    (makes : after.Makes (fun _ => True) p making) : r = ⟨p.address, making.code⟩ := by
  cases active with
  | @called _ _ _ _ q _ _ _ procedure call =>
    rw [entered] at call
    have same : p.address = q.address :=
      Instruction.call.inj (congrArg Prod.fst (Except.ok.inj call))
    rw [unit.holds] at procedure
    obtain ⟨other, makes', rfl⟩ := procedure
    have known {q : Procedure} {m : Making} (makes : after.Makes (fun _ => True) q m) :
        q ∈ after.procedures := Compiler.Holds.mem ⟨m, makes, rfl⟩
    obtain rfl := library.address_inj (known makes) (known makes') same
    rw [makes.code_eq library makes']

namespace Session

variable {tables : HostTable (StateM σ) → Prop} {units : Program → Prop} {smooth : Bool}
  {s : Session (StateM σ)}

/-- Whatever units a session was given before: when a call that a procedure makes to itself returns,
with any hosts, the body of the procedure has a place where the procedure calls itself, behind which
the run goes on. Every variable that the body has declared and that is visible there is filled,
unless its slot was freed inside of a call that the calling activation made, and is empty since. The
same holds wherever this activation comes to a reference to such a variable. -/
theorem Driven.recursion_filled (driven : Driven tables units smooth s) {program : Program}
    {code : Bytecode} {after : Compiler}
    (compiled : s.compiler.compile program = .ok (code, after)) (short : code.size < 0x80000000)
    {w w' w'' : σ} {m caller above next : Machine} {outer : List Machine}
    {address ahead back behind : Nat}
    (passes : Machine.Passes hosts (s.machine.started code) w m (caller :: above :: outer) w')
    (entered : code.decodeAt above.ip = .ok (.call address, ahead))
    (again : code.decodeAt caller.ip = .ok (.call address, back))
    (returns : code.decodeAt m.ip = .ok (.ret, behind))
    (turns : m.turn hosts w' = (.inl next, w'')) :
    ∃ p ∈ after.procedures, p.address = address ∧ (∃ making, after.Makes (fun _ => True) p making) ∧
      ∀ making, after.Makes (fun _ => True) p making →
        (∃ d stop, (Task.block making.body).CallSite making.started address making.name d stop ∧
          next.ip = address + (making.prologue.size + stop)) ∧
        (∀ name d stop, (Task.block making.body).CallSite making.started address name d stop →
          next.ip = address + (making.prologue.size + stop) →
          ∀ binding, making.Declares d binding →
            next.locals.get? binding.2.slot ≠ none ∨
              Machine.Emptied hosts (s.machine.started code) w binding.2.slot (above :: outer) next
                (above :: outer) w'') ∧
        ∀ name want d place found, Occurs (.block making.body) making.started place
            (.node (.var name) want) d → making.Declares d (name, found) →
          ∀ ref w₁, Machine.Passes hosts (s.machine.started code) w ref (above :: outer) w₁ →
            ref.ip = address + (making.prologue.size + place) →
            ref.locals.get? found.slot ≠ none ∨
              Machine.Emptied hosts (s.machine.started code) w found.slot (above :: outer) ref
                (above :: outer) w₁ := by
  obtain ⟨top, l, derivation, unit, rfl⟩ := driven.layout (fun _ => True)
    (fun _ _ _ _ _ _ _ => trivial) (fun _ _ _ _ _ => trivial) compiled short
  have library := (driven.ready.yields derivation).library
  obtain ⟨buffer, ⟨-, none, -⟩ | ⟨r, active⟩⟩ := Layout.Active.accounted passes rfl rfl driven.idle
  · cases none
  cases active with
  | @called r _ _ _ p body _ outside procedure call _ calls _ _ =>
    rw [again] at call
    cases call
    rw [unit.holds] at procedure
    refine ⟨p, procedure.mem, rfl, procedure.imp fun making makes => makes.1,
      fun making makes => ?_⟩
    obtain rfl := unit.routine_eq library outside entered makes
    obtain ⟨offset, i, here, -, found, decoded⟩ := outside.fetch
    rw [again] at decoded
    obtain rfl := Layout.shift_eq_call (congrArg Prod.fst (Except.ok.inj decoded)).symm
    have lands : next.ip = p.address + (offset + (Instruction.call p.address).size) := by
      obtain ⟨j, _, read, carried⟩ := Machine.turn_carried turns
      rw [buffer, returns] at read
      cases read
      rw [← (List.cons.inj (calls.symm.trans carried.returned)).1]
      exact congrArg Prod.snd (Except.ok.inj decoded)
    have left : m.callersAfter (caller :: above :: outer) = above :: outer := by
      rw [Machine.callersAfter, buffer, returns]
      rfl
    refine ⟨?_, fun name d stop site stops binding declares => ?_, ?_⟩
    · obtain ⟨stop, ends, name, d, site⟩ := making.sited p.address offset found
      have own : p.address = making.draft.address := by
        rw [← makes.finished]
        rfl
      have named : name = making.name := making.name_of_callSite (own ▸ site)
      exact ⟨d, stop, named ▸ site, by rw [lands, ends]⟩
    · have waits := Layout.Accounted.waits passes turns List.suffix_rfl outside.claimed
      rw [left] at waits
      rcases waits offset binding.2.slot here with filled | bare | emptied
      · exact .inl filled
      · exact absurd bare (making.not_bare_call site (by omega) declares.1 declares.2)
      · exact .inr emptied
    · intro name want d place found occurs declares ref w₁ passes here
      obtain ⟨-, ⟨-, none, -⟩ | ⟨r, active⟩⟩ := Layout.Active.accounted passes rfl rfl driven.idle
      · cases none
      obtain rfl := unit.routine_eq library active entered makes
      rcases active.claimed (making.prologue.size + place) found.slot here with
        filled | bare | emptied
      · exact .inl filled
      · obtain ⟨y, d', made, -⟩ := occurs.encloses making.compiles making.since
        exact absurd bare (making.not_bare occurs made declares.1 declares.2 made.reference_size)
      · exact .inr emptied

/-- A procedure declares a variable and calls itself. The call inside comes to the end of the block,
where the slot of the variable is freed. So the variable is empty when it returns, and the reference
that follows fails. -/
theorem Driven.recursion_filled_freed :
    let body : List Node := [.declare "t" none (some (.literal (.boolean true))),
      .branch (.var "c") [.call "p" [.literal (.boolean false)], .assign "t" (.var "t")] none]
    let program : Program := [.define "p" [⟨"c", some .boolean⟩] (some .void) body,
      .call "p" [.literal (.boolean true)]]
    let s : Session (StateM Nat) := .new {} {}
    ∃ (code : Bytecode) (after : Compiler) (m caller above next : Machine)
      (w w' ahead back behind : Nat) (making : Making) (d : Compiler) (stop : Nat),
      Driven (· = {}) (fun _ => True) true s ∧ s.compiler.compile program = .ok (code, after) ∧
        code.size < 0x80000000 ∧
        Machine.Passes {} (s.machine.started code) 0 m [caller, above] w ∧
        code.decodeAt above.ip = .ok (.call 5, ahead) ∧
        code.decodeAt caller.ip = .ok (.call 5, back) ∧
        code.decodeAt m.ip = .ok (.ret, behind) ∧ m.turn {} w = (.inl next, w') ∧
        after.Makes (fun _ => True) making.draft.finish making ∧ making.body = body ∧
        (Task.block making.body).CallSite making.started 5 "p" d stop ∧
        next.ip = 5 + (making.prologue.size + stop) ∧ making.Declares d ("t", ⟨.boolean, 2, 1⟩) ∧
        caller.locals.get? 2 ≠ none ∧ next.locals.get? 2 = none ∧
        Machine.Emptied {} (s.machine.started code) 0 2 [above] next [above] w' := by
  intro body program s
  let look (code : Bytecode) (_ : Compiler) (m : Machine) (callers : List Machine)
      (w : Nat) : Bool :=
    code.size < 0x80000000 && callers.length == 2 &&
    (callers.all fun caller => code.readsCall caller.ip 5) && code.readsRet m.ip &&
    (callers.head?.any fun caller => (caller.locals.get? 2).isSome) &&
    (m.turn s.hosts w).1.getLeft?.any fun next => (next.locals.get? 2).isNone
  have seen : ((s.compiler.compile program).toOption.bind fun made =>
      (Machine.passed? s.hosts (s.machine.started made.1) 0 18).map fun there =>
        look made.1 made.2 there.1 there.2.1 there.2.2) = some true := by
    decide +kernel
  have given :
      ((startDraft "p" [⟨"c", some .boolean⟩] (some .void) s.compiler).toOption.bind fun made =>
      (allocate made.2.entered).toOption.map (·.1)) = some 2 := by
    decide +kernel
  obtain ⟨code, after, m, callers, w, compiled, passes, seen⟩ := exists_of_passed look seen
  simp only [look, Bool.and_eq_true, decide_eq_true_eq, beq_iff_eq, List.all_eq_true,
    Option.any_eq_true, Option.isNone_iff_eq_none, Option.isSome_iff_ne_none] at seen
  obtain ⟨⟨⟨⟨⟨short, two⟩, calls⟩, returned⟩, filled⟩, next, turned, empty⟩ := seen
  obtain ⟨caller, above, rfl⟩ := List.length_eq_two.mp two
  obtain ⟨back, again⟩ := Bytecode.exists_of_readsCall (calls caller List.mem_cons_self)
  obtain ⟨ahead, entered⟩ :=
    Bytecode.exists_of_readsCall (calls above (List.mem_cons_of_mem _ List.mem_cons_self))
  obtain ⟨behind, returns⟩ := Bytecode.exists_of_readsRet returned
  have turns := Machine.turn_of_getLeft? turned
  have driven : Driven (· = {}) (fun _ => True) true s := .fresh {} {}
  obtain ⟨p, member, address, -, law⟩ :=
    driven.recursion_filled compiled short passes entered again returns turns
  obtain ⟨top, derivation, -⟩ := Compiler.compile_ok compiled
  obtain ⟨making, same, before, makes⟩ := derivation.makes_last driven.ready (by decide)
  obtain ⟨named, params, returned, bodied⟩ := Node.define.inj same
  have start : making.draft.address = 5 := by
    rw [making.address, before]
    rfl
  obtain rfl := (driven.ready.compile compiled).library.address_inj member
    (Compiler.Holds.mem ⟨making, makes, rfl⟩) (address.trans start.symm)
  obtain ⟨⟨d, stop, site, ip⟩, kept, -⟩ := law making makes
  have declares : making.Declares d ("t", ⟨.boolean, 2, 1⟩) := by
    obtain ⟨slot, c₁, allocated, declares⟩ := making.declares_constant bodied site
    have starts := making.starts
    rw [named, params, returned, before] at starts
    obtain rfl : slot = 2 := by simpa [starts, allocated, Except.toOption] using given
    obtain ⟨_, _, -, -, started⟩ := making.started_eq
    have outermost : making.started.scope.depth = 0 := by
      rw [started, before]
      rfl
    rwa [outermost] at declares
  rcases kept making.name d stop site ip _ declares with filled' | emptied
  · exact absurd empty filled'
  · obtain ⟨_, ⟨⟩, full⟩ := filled
    exact ⟨code, after, m, caller, above, next, w, _, ahead, back, behind, making, d, stop, driven,
      compiled, short, passes, entered, again, returns, turns, makes, bodied, named ▸ site,
      ip, declares, full, empty, emptied⟩

end Session

end Primer
