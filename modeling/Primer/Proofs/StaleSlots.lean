import Primer.Proofs.Compilation.Reads
import Primer.Proofs.Execution.Parallel
import Primer.Proofs.Execution.Routine

/-!
What is left in slots does not matter. A unit is run on two machines whose slots hold the same for
every variable that is visible, and for the result if there is one; all other slots may hold
anything that earlier units have left there. Both runs take the same turns, with the same calls of
the host, and come to the same end, after which the slots agree again for all that is visible then.
-/

set_option autoImplicit false
set_option relaxedAutoImplicit false

namespace Primer

/-- At the address the slots are known that the code of the routine reads from there on. -/
def Routine.Supplied (d : Discipline (Set UInt8)) (known : Set UInt8) (r : Routine) (ip : Nat) :
    Prop :=
  ∃ offset note, ip = r.base + offset ∧ r.code.Reach offset ∧ Fragment.Marks d note 0 r.code ∧
    note offset ⊆ known

theorem Routine.Supplied.mono {d : Discipline (Set UInt8)} {known more : Set UInt8} {r : Routine}
    {ip : Nat} (supplied : r.Supplied d known ip) (wider : known ⊆ more) :
    r.Supplied d more ip := by
  obtain ⟨offset, note, here, reach, marks, enough⟩ := supplied
  exact ⟨offset, note, here, reach, marks, enough.trans wider⟩

namespace Layout

/-- The routines of the layout read what is known when they are entered, and what they write. -/
structure Reads (l : Layout) (needs : Nat → Set UInt8) (start final : Set UInt8) : Prop where
  main : ∃ b, l.main.code.Annotated (reading needs (final ⊆ ·)) start b
  procedures : ∀ p code, l.holds p code → ∃ b,
    code.Annotated (reading needs fun _ => True) (needs p.address) b

/-- The slots are known that are read from an address on, and those that are read after each
return. -/
inductive Supplied (l : Layout) (needs : Nat → Set UInt8) (start final known : Set UInt8) :
    Nat → List Nat → Prop
  | entry (enough : start ⊆ known) : Supplied l needs start final known 0 []
  | top {ip : Nat} (here : l.main.Supplied (reading needs (final ⊆ ·)) known ip) :
      Supplied l needs start final known ip []
  | called {p : Procedure} {code : Fragment} {ip back : Nat} {calls : List Nat}
      (held : l.holds p code)
      (here : Routine.Supplied (reading needs fun _ => True) known ⟨p.address, code⟩ ip)
      (outer : Supplied l needs start final known back calls) :
      Supplied l needs start final known ip (back :: calls)

variable {l : Layout} {needs : Nat → Set UInt8} {start final known : Set UInt8}

theorem Supplied.mono {more : Set UInt8} {ip : Nat} {calls : List Nat}
    (supplied : l.Supplied needs start final known ip calls) (wider : known ⊆ more) :
    l.Supplied needs start final more ip calls := by
  induction supplied with
  | entry enough => exact .entry (enough.trans wider)
  | top here => exact .top (here.mono wider)
  | called held here _ ih => exact .called held (here.mono wider) ih

/-- The return addresses are inside the code. -/
theorem Supplied.back_le {ip : Nat} {calls : List Nat}
    (supplied : l.Supplied needs start final known ip calls) : ip ≤ l.buffer.size ∧
      ∀ address ∈ calls, address ≤ l.buffer.size := by
  induction supplied with
  | entry => exact ⟨Nat.zero_le _, nofun⟩
  | top here =>
    obtain ⟨offset, note, rfl, reach, -⟩ := here
    exact ⟨l.mainStands.covers_le reach, nofun⟩
  | called held here _ ih =>
    obtain ⟨offset, note, rfl, reach, -⟩ := here
    refine ⟨(l.stands _ _ held).covers_le reach, fun address member => ?_⟩
    rcases List.mem_cons.mp member with rfl | later
    · exact ih.1
    · exact ih.2 address later

end Layout

/-- An instruction of a routine reads known slots, and the slots are known that are read wherever
control goes next inside the routine. -/
theorem Routine.Supplied.fetch {r : Routine} {buffer : Bytecode} {callable : Nat → Prop}
    {needs : Nat → Set UInt8} {final : Set UInt8 → Prop} {known : Set UInt8} {ip : Nat}
    (stands : r.Stands buffer callable)
    (supplied : r.Supplied (reading needs final) known ip) :
    ∃ i behind, buffer.decodeAt ip = .ok (i, behind) ∧ i.requires needs ⊆ known ∧
      (i.goesOn → r.Supplied (reading needs final) (known ∪ i.sets) behind) ∧
      (∀ target, i.jump? = some target →
        r.Supplied (reading needs final) (known ∪ i.sets) target ∧ target ≤ buffer.size) ∧
      (∀ target, i = .call target → callable target) ∧ (i = .ret → ∃ a ⊆ known, final a) := by
  obtain ⟨offset, note, rfl, reach, marks, enough⟩ := supplied
  obtain ⟨i, found, decoded⟩ := stands.fetch reach
  have notes := marks offset i found
  rw [Nat.zero_add] at notes
  have wider : ∀ {after}, (reading needs final).changes i (note offset) after →
      after ⊆ known ∪ i.sets :=
    fun changes => changes.2.trans (Set.union_subset_union_left _ enough)
  have requires : i.requires needs ⊆ known := by
    cases goesOn : i.goesOn with
    | true => exact (notes.next goesOn).1.trans enough
    | false => cases i <;> first | exact Set.empty_subset known | cases goesOn
  refine ⟨i.shift r.base, _, decoded, ?_⟩
  rw [Instruction.requires_shift, Instruction.sets_shift, Instruction.goesOn_shift]
  refine ⟨requires, fun goesOn => ?_, fun target jumps => ?_, fun target call => ?_, fun ret => ?_⟩
  · exact ⟨_, note, rfl, .next reach found goesOn, marks, wider (notes.next goesOn)⟩
  · rw [Instruction.jump?_shift, Option.map_eq_some_iff] at jumps
    obtain ⟨inner, jumps, rfl⟩ := jumps
    rw [Nat.add_comm inner]
    have reached := Fragment.Reach.jump reach found jumps
    exact ⟨⟨inner, note, rfl, reached, marks, wider (notes.jump inner jumps)⟩,
      stands.covers_le reached⟩
  · obtain rfl := Layout.shift_eq_call call
    exact (stands.sound.uses _ (Fragment.mem_plain.mpr ⟨Fragment.mem_of_at? found, rfl⟩)).2
      target rfl
  · exact ⟨_, enough, notes.ret (Layout.shift_eq_ret ret)⟩

namespace Layout

variable {l : Layout} {needs : Nat → Set UInt8} {start final known : Set UInt8}

/-- A procedure that is called finds the slots known that it needs. -/
theorem Supplied.enter (reads : l.Reads needs start final) {target back : Nat} {calls : List Nat}
    (outer : l.Supplied needs start final known back calls) (enough : needs target ⊆ known)
    (callable : ∃ p code, l.holds p code ∧ p.address = target) :
    l.Supplied needs start final known target (back :: calls) := by
  obtain ⟨p, code, held, rfl⟩ := callable
  obtain ⟨b, -, note, begins, -, marks⟩ := reads.procedures p code held
  exact .called held ⟨0, note, rfl, .start, marks, begins ▸ enough⟩ outer

/-- The machine is at an instruction that reads known slots, and what is read wherever control goes
next is known then. -/
def Serves (l : Layout) (needs : Nat → Set UInt8) (start final known : Set UInt8) (ip : Nat)
    (calls : List Nat) : Prop :=
  ∃ i behind, l.buffer.decodeAt ip = .ok (i, behind) ∧ (∀ slot, i = .load slot → slot ∈ known) ∧
    (∀ target, i.LeadsTo target → target ≤ l.buffer.size) ∧
    (i = .ret → calls = [] → final ⊆ known) ∧
    ∀ before after : Machine, before.ip = behind → before.calls = calls →
      Machine.Control i before after →
        l.Supplied needs start final (known ∪ i.sets) after.ip after.calls

-- Inside a routine it makes a difference only for returns whether the routine was called.
private theorem serves_inside (reads : l.Reads needs start final) {r : Routine}
    {last : Set UInt8 → Prop} {ip : Nat} {calls : List Nat}
    (stands : r.Stands l.buffer fun target => ∃ p code, l.holds p code ∧ p.address = target)
    (here : r.Supplied (reading needs last) known ip)
    (wrap : ∀ more ip, known ⊆ more → r.Supplied (reading needs last) more ip →
      l.Supplied needs start final more ip calls)
    (back : ∀ more address rest, known ⊆ more → calls = address :: rest →
      l.Supplied needs start final more address rest)
    (ends : calls = [] → last = (final ⊆ ·)) : l.Serves needs start final known ip calls := by
  obtain ⟨i, behind, decoded, requires, next, jump, call, returns⟩ := here.fetch stands
  have wider : known ⊆ known ∪ i.sets := Set.subset_union_left
  refine ⟨i, behind, decoded, ?_, ?_, fun ret idle => ?_, ?_⟩
  · rintro slot rfl
    exact requires rfl
  · rintro target (jumps | calls)
    · exact (jump target jumps).2
    · obtain ⟨p, code, held, rfl⟩ := call target calls
      exact (l.stands p code held).covers_le .start
  · obtain ⟨a, enough, enters⟩ := returns ret
    rw [ends idle] at enters
    exact Set.Subset.trans enters enough
  · rintro before after rfl rfl
      (⟨goesOn, -, ip, calls⟩ | ⟨jumps, calls⟩ | ⟨enters, calls⟩ | ⟨-, calls⟩)
    · rw [ip, calls]
      exact wrap _ _ wider (next goesOn)
    · rw [calls]
      exact wrap _ _ wider (jump _ jumps).1
    · rw [calls]
      refine .enter reads (wrap _ _ wider (next (by rw [enters]; rfl))) ?_ (call _ enters)
      rw [enters] at requires wider
      rw [enters]
      exact Set.Subset.trans requires wider
    · exact back _ _ _ wider calls

theorem Supplied.serves (reads : l.Reads needs start final) {ip : Nat} {calls : List Nat}
    (supplied : l.Supplied needs start final known ip calls) :
    l.Serves needs start final known ip calls := by
  cases supplied with
  | top here => exact serves_inside reads l.mainStands here (fun _ _ _ => .top) nofun fun _ => rfl
  | called held here outer =>
    refine serves_inside reads (l.stands _ _ held) here ?_ ?_ nofun
    · exact fun more ip wider here => .called held here (outer.mono wider)
    · rintro more address rest wider ⟨⟩
      exact outer.mono wider
  | entry enough =>
    obtain ⟨behind, decoded⟩ := l.entry
    obtain ⟨b, -, note, begins, -, marks⟩ := reads.main
    refine ⟨_, behind, decoded, nofun, ?_, nofun, ?_⟩
    · rintro target (jumps | call)
      · cases jumps
        exact l.mainStands.covers_le .start
      · cases call
    · rintro before after - idle (⟨goesOn, -, -, -⟩ | ⟨jumps, calls⟩ | ⟨call, -⟩ | ⟨ret, -⟩)
      · cases goesOn
      · rw [calls, idle]
        have base : l.main.base = after.ip := Option.some.inj jumps
        refine .top ⟨0, note, base.symm, .start, marks, ?_⟩
        rw [begins]
        exact enough.trans Set.subset_union_left
      · cases call
      · cases ret

end Layout

namespace Machine

variable {σ : Type}

/-- Two runs with the same outcome: neither has ended yet, or both have, with the same error or
without one. The host has come to the same state, and after success the given slots hold the
same. -/
def SameOutcome (final : Set UInt8) : Option Finished × σ → Option Finished × σ → Prop
  | (none, w), (none, w') => w' = w
  | (some finished, w), (some finished', w') => w' = w ∧ finished'.error = finished.error ∧
    (finished.error = none → ∀ slot ∈ final,
      finished'.machine.locals.get? slot = finished.machine.locals.get? slot)
  | _, _ => False

end Machine

namespace Layout

variable {l : Layout} {needs : Nat → Set UInt8} {start final known : Set UInt8} {σ : Type}
  {hosts : HostTable (StateM σ)}

/-- Machines that are alike in what is read come to the same outcome. -/
theorem Supplied.run (reads : l.Reads needs start final) {m m' : Machine}
    (supplied : l.Supplied needs start final known m.ip m.calls) (alike : m.Alike id known m')
    (ip : m'.ip = m.ip) (code : m.code = l.buffer) (code' : m'.code = l.buffer)
    (fuel : Nat) (w : σ) :
    Machine.SameOutcome final (m.runFrom hosts fuel w) (m'.runFrom hosts fuel w) := by
  induction fuel generalizing known m m' w with
  | zero => exact rfl
  | succ fuel ih =>
    obtain ⟨i, behind, decoded, loads, leads, ends, next⟩ := supplied.serves reads
    have inside := supplied.back_le
    rw [← code] at decoded leads inside
    have decoded' : m'.code.decodeAt m'.ip = .ok (i.retarget id, behind) := by
      rw [Instruction.retarget_id, code', ← code, ip]
      exact decoded
    have together : Machine.Together id known i.sets (m.turn hosts w) (m'.turn hosts w) :=
      alike.turn ip decoded decoded' (fun _ => rfl) loads (by rw [code, code']; exact fun _ => id)
        leads inside.2 w
    rw [Machine.runFrom_succ, Machine.runFrom_succ]
    generalize turned : m.turn hosts w = outcome at together
    generalize turned' : m'.turn hosts w = outcome' at together
    cases together with
    | goesOn after ip' =>
      obtain ⟨j, behind', read, carried⟩ := Machine.turn_carried turned
      obtain ⟨_, _, _, carried'⟩ := Machine.turn_carried turned'
      cases decoded.symm.trans read
      have moved := next { m with ip := behind, steps := m.steps + 1 } _ rfl rfl carried.control
      exact ih moved after ip' (carried.code.trans code) (carried'.code.trans code') _
    | ends error after =>
      have same : error.map (MachineError.moved id) = error := by
        cases error with
        | none => rfl
        | some error => exact congrArg some error.moved_id
      rw [same]
      refine ⟨rfl, rfl, ?_⟩
      rintro rfl slot member
      -- Only a return of the top-level code ends a run without an error.
      have known : final ⊆ known := by
        cases Machine.turn_ends turned with
        | beyond outside =>
          have onward := Bytecode.decodeAt_onward decoded
          omega
        | halt returns idle =>
          cases decoded.symm.trans returns
          exact ends rfl idle
      exact after.locals slot (known member)

end Layout

namespace Compiler

/-- The slots that later units can tell apart: those of the variables that are visible, and that of
the result if the last statement had one. -/
def visible (c : Compiler) : Set UInt8 :=
  { slot | (∃ binding ∈ c.scope.bindings, binding.2.slot = slot) ∨ c.prior ≠ .void ∧
    slot = resultSlot }

theorem Ready.known_eq {c : Compiler} (ready : c.Ready) : c.known = c.visible := by
  refine Set.Subset.antisymm (known_subset ?_ ?_ ?_) ?_
  · exact fun slot member => .inl member
  · intro draft inside
    rw [ready.outside] at inside
    cases inside
  · intro filled slot given
    rw [answer?, ready.outside] at given
    exact .inr ⟨filled, (Option.some.inj given).symm⟩
  · rintro slot (member | ⟨filled, rfl⟩)
    · exact c.variableSlots_subset_known member
    · exact .inr ⟨filled, by rw [answer?, ready.outside]⟩

variable {σ : Type}

/-- What is left in slots does not matter: a unit has the same outcome on machines that agree on
what is visible, and they agree again after it. -/
theorem Reached.run_unaffected {signatures : List (String × Signature)} {c after : Compiler}
    (reached : Reached signatures c) {program : Program} {code : Bytecode}
    (compiled : c.compile program = .ok (code, after)) (short : code.size < 0x80000000)
    {m m' : Machine} (config : m'.config = m.config) (empty : m.stack = [] ∧ m'.stack = [])
    (idle : m.calls = [] ∧ m'.calls = [])
    (agree : ∀ slot ∈ c.visible, m'.locals.get? slot = m.locals.get? slot)
    (hosts : HostTable (StateM σ)) : ∃ loaded loaded',
      m.load code = .ok loaded ∧ m'.load code = .ok loaded' ∧ ∀ fuel w,
        Machine.SameOutcome after.visible (loaded.run hosts fuel w) (loaded'.run hosts fuel w) := by
  have ready := reached.ready
  obtain ⟨needs, surveys⟩ := reached.surveys
  refine ⟨_, _, ready.loads compiled short m, ready.loads compiled short m', fun fuel w => ?_⟩
  obtain ⟨top, derivation, rfl⟩ := compile_ok compiled
  obtain ⟨needs', -, surveyed, b, -, known, annotated⟩ :=
    derivation.surveys (after.visible ⊆ ·) ready surveys Set.Subset.rfl
  have later := ready.compile compiled
  rw [later.known_eq] at known
  rw [ready.known_eq] at annotated
  let holds : Procedure → Fragment → Prop := fun p code => after.Stores p code ∧
    ∃ b, code.Annotated (reading needs' fun _ => True) (needs' p.address) b
  obtain ⟨l, buffer, main, same⟩ := exists_layout_of holds later
    (fun p member => by
      obtain ⟨-, stop, less, code, more, region, noted⟩ := surveyed p member
      exact ⟨code, ⟨stop, less, more, region⟩, noted⟩)
    (fun _ _ held => held.1) (derivation.sound ready.tidy) short
  have reads : l.Reads needs' c.visible after.visible := by
    refine ⟨?_, fun p code held => ?_⟩
    · rw [main]
      exact ⟨b, annotated.followed rfl nofun fun _ => known⟩
    · rw [same] at held
      exact held.2
  have start : l.Supplied needs' c.visible after.visible c.visible 0 m.calls := by
    rw [idle.1]
    exact .entry Set.Subset.rfl
  have alike : Machine.Alike id c.visible
      { m with code := after.assemble (top ++ [.ret]), ip := 0, steps := 0 }
      { m' with code := after.assemble (top ++ [.ret]), ip := 0, steps := 0 } :=
    ⟨config, empty.2.trans empty.1.symm, by rw [List.map_id]; exact idle.2.trans idle.1.symm, agree,
      .inr rfl⟩
  exact Layout.Supplied.run reads start alike rfl buffer.symm buffer.symm fuel w

/-- A procedure that reads a variable from outside and one of its own is called with the result of
the last unit and out of a loop, on a machine whose other slots are empty and on one where something
was left in the slot of the procedure's own variable. -/
theorem run_unaffected_leftover :
    ∃ (c : Compiler) (code : Bytecode) (after : Compiler) (m m' : Machine),
    Reached [("note", ⟨[.boolean], .void⟩)] c ∧
      c.compile [.call "both" [.result],
        .loop (.var "x") [.assign "x" (.call "both" [.literal (.boolean false)])],
        .call "note" [.var "x"]] = .ok (code, after) ∧
      code.size < 0x80000000 ∧ m'.config = m.config ∧ (m.stack = [] ∧ m'.stack = []) ∧
      (m.calls = [] ∧ m'.calls = []) ∧ m.locals.get? 3 = none ∧
      m'.locals.get? 3 = some (.string "old") ∧
      (∀ slot ∈ c.visible, m'.locals.get? slot = m.locals.get? slot) ∧
      ∀ hosts : HostTable (StateM (List Value)), ∃ loaded loaded',
        m.load code = .ok loaded ∧ m'.load code = .ok loaded' ∧ ∀ fuel w,
          Machine.SameOutcome after.visible (loaded.run hosts fuel w)
            (loaded'.run hosts fuel w) := by
  obtain ⟨c, reached, slots, code, after, compiled, short⟩ : ∃ c : Compiler,
      Reached [("note", ⟨[.boolean], .void⟩)] c ∧ c.scope.bindings.map (·.2.slot) = [1] ∧
        ∃ code after, c.compile [.call "both" [.result],
          .loop (.var "x") [.assign "x" (.call "both" [.literal (.boolean false)])],
          .call "note" [.var "x"]] = .ok (code, after) ∧ code.size < 0x80000000 := by
    refine ⟨(new [("note", ⟨[.boolean], .void⟩)]).after
      [[.declare "x" none (some (.literal (.boolean true))),
        .define "both" [⟨"b", none⟩] none
          [.declare "y" (some .boolean) (some (.var "b")),
            .giveBack (some (.binary (.logic .and) (.var "y") (.var "x")))],
        .literal (.boolean true)]], Reached.new.after _, by decide +kernel, ?_⟩
    refine exists_of_size 79 (by decide +kernel) fun code after _ size => ?_
    rw [size]
    decide
  let locals : Locals := (Locals.set {} resultSlot (.boolean true)).set 1 (.boolean true)
  have unfilled : locals.get? 3 = none := by
    rw [Locals.get?_set_ne _ _ _ (by decide), Locals.get?_set_ne _ _ _ (by decide),
      Locals.get?_empty]
  clear_value locals
  let m : Machine := { locals }
  let m' : Machine := { locals := locals.set 3 (.string "old") }
  have agree : ∀ slot ∈ c.visible, m'.locals.get? slot = m.locals.get? slot := by
    intro slot member
    refine Locals.get?_set_ne _ _ _ ?_
    rcases member with ⟨binding, member, rfl⟩ | ⟨-, rfl⟩
    · have listed : binding.2.slot ∈ c.scope.bindings.map (·.2.slot) := List.mem_map_of_mem member
      rw [slots, List.mem_singleton] at listed
      rw [listed]
      decide
    · decide
  exact ⟨c, code, after, m, m', reached, compiled, short, rfl, ⟨rfl, rfl⟩, ⟨rfl, rfl⟩, unfilled,
    Locals.get?_set_self _ _ _, agree,
    reached.run_unaffected compiled short rfl ⟨rfl, rfl⟩ ⟨rfl, rfl⟩ agree⟩

end Compiler

end Primer
