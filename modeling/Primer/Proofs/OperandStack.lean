import Primer.Proofs.ControlFlow
import Primer.Proofs.Execution.Exchange

/-!
The operand stack in sessions. Where the types of procedures are declared and the host keeps its
table, no unit takes values off an empty stack, and one that runs to its end leaves the stack as it
found it. A procedure returns with what its caller left below the arguments, and the value that it
gives back.
-/

set_option autoImplicit false
set_option relaxedAutoImplicit false

namespace Primer

/-- A definition says what type its procedure gives back. -/
def Node.DeclaresType : Node → Prop
  | .define _ _ returns _ => returns.isSome
  | _ => True

variable {σ : Type} {hosts : HostTable (StateM σ)}

namespace Layout.Of

variable {c : Compiler} {top : Fragment} {l : Layout}

/-- What is traded agrees with what is known in the body of a procedure that can be called. -/
theorem knows_body (unit : Layout.Of Node.DeclaresType c top l)
    (shelf : Shelf Node.DeclaresType c.hosts c.procedures c.library)
    (known : ∀ name, c.hosts.lookup name = hosts.signature? name) {p : Procedure} {m : Making}
    (makes : c.Makes Node.DeclaresType p m) (callable : p.Callable) :
    (l.trade hosts p.returns.height).Knows m.started m.ended := by
  have itself : l.holds p m.code := unit.holds ▸ ⟨m, makes, rfl⟩
  obtain ⟨declares, table, rfl, after, less, more, split, -⟩ := makes
  refine m.trade_knows declares callable (fun q member callable' => ?_)
    ⟨_, _, itself, callable, rfl, rfl, rfl⟩ (fun name signature listed => ?_) rfl
  · obtain ⟨code, held⟩ := Compiler.holds_of_mem shelf (p := q) (by rw [split]; simp [member])
    exact ⟨q, code, unit.holds ▸ held, callable', rfl, rfl, rfl⟩
  · rw [table, known] at listed
    exact ⟨signature, listed, rfl, rfl⟩

theorem levelled (unit : Layout.Of Node.DeclaresType c top l) (ready : c.Ready)
    (shelf : Shelf Node.DeclaresType c.hosts c.procedures c.library)
    (known : ∀ name, c.hosts.lookup name = hosts.signature? name) : l.Levelled hosts := by
  constructor
  · intro p q code code' first second same
    rw [unit.holds] at first second
    exact ready.library.address_inj first.mem second.mem same
  · intro p code held callable
    rw [unit.holds] at held
    obtain ⟨m, makes, rfl⟩ := held
    have knows := unit.knows_body shelf known makes callable
    obtain ⟨-, -, rfl, -⟩ := makes
    obtain ⟨note, start, -, marks⟩ := (m.levels knows rfl).noted
    exact ⟨note, start, marks⟩

/-- What is traded agrees with what is known in the top-level code. -/
theorem knows_main (unit : Layout.Of Node.DeclaresType c top l)
    (shelf : Shelf Node.DeclaresType c.hosts c.procedures c.library)
    (known : ∀ name, c.hosts.lookup name = hosts.signature? name) {program : Program}
    {before : Compiler} (derivation : Yields (.statements program) before ⟨none, top⟩ c)
    (ready : before.Ready) : (l.trade hosts 0).Knows before c := by
  refine ⟨fun p member callable => ?_, fun name signature listed => ?_, fun draft inside => ?_,
    fun i => ?_, ready.proper⟩
  · obtain ⟨code, held⟩ := Compiler.holds_of_mem shelf member
    exact ⟨p, code, unit.holds ▸ held, callable, rfl, rfl, rfl⟩
  · rw [← (derivation.grows ready.tidy).hosts, known] at listed
    exact ⟨signature, listed, rfl, rfl⟩
  · rw [ready.outside] at inside
    cases inside
  · simp [Compiler.paramTypes, ready.outside]

/-- The heights of the top-level code. -/
theorem level_main (unit : Layout.Of Node.DeclaresType c top l)
    (shelf : Shelf Node.DeclaresType c.hosts c.procedures c.library)
    (known : ∀ name, c.hosts.lookup name = hosts.signature? name) {program : Program}
    {before : Compiler} (derivation : Yields (.statements program) before ⟨none, top⟩ c)
    (ready : before.Ready) :
    ∃ note, note 0 = 0 ∧ l.main.code.Marks (l.trade hosts 0).heights note 0 := by
  have knows := unit.knows_main shelf known derivation ready
  have body := derivation.levels ready.tidy trivial knows 0 rfl
  obtain ⟨note, start, -, marks⟩ :=
    (body.followed (i := .ret) (e := 0) rfl (fun onward => by cases onward) fun _ => rfl).noted
  rw [unit.main]
  exact ⟨note, start, marks⟩

end Layout.Of

namespace Layout

variable {l : Layout}

/-- The top-level code is entered with the stack as it was. -/
theorem enters_level {note : Nat → Nat} (start : note 0 = 0)
    (marks : l.main.code.Marks (l.trade hosts 0).heights note 0) {first next : Machine} {w w' : σ}
    (buffer : first.code = l.buffer) (zero : first.ip = 0)
    (turns : first.turn hosts w = (.inl next, w')) : l.Level hosts first.stack l.main [] next := by
  obtain ⟨behind, decoded⟩ := l.entry
  rw [← buffer, ← zero] at decoded
  have moves : (l.trade hosts 0).Moves (.jump l.main.base) 0 0 := .plain rfl
  obtain ⟨values, none, stack⟩ := turn_moves turns decoded moves rfl (Nat.zero_le _)
  obtain ⟨j, behind', read, carried⟩ := Machine.turn_carried turns
  rw [decoded] at read
  cases read
  have lands : next.ip = l.main.base := by
    rcases carried.control with ⟨goesOn, -⟩ | ⟨jumps, -⟩ | ⟨call, -⟩ | ⟨ret, -⟩
    · cases goesOn
    · exact (Option.some.inj jumps).symm
    · cases call
    · cases ret
  exact ⟨first.stack, values, 0, note, 0, ⟨rfl, rfl⟩, marks, lands, stack, none.trans start.symm⟩

/-- A run that starts above some values ends above them, and never lacks one. -/
theorem Levelled.run (levelled : l.Levelled hosts) {note : Nat → Nat} (start : note 0 = 0)
    (marks : l.main.code.Marks (l.trade hosts 0).heights note 0) {first : Machine} {w w' : σ}
    {fuel : Nat} {finished : Finished} (done : first.runFrom hosts fuel w = (some finished, w'))
    (buffer : first.code = l.buffer) (zero : first.ip = 0) (idle : first.calls = []) :
    (∀ offset, finished.error ≠ some (.fatal .underflow offset)) ∧
      (finished.error = none → finished.machine.stack = first.stack) := by
  obtain ⟨count, last, w₁, reaches, ended⟩ := Machine.runFrom_finished done
  obtain ⟨callers, passes⟩ := Machine.Passes.start.reaches reaches
  obtain ⟨code, known⟩ := Active.passes (levelled.keeps first.stack) passes buffer zero idle
    fun next w' => enters_level start marks buffer zero
  cases Machine.turn_ends ended with
  | beyond outside => exact absurd (passes_inside zero code known) (Nat.not_lt.mpr outside)
  | halt decoded none =>
    refine ⟨nofun, fun _ => ?_⟩
    rw [code] at decoded
    rcases known with ⟨rfl, -, -⟩ | ⟨r, active⟩
    · rfl
    · obtain ⟨offset, i, here, -, found, decoded'⟩ := active.fetch
      rw [decoded'] at decoded
      obtain rfl := shift_eq_ret (congrArg Prod.fst (Except.ok.inj decoded))
      cases active with
      | top idle covers level =>
        obtain ⟨floor, values, back, ⟨rfl, rfl⟩, stack, count⟩ := level.at_ret here found
        rw [List.length_eq_zero_iff] at count
        rw [count] at stack
        exact stack
      | called outer procedure call returns calls => rw [none] at calls; cases calls
  | limit => exact ⟨nofun, nofun⟩
  | undecodable => exact ⟨nofun, nofun⟩
  | fault decoded failed =>
    refine ⟨fun offset same => ?_, nofun⟩
    cases same
    rw [code] at decoded
    rcases known with ⟨rfl, -, -⟩ | ⟨r, active⟩
    · obtain ⟨behind, entry⟩ := l.entry
      rw [zero, entry] at decoded
      cases decoded
      have leaving : Machine.Leaving 0 _ (.error (.fault .underflow)) :=
        failed ▸ Machine.execute_leaving rfl (Nat.zero_le _)
      exact leaving rfl
    · obtain ⟨offset, i, here, -, found, decoded'⟩ := active.fetch
      rw [decoded'] at decoded
      cases decoded
      exact Level.spares active.claimed here found failed
  | mishap => exact ⟨nofun, nofun⟩
  | host => exact ⟨nofun, nofun⟩

end Layout

namespace Session.Driven

variable {units : Program → Prop} {smooth : Bool} {s : Session (StateM σ)}

/-- The layout of a unit that compiles in a session, what is known of the procedures and the host,
and the heights of the code. -/
theorem levelled_layout (driven : Driven (· = hosts) (Program.Defines Node.DeclaresType) smooth s)
    {program : Program} (kind : Program.Defines Node.DeclaresType program) {code : Bytecode}
    {after : Compiler} (compiled : s.compiler.compile program = .ok (code, after))
    (short : code.size < 0x80000000) :
    ∃ (top : Fragment) (l : Layout) (note : Nat → Nat),
      Yields (.statements program) s.compiler ⟨none, top⟩ after ∧
      Layout.Of Node.DeclaresType after top l ∧ l.buffer = code ∧
      Shelf Node.DeclaresType after.hosts after.procedures after.library ∧
      (∀ name, after.hosts.lookup name = hosts.signature? name) ∧
      l.Levelled hosts ∧ note 0 = 0 ∧ l.main.code.Marks (l.trade hosts 0).heights note 0 := by
  obtain ⟨top, l, derivation, unit, buffer⟩ :=
    driven.layout Node.DeclaresType (fun _ => id) kind compiled short
  have shelf := derivation.shelf driven.ready kind (driven.shelf fun _ => id)
  have known : ∀ name, after.hosts.lookup name = hosts.signature? name := by
    intro name
    rw [(derivation.grows driven.ready.tidy).hosts]
    exact driven.lookup name
  obtain ⟨note, start, marks⟩ := unit.level_main shelf known derivation driven.ready
  exact ⟨top, l, note, derivation, unit, buffer, shelf, known,
    unit.levelled (driven.ready.compile compiled) shelf known, start, marks⟩

/-- The heights of a unit that compiles in a session. -/
theorem levels (driven : Driven (· = hosts) (Program.Defines Node.DeclaresType) smooth s)
    {program : Program} (kind : Program.Defines Node.DeclaresType program) {code : Bytecode}
    {after : Compiler} (compiled : s.compiler.compile program = .ok (code, after))
    (short : code.size < 0x80000000) :
    ∃ (l : Layout) (note : Nat → Nat), l.buffer = code ∧ l.holds = after.Holds Node.DeclaresType ∧
      l.Levelled hosts ∧ note 0 = 0 ∧ l.main.code.Marks (l.trade hosts 0).heights note 0 := by
  obtain ⟨top, l, note, -, unit, buffer, -, -, levelled, start, marks⟩ :=
    driven.levelled_layout kind compiled short
  exact ⟨l, note, buffer, unit.holds, levelled, start, marks⟩

theorem run_level (driven : Driven (· = hosts) (Program.Defines Node.DeclaresType) smooth s)
    {program : Program} (kind : Program.Defines Node.DeclaresType program) {code : Bytecode}
    {after : Compiler} {loaded : Machine} {fuel : Nat} {finished : Finished} {w w' : σ}
    (compiled : s.compiler.compile program = .ok (code, after)) (short : code.size < 0x80000000)
    (loads : s.machine.load code = .ok loaded)
    (ran : loaded.run s.hosts fuel w = (some finished, w')) :
    (∀ offset, finished.error ≠ some (.fatal .underflow offset)) ∧
      (finished.error = none → finished.machine.stack = s.machine.stack) := by
  have table : s.hosts = hosts := driven.given
  rw [table] at ran
  obtain ⟨l, note, rfl, -, levelled, start, marks⟩ := driven.levels kind compiled short
  rw [driven.loads compiled short] at loads
  cases loads
  have ran : (s.machine.started l.buffer).runFrom hosts fuel w = (some finished, w') := ran
  have kept := levelled.run start marks ran rfl rfl driven.idle
  exact kept

/-- Let the host keep its table, and let all definitions declare their types. Then no unit fails for
lack of a value on the stack, one that runs to its end leaves the stack as it was, and where a
procedure returns, the stack is what the caller had below the arguments and what is given back. -/
theorem stack_kept (driven : Driven (· = hosts) (Program.Defines Node.DeclaresType) smooth s)
    {program : Program} (kind : Program.Defines Node.DeclaresType program)
    (short : ∀ code after, s.compiler.compile program = .ok (code, after) →
      code.size < 0x80000000) :
    (∀ fuel w error s' w', s.run fuel program w = (some (error, s'), w') →
      (∀ offset, error ≠ some (.machine (.fatal .underflow offset))) ∧
        (error = none → s'.machine.stack = s.machine.stack)) ∧
    ∀ code after, s.compiler.compile program = .ok (code, after) →
      ∀ w m caller outer w' behind,
        Machine.Passes s.hosts (s.machine.started code) w m (caller :: outer) w' →
        code.decodeAt m.ip = .ok (.ret, behind) →
        ∃ procedure ∈ after.procedures, ∃ next given,
          code.decodeAt caller.ip = .ok (.call procedure.address, next) ∧
          procedure.params.length ≤ caller.stack.length ∧
          m.stack = given ++ caller.stack.drop procedure.params.length ∧
          given.length = if procedure.returns = .void then 0 else 1 := by
  have table : s.hosts = hosts := driven.given
  constructor
  · intro fuel w error s' w' done
    cases run_outcome done with
    | refused => exact ⟨nofun, nofun⟩
    | unloaded compiled failed =>
      rw [driven.loads compiled (short _ _ compiled)] at failed
      cases failed
    | finished compiled loads ran =>
      exact ⟨nofun, fun _ => (driven.run_level kind compiled (short _ _ compiled) loads ran).2 rfl⟩
    | failed compiled loads ran =>
      have spared := (driven.run_level kind compiled (short _ _ compiled) loads ran).1
      refine ⟨fun offset same => spared offset ?_, nofun⟩
      cases same
      rfl
  · intro code after compiled w m caller outer w' behind passes ret
    rw [table] at passes
    obtain ⟨l, note, rfl, holds, levelled, start, marks⟩ :=
      driven.levels kind compiled (short _ _ compiled)
    obtain ⟨-, ⟨-, none, -⟩ | ⟨r, active⟩⟩ := Layout.Active.passes
      (levelled.keeps s.machine.stack) passes rfl rfl driven.idle fun next w' =>
        Layout.enters_level start marks rfl rfl
    · cases none
    · obtain ⟨offset, i, here, -, found, decoded⟩ := active.fetch
      rw [decoded] at ret
      obtain rfl := Layout.shift_eq_ret (congrArg Prod.fst (Except.ok.inj ret))
      cases active with
      | @called _ _ _ _ p code back outer procedure call returns calls covers level =>
        obtain ⟨floor, values, height, ⟨q, held, same, enough, rfl, rfl⟩, stack, count⟩ :=
          Layout.Level.at_ret level here found
        obtain rfl := levelled.unique _ _ _ _ held procedure same
        rw [holds] at procedure
        refine ⟨q, procedure.mem, back, values, call, enough, stack, ?_⟩
        rw [count]
        cases q.returns <;> rfl

/-- A procedure that calls itself out of a sum and returns out of a loop, and its call out of
another sum. -/
theorem stack_kept_recursion : ∃ (s : Session (StateM Nat)) (code : Bytecode) (after : Compiler),
    Driven (· = {}) (Program.Defines Node.DeclaresType) true s ∧
    s.compiler.compile
      [.binary (.arith .add) (.literal (.number .one)) (.call "sum" [.literal (.number .one)])] =
        .ok (code, after) ∧
    (∃ s', s.run 60
      [.binary (.arith .add) (.literal (.number .one)) (.call "sum" [.literal (.number .one)])] 0 =
        (some (none, s'), 0) ∧ s'.machine.stack = s.machine.stack) ∧
    ∀ w m caller outer w' behind,
      Machine.Passes s.hosts (s.machine.started code) w m (caller :: outer) w' →
      code.decodeAt m.ip = .ok (.ret, behind) →
      ∃ procedure ∈ after.procedures, ∃ next given,
        code.decodeAt caller.ip = .ok (.call procedure.address, next) ∧
        procedure.params.length ≤ caller.stack.length ∧
        m.stack = given ++ caller.stack.drop procedure.params.length ∧
        given.length = if procedure.returns = .void then 0 else 1 := by
  let define : Program := [.define "sum" [⟨"n", none⟩] (some .number)
    [.branch (.binary (.order .lessEq) (.var "n") (.literal (.number .zero)))
      [.giveBack (some (.var "n"))] none,
     .loop (.literal (.boolean true))
      [.giveBack (some (.binary (.arith .add) (.literal (.number .one))
        (.call "sum" [.binary (.arith .sub) (.var "n") (.literal (.number .one))])))],
     .giveBack (some (.var "n"))]]
  let calls : Program :=
    [.binary (.arith .add) (.literal (.number .one)) (.call "sum" [.literal (.number .one)])]
  let first : Session (StateM Nat) := .new {} {}
  obtain ⟨error, s, w, ran, seen⟩ := exists_of_run (s := first) (a := (false, true, some true, 0))
    (fun (error, s) => (SessionError.onMachine error, s.accepts calls,
      (s.run 60 calls 0).1.map (fun (error, _) => error.isNone), (s.run 60 calls 0).2))
    (by decide +kernel : (first.run 3 define 0).1.map _ = _)
  simp only [Prod.mk.injEq] at seen
  obtain ⟨smooth, accepted, ended, world⟩ := seen
  have begun : Driven (· = {}) (Program.Defines Node.DeclaresType) true first := .fresh {} {}
  have declares : Program.Defines Node.DeclaresType define := by
    rintro name params returns body member
    cases List.mem_singleton.mp member
    rfl
  have driven := begun.again declares (short_of_accepts (by decide +kernel)) ran
  rw [smooth] at driven
  obtain ⟨code, after, compiled, -⟩ := exists_of_accepts accepted
  obtain ⟨error', s', w', ran', ended⟩ := exists_of_run (s := s) _ ended
  have success : error' = none := Option.isNone_iff_eq_none.mp ended
  rw [ran'] at world
  subst success world
  have plain : Program.Defines Node.DeclaresType calls := by
    rintro name params returns body member
    cases List.mem_singleton.mp member
  have kept := driven.stack_kept plain (short_of_accepts accepted)
  exact ⟨s, code, after, driven, compiled, ⟨s', ran', (kept.1 _ _ _ _ _ ran').2 rfl⟩,
    kept.2 code after compiled⟩

end Session.Driven

end Primer
