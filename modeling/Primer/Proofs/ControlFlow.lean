import Primer.Proofs.Execution.Routine
import Primer.Proofs.Execution.Verified
import Primer.Proofs.Sessions

/-!
Control flow in sessions. Without an active call the machine is in the top-level code; otherwise it
is in the body of the procedure that the innermost active call leads to, and each return address
follows its call in the region of the caller. No body is left through its end, and no call is active
between two units.
-/

set_option autoImplicit false
set_option relaxedAutoImplicit false

namespace Primer

namespace Bytecode

/-- The machine is in a region of the code, and has come there by the active calls: the innermost
leads to the region, the return address follows that call in the region of the caller, and so on
outwards. -/
inductive Confines (code : Bytecode) (procedures : List Procedure) (entry : Nat) :
    Nat × Nat → Machine → List Machine → Prop
  | top {m : Machine} (idle : m.calls = []) (inside : entry ≤ m.ip ∧ m.ip < code.size) :
      Confines code procedures entry (entry, code.size) m []
  | called {region : Nat × Nat} {caller m : Machine} {callers : List Machine}
      {procedure : Procedure}
      {stop back : Nat} (outer : Confines code procedures entry region caller callers)
      (known : procedure ∈ procedures)
      (call : code.decodeAt caller.ip = .ok (.call procedure.address, back))
      (returns : region.1 ≤ back ∧ back < region.2) (calls : m.calls = back :: caller.calls)
      (body : (procedure.address, stop) ∈ regions (starts procedures entry) code.size)
      (inside : procedure.address ≤ m.ip ∧ m.ip < stop) :
      Confines code procedures entry (procedure.address, stop) m (caller :: callers)

theorem region_mem {procedures before after : List Procedure} {procedure : Procedure}
    (split : procedures = before ++ procedure :: after) (entry stop : Nat) :
    (procedure.address, (after.map (·.address)).headD entry) ∈
      regions (starts procedures entry) stop := by
  subst split
  induction before with
  | nil => cases after <;> exact List.mem_cons_self
  | cons first before ih => cases before <;> exact List.mem_cons_of_mem _ ih

end Bytecode

namespace Layout

variable {σ : Type} {l : Layout} {hosts : HostTable (StateM σ)}

/-- Nothing but control is followed. -/
theorem keeps_trivial : Keeps hosts l fun _ _ _ => True := ⟨by simp, by simp, by simp⟩

/-- The machines of a run are in routines, except the first. -/
theorem passes_active {start m : Machine} {callers : List Machine} {w w' : σ}
    (passes : Machine.Passes hosts start w m callers w') (buffer : start.code = l.buffer)
    (zero : start.ip = 0) (idle : start.calls = []) : m.code = l.buffer ∧
      (m = start ∧ callers = [] ∧ w' = w ∨ ∃ r, l.Active (fun _ _ _ => True) r m callers) :=
  Active.passes keeps_trivial passes buffer zero idle fun _ _ _ => trivial

/-- The machines of a run are at instructions. -/
theorem passes_inside {claim : Claim} {start m : Machine} {callers : List Machine} {w w' : σ}
    (zero : start.ip = 0) (code : m.code = l.buffer)
    (known : m = start ∧ callers = [] ∧ w' = w ∨ ∃ r, l.Active claim r m callers) :
    m.ip < m.code.size := by
  rw [code]
  rcases known with ⟨rfl, -, -⟩ | ⟨r, active⟩
  · obtain ⟨next, decoded⟩ := l.entry
    have passed := Bytecode.decodeAt_onward decoded
    rw [zero]
    omega
  · obtain ⟨offset, i, -, -, -, decoded⟩ := active.fetch
    have passed := Bytecode.decodeAt_onward decoded
    omega

/-- When a run ends no call is active. -/
theorem run_idle {start : Machine} {w w' : σ} {fuel : Nat} {finished : Finished}
    (done : start.runFrom hosts fuel w = (some finished, w')) (buffer : start.code = l.buffer)
    (zero : start.ip = 0) (idle : start.calls = []) : finished.machine.calls = [] := by
  obtain ⟨count, last, w₁, reaches, ended⟩ := Machine.runFrom_finished done
  obtain ⟨callers, passes⟩ := Machine.Passes.start.reaches reaches
  obtain ⟨code, known⟩ := passes_active passes buffer zero idle
  cases Machine.turn_ends ended with
  | beyond outside => exact absurd (passes_inside zero code known) (Nat.not_lt.mpr outside)
  | halt decoded none => exact none
  | limit | undecodable | fault | mishap | host => rfl

end Layout

/-- The machines in routines of a unit are confined to its regions. -/
theorem Layout.Of.confines {allowed : Node → Prop} {c : Compiler} {top : Fragment} {l : Layout}
    (unit : Layout.Of allowed c top l) {claim : Layout.Claim} {r : Routine} {m : Machine}
    {callers : List Machine} (active : l.Active claim r m callers) :
    l.buffer.Confines c.procedures c.libraryEnd (r.base, r.base + r.code.size) m callers := by
  induction active with
  | top idle covers =>
    have inside := l.mainStands.covers_lt covers
    have stop := Compiler.size_assemble c top
    rw [← unit.buffer] at stop
    simp only [unit.main, ← stop] at inside ⊢
    exact .top idle inside
  | @called r s m callers p code back outer procedure call returns calls covers claimed ih =>
    have inside := (l.stands p code procedure).covers_lt covers
    rw [unit.holds] at procedure
    have known := Compiler.Holds.mem procedure
    obtain ⟨making, ⟨-, -, -, after, less, more, split, region⟩, rfl⟩ := procedure
    have body := Bytecode.region_mem split c.libraryEnd l.buffer.size
    rw [region.stop] at body
    exact .called ih known call (outer.member.stands.covers_lt returns) calls body inside

namespace Session

variable {σ : Type} {tables : HostTable (StateM σ) → Prop} {units : Program → Prop} {smooth : Bool}
  {s : Session (StateM σ)}

/-- The layout of a unit that compiles in a session. -/
theorem Driven.layout (driven : Driven tables units smooth s) (allowed : Node → Prop)
    (kinds : ∀ program, units program → Program.Defines allowed program) {program : Program}
    (kind : Program.Defines allowed program) {code : Bytecode} {after : Compiler}
    (compiled : s.compiler.compile program = .ok (code, after)) (short : code.size < 0x80000000) :
    ∃ top l, Yields (.statements program) s.compiler ⟨none, top⟩ after ∧
      Layout.Of allowed after top l ∧ l.buffer = code := by
  obtain ⟨top, derivation, rfl⟩ := Compiler.compile_ok compiled
  obtain ⟨l, unit⟩ := Compiler.exists_layout (driven.ready.compile compiled)
    (derivation.shelf driven.ready kind (driven.shelf kinds)) (derivation.sound driven.ready.tidy)
    short
  exact ⟨top, l, derivation, unit, unit.buffer⟩

/-- The code of a unit that compiles is accepted by the machine. -/
theorem Driven.loads (driven : Driven tables units smooth s) {program : Program} {code : Bytecode}
    {after : Compiler} (compiled : s.compiler.compile program = .ok (code, after))
    (short : code.size < 0x80000000) :
    s.machine.load code = .ok { s.machine with code, ip := 0 } :=
  driven.ready.loads compiled short s.machine

/-- A unit that is run in a session is refused by the compiler, or its code runs until it ends. -/
theorem Driven.run_cases (driven : Driven tables units smooth s) {program : Program}
    (short : ∀ code after, s.compiler.compile program = .ok (code, after) → code.size < 0x80000000)
    {hosts : HostTable (StateM σ)} {fuel : Nat} {error : Option SessionError}
    {s' : Session (StateM σ)}
    {w w' : σ} (done : { s with hosts }.run fuel program w = (some (error, s'), w')) :
    (∃ fault, s.compiler.compile program = .error fault ∧ error = some (.compile fault) ∧
        s' = { s with hosts } ∧ w' = w) ∨
      ∃ code after last problem, s.compiler.compile program = .ok (code, after) ∧
        (s.machine.started code).runFrom hosts fuel w = (some ⟨last, problem⟩, w') ∧
        error = problem.map .machine ∧
        s' =
          { s with
            compiler := if problem.isNone then after else s.compiler.forgetResult
            machine := last
            hosts
            last := some code
            checkpoint := none } := by
  cases run_outcome done with
  | refused failed => exact .inl ⟨_, failed, rfl, rfl, rfl⟩
  | unloaded compiled failed =>
    rw [show _ = _ from driven.loads compiled (short _ _ compiled)] at failed
    cases failed
  | finished compiled loads ran =>
    rw [show _ = _ from driven.loads compiled (short _ _ compiled)] at loads
    cases loads
    exact .inr ⟨_, _, _, none, compiled, ran, rfl, rfl⟩
  | failed compiled loads ran =>
    rw [show _ = _ from driven.loads compiled (short _ _ compiled)] at loads
    cases loads
    exact .inr ⟨_, _, _, some _, compiled, ran, rfl, rfl⟩

/-- Between two units no call is active. -/
theorem Driven.idle (driven : Driven tables units smooth s) : s.machine.calls = [] := by
  induction driven with
  | new given config => rfl
  | run before given kind short done ih =>
    rcases before.run_cases short done with
      ⟨fault, -, -, rfl, -⟩ | ⟨code, after, last, problem, compiled, ran, -, rfl⟩
    · exact ih
    · obtain ⟨top, l, -, -, buffer⟩ := before.layout (fun _ => True)
        (fun _ _ _ _ _ _ _ => trivial) (fun _ _ _ _ _ => trivial) compiled (short _ _ compiled)
      exact Layout.run_idle ran buffer.symm rfl ih

/-- Whatever units a session was given before, no call is active between two of them. When a unit is
run, with any hosts, the machine starts at the jump to the entry point, and from then on it is
confined to the regions of the code. -/
theorem Driven.runs_confined (driven : Driven tables units smooth s) : s.machine.calls = [] ∧
    ∀ program code after, s.compiler.compile program = .ok (code, after) → code.size < 0x80000000 →
      ∃ loaded, s.machine.load code = .ok loaded ∧
        ∀ (hosts : HostTable (StateM σ)) w m callers w',
          Machine.Passes hosts { loaded with steps := 0 } w m callers w' →
            m.ip = 0 ∧ m.calls = [] ∧ callers = [] ∨
              ∃ region, code.Confines after.procedures after.libraryEnd region m callers := by
  refine ⟨driven.idle, fun program code after compiled short => ?_⟩
  obtain ⟨top, l, -, unit, rfl⟩ := driven.layout (fun _ => True)
    (fun _ _ _ _ _ _ _ => trivial) (fun _ _ _ _ _ => trivial) compiled short
  refine ⟨_, driven.loads compiled short, fun hosts w m callers w' passes => ?_⟩
  have passes : Machine.Passes hosts (s.machine.started l.buffer) w m callers w' := passes
  obtain ⟨-, ⟨rfl, rfl, -⟩ | ⟨r, active⟩⟩ := Layout.passes_active passes rfl rfl driven.idle
  · exact .inl ⟨rfl, driven.idle, rfl⟩
  · exact .inr ⟨_, unit.confines active⟩

/-- A session that knows a recursive procedure with two ways to return, and in which a unit has
failed; the procedure is called out of an argument of its own call. -/
theorem runs_confined_recursion : ∃ (s : Session (StateM Nat)) (code : Bytecode) (after : Compiler),
    Driven (fun _ => True) (fun _ => True) false s ∧ s.machine.calls = [] ∧
      s.compiler.compile [.call "down" [.call "down" [.literal (.number .one)]]] =
        .ok (code, after) ∧
      code.size < 0x80000000 ∧ ∃ loaded, s.machine.load code = .ok loaded ∧
        ∀ (hosts : HostTable (StateM Nat)) w m callers w',
          Machine.Passes hosts { loaded with steps := 0 } w m callers w' →
            m.ip = 0 ∧ m.calls = [] ∧ callers = [] ∨
              ∃ region, code.Confines after.procedures after.libraryEnd region m callers := by
  let define : Program := [.define "down" [⟨"n", none⟩] none
    [.branch (.binary (.order .lessEq) (.var "n") (.literal (.number .zero)))
      [.giveBack (some (.var "n"))]
      (some [.giveBack (some (.call "down"
        [.binary (.arith .sub) (.var "n") (.literal (.number .one))]))])]]
  let fails : Program := [.convert (.literal (.string "x")) .number]
  let first : Session (StateM Nat) := .new {} {}
  let calls : Program := [.call "down" [.call "down" [.literal (.number .one)]]]
  obtain ⟨error, second, w, ran, seen⟩ := exists_of_run (s := first)
    (a := (false, true, some (true, true)))
    (fun (error, s) => (SessionError.onMachine error, s.accepts fails, (s.run 3 fails 0).1.map
      fun (error, s) => (SessionError.onMachine error, s.accepts calls)))
    (by decide +kernel : (first.run 3 define 0).1.map _ = _)
  simp only [Prod.mk.injEq] at seen
  obtain ⟨smooth, fits, rest⟩ := seen
  obtain ⟨error', third, w', ran', seen⟩ := exists_of_run (s := second) _ rest
  simp only [Prod.mk.injEq] at seen
  obtain ⟨rough, accepted⟩ := seen
  have begun : Driven (fun _ => True) (fun _ => True) true first := .new trivial {}
  have once := begun.again trivial (short_of_accepts (by decide +kernel)) ran
  have twice := once.again trivial (short_of_accepts fits) ran'
  rw [smooth, rough] at twice
  obtain ⟨code, after, compiled, short⟩ := exists_of_accepts accepted
  obtain ⟨idle, confined⟩ := twice.runs_confined
  exact ⟨third, code, after, twice, idle, compiled, short, confined calls code after compiled short⟩

end Session

end Primer
