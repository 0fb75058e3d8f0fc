import Primer.Proofs.Retention
import Primer.Proofs.Sessions

/-!
Which declarations a session keeps. Units are compiled and their code is executed, at once or later,
in any order and any number of times. A session can go back only to where it was before the last
unit that compiled, and only until some code has been executed: what a unit declares is withdrawn
when the next thing that happens is an execution that fails, whichever code is executed, and is kept
otherwise. As long as no unit is compiled while another waits, and code runs to its end only while
its unit waits or after it has done so before, these are the declarations of the units whose code
has run to its end.
-/

set_option autoImplicit false
set_option relaxedAutoImplicit false

namespace Primer

/-- A unit that was compiled: its code, and the compiler before and after it. -/
structure CompiledUnit where
  code : Bytecode
  before : Compiler
  after : Compiler

/-- One of the units has introduced a name, which a view of the compiler finds since then. -/
def Introduced {α : Type} (view : Compiler → String → Option α) (units : CompiledUnit → Prop)
    (name : String) (found : α) : Prop :=
  ∃ unit, units unit ∧ view unit.before name = none ∧ view unit.after name = some found

/-- The compiler knows exactly the variables and procedures that some units have introduced. -/
structure Compiler.Declares (c : Compiler) (units : CompiledUnit → Prop) : Prop where
  named : ∀ name found,
    c.scope.find? name = some found ↔ Introduced (fun c => c.scope.find?) units name found
  procedures : ∀ name found, c.procedure? name = some found ↔ Introduced procedure? units name found

/-- A unit that keeps what a view finds adds what it introduces. -/
theorem introduced_or {α : Type} (unit : CompiledUnit) (view : Compiler → String → Option α)
    {units : CompiledUnit → Prop} {name : String}
    (known : ∀ found, view unit.before name = some found ↔ Introduced view units name found)
    (kept : ∀ found, view unit.before name = some found → view unit.after name = some found)
    (found : α) : view unit.after name = some found ↔
      Introduced view (fun other => other = unit ∨ units other) name found := by
  constructor
  · intro here
    cases before : view unit.before name with
    | none => exact ⟨unit, .inl rfl, before, here⟩
    | some old =>
      have same : old = found := Option.some.inj ((kept old before).symm.trans here)
      obtain ⟨other, member, introduced⟩ := (known found).mp (same ▸ before)
      exact ⟨other, .inr member, introduced⟩
  · rintro ⟨other, rfl | member, introduced⟩
    · exact introduced.2
    · exact kept found ((known found).mpr ⟨other, member, introduced⟩)

namespace Compiler

variable {c c' : Compiler} {units others : CompiledUnit → Prop}

theorem Declares.congr (declares : c.Declares units) (same : ∀ unit, units unit ↔ others unit) :
    c.Declares others := by
  rwa [show others = units from funext fun unit => propext (same unit).symm]

theorem declares_new (hosts : List (String × Signature)) : (new hosts).Declares fun _ => False :=
  ⟨fun _ _ => ⟨nofun, fun ⟨_, absurd, _⟩ => absurd.elim⟩,
    fun _ _ => ⟨nofun, fun ⟨_, absurd, _⟩ => absurd.elim⟩⟩

theorem Declares.forgetResult (declares : c.Declares units) : c.forgetResult.Declares units :=
  ⟨declares.named, declares.procedures⟩

/-- A variable that is known stays known. -/
theorem Grows.variable? (grows : c.Grows c') (proper : c'.scope.Proper) {name : String}
    {found : Variable} (known : c.scope.find? name = some found) :
    c'.scope.find? name = some found := by
  obtain ⟨new, bindings, -⟩ := grows.bindings
  refine proper.find? ?_
  rw [bindings]
  exact List.mem_append_right new (Scope.mem_of_find? known)

/-- A unit that compiles adds what it introduces. -/
theorem Declares.compile (declares : c.Declares units) (ready : c.Ready) {program : Program}
    {code : Bytecode} (done : c.compile program = .ok (code, c')) :
    c'.Declares fun unit => unit = ⟨code, c, c'⟩ ∨ units unit := by
  obtain ⟨top, derivation, -⟩ := compile_ok done
  have grows := derivation.grows ready.tidy
  have proper := (ready.compile done).proper
  exact ⟨fun name => introduced_or ⟨code, c, c'⟩ (fun c => c.scope.find?) (declares.named name)
      fun _ => grows.variable? proper,
    fun name => introduced_or ⟨code, c, c'⟩ procedure? (declares.procedures name)
      fun _ => grows.procedure?⟩

end Compiler

namespace Session

/-- What happens to a session. -/
inductive Event where
  | compiled (unit : CompiledUnit)
  | executed (unit : CompiledUnit) (completed : Bool)

/-- What has happened to a session, last first. -/
abbrev Log := List Event

namespace Log

/-- The unit that was compiled last, if nothing has been executed since. -/
def waiting? : Log → Option CompiledUnit
  | .compiled unit :: _ => some unit
  | _ => none

/-- The units whose declarations are kept: an execution that fails withdraws the unit that waits. -/
def kept : Log → List CompiledUnit
  | [] => []
  | .compiled unit :: log => unit :: kept log
  | .executed _ false :: .compiled _ :: log => kept log
  | .executed _ _ :: log => kept log

/-- The code of the unit has run to its end. -/
def Completed (log : Log) (unit : CompiledUnit) : Prop := .executed unit true ∈ log

/-- No unit is compiled while another waits, and code runs to its end only while its unit waits, or
while none waits and it has done so before. -/
def Orderly : Log → Prop
  | [] => True
  | .compiled _ :: log => waiting? log = none ∧ Orderly log
  | .executed unit completed :: log =>
    (completed → waiting? log = some unit ∨ waiting? log = none ∧ Completed log unit) ∧ Orderly log

theorem kept_executed (unit : CompiledUnit) (completed : Bool) {log : Log}
    (idle : waiting? log = none) : kept (.executed unit completed :: log) = kept log := by
  cases completed with
  | true => rfl
  | false =>
    cases log with
    | nil => rfl
    | cons event log =>
      cases event with
      | compiled => cases idle
      | executed => rfl

-- The recursion is that of `kept`: a unit that is withdrawn goes together with what withdraws it.
theorem mem_kept_iff {log : Log} (orderly : Orderly log) (unit : CompiledUnit) :
    unit ∈ kept log ↔ Completed log unit ∨ waiting? log = some unit := by
  fun_induction kept log with
  | case1 => simp [Completed, waiting?]
  | case2 other log ih =>
    obtain ⟨idle, before⟩ := orderly
    have inner := ih before
    rw [idle] at inner
    simp only [Completed, waiting?, List.mem_cons] at inner ⊢
    grind
  | case3 other waiting log ih =>
    obtain ⟨-, idle, before⟩ := orderly
    have inner := ih before
    rw [idle] at inner
    simp only [Completed, waiting?, List.mem_cons] at inner ⊢
    grind
  | case4 other completed log rest ih =>
    obtain ⟨due, before⟩ := orderly
    have inner := ih before
    cases completed with
    | true =>
      simp only [Completed, waiting?, List.mem_cons] at inner due ⊢
      grind
    | false =>
      have idle : waiting? log = none := by
        fun_cases waiting? log with
        | case1 unit log => exact (rest unit log rfl rfl).elim
        | case2 => rfl
      rw [idle] at inner
      simp only [Completed, waiting?, List.mem_cons] at inner ⊢
      grind

end Log

variable {σ : Type}

theorem compile_ok {s s' : Session (StateM σ)} {program : Program} {code : Bytecode}
    (done : s.compile program = .ok (code, s')) :
    s.compiler.compile program = .ok (code, s'.compiler) ∧ s'.checkpoint = some s.compiler := by
  unfold compile at done
  cases compiled : s.compiler.compile program with
  | error fault => rw [compiled] at done; cases done
  | ok found => rw [compiled] at done; cases done; exact ⟨rfl, rfl⟩

/-- Code that is executed settles the session, loaded or not. -/
theorem execute_settles {s s' : Session (StateM σ)} {fuel : Nat} {code : Bytecode}
    {error : Option MachineError} {w w' : σ}
    (done : s.execute fuel code w = (some (error, s'), w')) :
    ∃ finished, finished.error = error ∧ s' = s.settle finished := by
  unfold execute at done
  cases loads : s.machine.load code with
  | error fault =>
    rw [loads] at done
    cases done
    exact ⟨_, rfl, rfl⟩
  | ok loaded =>
    rw [loads] at done
    simp only [bind, StateT.bind] at done
    rcases ran : loaded.run s.hosts fuel w with ⟨ended, w₁⟩
    rw [ran] at done
    cases ended with
    | none => cases done
    | some finished => cases done; exact ⟨finished, rfl, rfl⟩

/-- What a unit that is compiled and executed at once adds to a log. -/
def entries (s : Session (StateM σ)) (program : Program) (error : Option SessionError) : Log :=
  match s.compile program with
  | .error _ => []
  | .ok (code, next) =>
    [.executed ⟨code, s.compiler, next.compiler⟩ error.isNone,
      .compiled ⟨code, s.compiler, next.compiler⟩]

/-- A unit that is run does not compile, or is compiled and then settles the session. -/
theorem run_settles {s s' : Session (StateM σ)} {fuel : Nat} {program : Program}
    {error : Option SessionError} {w w' : σ}
    (done : s.run fuel program w = (some (error, s'), w')) :
    s.entries program error = [] ∧ s' = s ∨
      ∃ code next finished, s.compile program = .ok (code, next) ∧ s' = next.settle finished ∧
        s.entries program error =
          [.executed ⟨code, s.compiler, next.compiler⟩ finished.error.isNone,
          .compiled ⟨code, s.compiler, next.compiler⟩] := by
  unfold run at done
  unfold entries
  cases compiled : s.compile program with
  | error fault =>
    rw [compiled] at done
    cases done
    exact .inl ⟨rfl, rfl⟩
  | ok found =>
    obtain ⟨code, next⟩ := found
    rw [compiled] at done
    simp only [bind, StateT.bind] at done
    rcases executed : next.execute fuel code w with ⟨ended, w₁⟩
    rw [executed] at done
    cases ended with
    | none => cases done
    | some ended =>
      cases done
      obtain ⟨finished, same, settled⟩ := execute_settles executed
      refine .inr ⟨code, next, finished, rfl, settled, ?_⟩
      simp [same]

/-- Sessions that come from a new one by what a log says. Only code of the session is executed, with
any procedures of the host. -/
inductive Recorded : Log → Session (StateM σ) → Prop
  | new (hosts : HostTable (StateM σ)) (config : Config) : Recorded [] (.new hosts config)
  | compile {log : Log} {s s' : Session (StateM σ)} {program : Program} {code : Bytecode}
      (before : Recorded log s) (done : s.compile program = .ok (code, s')) :
      Recorded (.compiled ⟨code, s.compiler, s'.compiler⟩ :: log) s'
  | execute {log : Log} {s s' : Session (StateM σ)} {hosts : HostTable (StateM σ)}
      {unit : CompiledUnit} {fuel : Nat} {error : Option MachineError} {w w' : σ}
      (before : Recorded log s) (given : .compiled unit ∈ log)
      (done : { s with hosts }.execute fuel unit.code w = (some (error, s'), w')) :
      Recorded (.executed unit error.isNone :: log) s'
  | run {log : Log} {s s' : Session (StateM σ)} {hosts : HostTable (StateM σ)} {program : Program}
      {fuel : Nat} {error : Option SessionError} {w w' : σ}
      (before : Recorded log s)
      (done : { s with hosts }.run fuel program w = (some (error, s'), w')) :
      Recorded ({ s with hosts }.entries program error ++ log) s'

/-- The next unit, if it compiles, with the procedures that the host has. -/
theorem Recorded.again {log : Log} {s s' : Session (StateM σ)} {program : Program} {fuel : Nat}
    {error : Option SessionError} {w w' : σ} (recorded : Recorded log s)
    (compiles : (s.compile program).isOk = true)
    (done : s.run fuel program w = (some (error, s'), w')) :
    ∃ unit, Recorded (.executed unit error.isNone :: .compiled unit :: log) s' := by
  have further : Recorded (s.entries program error ++ log) s' := recorded.run done
  unfold entries at further
  cases compiled : s.compile program with
  | error fault => rw [compiled] at compiles; cases compiles
  | ok found => rw [compiled] at further; exact ⟨_, further⟩

/-- The compiler of a session, and the one it can go back to, know what the units declare that are
kept. -/
structure Accounted (log : Log) (s : Session (StateM σ)) : Prop where
  ready : s.compiler.Ready
  declares : s.compiler.Declares (· ∈ log.kept)
  idle : s.checkpoint = none → log.waiting? = none
  waits : ∀ c, s.checkpoint = some c →
    c.Ready ∧ ∃ unit rest, log = .compiled unit :: rest ∧ c.Declares (· ∈ Log.kept rest)

namespace Accounted

variable {log : Log} {s s' : Session (StateM σ)}

/-- No unit waits. -/
theorem of_idle (ready : s.compiler.Ready) (declares : s.compiler.Declares (· ∈ log.kept))
    (idle : log.waiting? = none) (checkpoint : s.checkpoint = none) : Accounted log s := by
  refine ⟨ready, declares, fun _ => idle, fun c same => ?_⟩
  rw [checkpoint] at same
  cases same

theorem of_new (hosts : HostTable (StateM σ)) (config : Config) :
    Accounted [] (.new hosts config) := by
  refine of_idle (Compiler.ready_new _) ?_ rfl rfl
  exact (Compiler.declares_new _).congr fun _ => by simp [Log.kept]

theorem compile (accounted : Accounted log s) {program : Program} {code : Bytecode}
    (done : s.compile program = .ok (code, s')) :
    Accounted (.compiled ⟨code, s.compiler, s'.compiler⟩ :: log) s' := by
  obtain ⟨compiled, checkpoint⟩ := compile_ok done
  refine ⟨accounted.ready.compile compiled, ?_, ?_, ?_⟩
  · exact (accounted.declares.compile accounted.ready compiled).congr fun _ => List.mem_cons.symm
  · intro none
    rw [checkpoint] at none
    cases none
  · intro c same
    rw [checkpoint] at same
    cases same
    exact ⟨accounted.ready, _, _, rfl, accounted.declares⟩

theorem withHosts (accounted : Accounted log s) (hosts : HostTable (StateM σ)) :
    Accounted log { s with hosts } :=
  ⟨accounted.ready, accounted.declares, accounted.idle, accounted.waits⟩

/-- Where a session goes back to when an execution fails. -/
theorem back (accounted : Accounted log s) (unit : CompiledUnit) :
    (s.checkpoint.getD s.compiler).Ready ∧
      (s.checkpoint.getD s.compiler).Declares (· ∈ Log.kept (.executed unit false :: log)) := by
  cases checkpoint : s.checkpoint with
  | none =>
    rw [Log.kept_executed unit false (accounted.idle checkpoint)]
    exact ⟨accounted.ready, accounted.declares⟩
  | some c =>
    obtain ⟨ready, waiting, rest, rfl, declares⟩ := accounted.waits c checkpoint
    exact ⟨ready, declares⟩

theorem settle (accounted : Accounted log s) (unit : CompiledUnit) (finished : Finished) :
    Accounted (.executed unit finished.error.isNone :: log) (s.settle finished) := by
  obtain ⟨machine, error⟩ := finished
  cases error with
  | none => exact of_idle accounted.ready accounted.declares rfl rfl
  | some error =>
    obtain ⟨ready, declares⟩ := accounted.back unit
    exact of_idle ready.forgetResult declares.forgetResult rfl rfl

theorem run (accounted : Accounted log s) {program : Program} {fuel : Nat}
    {error : Option SessionError} {w w' : σ}
    (done : s.run fuel program w = (some (error, s'), w')) :
    Accounted (s.entries program error ++ log) s' := by
  obtain ⟨nothing, rfl⟩ | ⟨code, next, finished, compiled, rfl, both⟩ := run_settles done
  · rwa [nothing]
  · rw [both]
    exact (accounted.compile compiled).settle _ finished

end Accounted

theorem Recorded.accounted {log : Log} {s : Session (StateM σ)} (recorded : Recorded log s) :
    Accounted log s := by
  induction recorded with
  | new hosts config => exact .of_new hosts config
  | compile before done ih => exact ih.compile done
  | @execute log s s' hosts unit fuel error w w' before given done ih =>
    obtain ⟨finished, rfl, rfl⟩ := execute_settles done
    exact (ih.withHosts hosts).settle unit finished
  | @run log s s' hosts program fuel error w w' before done ih =>
    exact (ih.withHosts hosts).run done

/-- After code has been executed, the session knows the variables and procedures of the units that
are kept. If all was in order, these are the units whose code has run to its end. -/
theorem Recorded.declares_kept {unit : CompiledUnit} {completed : Bool} {log : Log}
    {s : Session (StateM σ)} (recorded : Recorded (.executed unit completed :: log) s) :
    s.compiler.Declares (· ∈ Log.kept (.executed unit completed :: log)) ∧
      (Log.Orderly (.executed unit completed :: log) →
        s.compiler.Declares (Log.Completed (.executed unit completed :: log))) := by
  have declares := recorded.accounted.declares
  refine ⟨declares, fun orderly => declares.congr fun other => ?_⟩
  rw [Log.mem_kept_iff orderly]
  simp [Log.waiting?]

/-- A unit that fails is withdrawn, with a variable of its own, after one that has run to its end. A
variable stays that was declared by a unit which was never executed, as the next one fails. -/
theorem Recorded.declares_kept_overtaken :
    (∃ (s : Session (StateM Nat)) (first second : CompiledUnit) (log : Log),
      log = [.executed second false, .compiled second, .executed first true, .compiled first] ∧
      Recorded log s ∧ log.Orderly ∧ s.compiler.Declares log.Completed ∧
      (s.compiler.scope.find? "x").isSome ∧ (s.compiler.procedure? "p").isSome ∧
      (s.compiler.scope.find? "y").isSome = false) ∧
    ∃ (s : Session (StateM Nat)) (first second : CompiledUnit) (log : Log),
      log = [.executed second false, .compiled second, .compiled first] ∧
      Recorded log s ∧ s.compiler.Declares (· ∈ [first]) ∧ (s.compiler.scope.find? "x").isSome ∧
      ∀ unit, ¬ log.Completed unit := by
  let start : Session (StateM Nat) := .new {} {}
  let x : Node := .declare "x" none (some (.literal (.number .one)))
  let y : Node := .declare "y" none (some (.literal (.number .one)))
  let p : Node := .define "p" [] none []
  let fail : Node := .convert (.literal (.string "a")) .number
  let look (ended : Option SessionError × Session (StateM Nat)) : List Bool :=
    [ended.1.isNone, (ended.2.compiler.scope.find? "x").isSome,
      (ended.2.compiler.procedure? "p").isSome, (ended.2.compiler.scope.find? "y").isSome]
  have begun : Recorded [] start := .new {} {}
  constructor
  · obtain ⟨error, s, w, ran, seen⟩ := exists_of_run (s := start)
      (a := (true, true, some [false, true, true, false]))
      (fun ended => (ended.1.isNone, (ended.2.compile [y, fail]).isOk,
        (ended.2.run 30 [y, fail] 0).1.map look))
      (by decide +kernel : (start.run 30 [x, p] 0).1.map _ = _)
    simp only [Prod.mk.injEq] at seen
    obtain ⟨completed, compiles, later⟩ := seen
    obtain ⟨error', s', w', ran', seen⟩ := exists_of_run (s := s) _ later
    simp only [look, List.cons.injEq] at seen
    obtain ⟨failed, hasX, hasP, noY, -⟩ := seen
    obtain ⟨first, recorded⟩ := begun.again (by decide +kernel) ran
    obtain ⟨second, recorded⟩ := recorded.again compiles ran'
    rw [completed, failed] at recorded
    have orderly : Log.Orderly [.executed second false, .compiled second, .executed first true,
        .compiled first] := by
      simp [Log.Orderly, Log.waiting?]
    exact ⟨s', first, second, _, rfl, recorded, orderly, recorded.declares_kept.2 orderly,
      hasX, hasP, noY⟩
  · have known : (start.compile [x]).toOption.bind (fun found => (found.2.run 30 [fail] 0).1.map
        fun ended => (look ended, (found.2.compile [fail]).isOk)) =
        some ([false, true, false, false], true) := by
      decide +kernel
    cases compiled : start.compile [x] with
    | error fault => simp [compiled, Except.toOption] at known
    | ok found =>
      simp only [compiled, Except.toOption, Option.bind_some] at known
      obtain ⟨error, s, w, ran, seen⟩ := exists_of_run (s := found.2) _ known
      simp only [look, Prod.mk.injEq, List.cons.injEq] at seen
      obtain ⟨⟨failed, hasX, -⟩, compiles⟩ := seen
      obtain ⟨second, recorded⟩ := (begun.compile compiled).again compiles ran
      rw [failed] at recorded
      exact ⟨s, _, second, _, rfl, recorded, recorded.declares_kept.1,
        hasX, by simp [Log.Completed]⟩

end Session

end Primer
