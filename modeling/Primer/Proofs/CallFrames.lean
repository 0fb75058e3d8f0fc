import Primer.Proofs.Compilation.Lending
import Primer.Proofs.ControlFlow
import Primer.Proofs.Execution.Agreement

/-!
What a call leaves alone. When a procedure returns, a slot holds what it held at the call unless the
code of some procedure that was run in between changes it. For a slot of the calling code there are
two ways that this can be: a variable is assigned by its name, or the slot was free when that
procedure was defined, served a variable or a loop of its body, and was given back when the
definition ended.
-/

set_option autoImplicit false
set_option relaxedAutoImplicit false

namespace Primer

/-- A call of the first procedure may come to run the second. -/
inductive Runs (holds : Procedure → Fragment → Prop) (p : Procedure) : Procedure → Prop
  | itself : Runs holds p p
  | calls {q r : Procedure} {code body : Fragment} (before : Runs holds p q) (held : holds q code)
      (call : Instruction.call r.address ∈ code) (known : holds r body) : Runs holds p r

theorem Runs.trans {holds : Procedure → Fragment → Prop} {p q r : Procedure}
    (one : Runs holds p q) (two : Runs holds q r) : Runs holds p r := by
  induction two with
  | itself => exact one
  | calls _ held call known ih => exact ih.calls held call known

/-- Whatever a call of the procedure runs, the slot is not changed. -/
def Spared (holds : Procedure → Fragment → Prop) (p : Procedure) (slot : UInt8) : Prop :=
  ∀ q code, Runs holds p q → holds q code → ∀ i ∈ code, i.changes? ≠ some slot

/-- An instruction leaves the slots alone that it does not change. -/
theorem Machine.Carried.get? {i : Instruction} {before after : Machine} {slot : UInt8}
    (carried : Carried i before after) (spares : i.changes? ≠ some slot) :
    after.locals.get? slot = before.locals.get? slot := by
  rcases carried.locals with same | ⟨other, value, rfl, stored⟩ | ⟨other, rfl, freed⟩
  · rw [same]
  · have differs : slot ≠ other := fun same => spares (congrArg some same.symm)
    rw [stored, Locals.get?_set_ne _ _ _ differs]
  · have differs : slot ≠ other := fun same => spares (congrArg some same.symm)
    rw [freed, Locals.get?_free_ne _ _ differs]

namespace Layout

variable {σ : Type} {hosts : HostTable (StateM σ)} {l : Layout}

theorem At.get? {r : Routine} {offset : Nat} {i : Instruction} {m next : Machine} {slot : UInt8}
    (place : At hosts l r offset i m next) (spares : i.changes? ≠ some slot) :
    next.locals.get? slot = m.locals.get? slot := by
  obtain ⟨w, w', turns⟩ := place.turns
  obtain ⟨j, behind, read, carried⟩ := Machine.turn_carried turns
  rw [place.decoded] at read
  cases read
  exact carried.get? (by rwa [Instruction.changes?_shift])

/-- A slot that the called procedure spares holds what it held at the innermost call. -/
def Framed (l : Layout) : Claim := fun r callers m =>
  ∀ caller outer, callers = caller :: outer → ∀ p code, l.holds p code → r = ⟨p.address, code⟩ →
    ∀ slot, Spared l.holds p slot → m.locals.get? slot = caller.locals.get? slot

theorem keeps_framed : Keeps hosts l l.Framed := by
  refine ⟨?_, ?_, ?_⟩
  · intro r offset i m next callers after place stays ip goes framed caller outer split p code held
      same slot spared
    have member : i ∈ code := by
      have found := Fragment.mem_of_at? place.found
      rwa [same] at found
    rw [place.get? (spared p code .itself held i member)]
    exact framed caller outer split p code held same slot spared
  · rintro r offset m next callers p code place - - _ _ ⟨⟩ q body held same slot spared
    exact place.get? nofun
  · intro r offset s callers p code offset' m next member here found held framed place ip inner
      caller outer split q body calling same slot spared
    have call : Instruction.call p.address ∈ body := by
      have found := Fragment.mem_of_at? found
      rwa [same] at found
    have inside : Spared l.holds p slot := fun r code' runs =>
      spared r code' ((Runs.itself.calls calling call held).trans runs)
    calc next.locals.get? slot
      _ = m.locals.get? slot := place.get? nofun
      _ = s.locals.get? slot := inner s callers rfl p code held rfl slot inside
      _ = caller.locals.get? slot := framed caller outer split q body calling same slot spared

end Layout

/-- The code of the procedure changes the slot, which is neither a parameter's nor the result's:
either a variable from before the definition is assigned by its name, or the slot was free before
it. -/
def Making.Disturbs (m : Making) (slot : UInt8) : Prop :=
  (∃ i ∈ m.code, i.changes? = some slot) ∧ slot ∉ m.draft.slots ∧
    (m.Assigns slot ∨ slot ∉ m.before.owned)

/-- A place in the source where a procedure is called, and the state of the compiler there. -/
def Task.CallsAt (task : Task) (start : Compiler) (p : Procedure) (c : Compiler) : Prop :=
  ∃ offset name args want callee, Occurs task start offset (.node (.call name args) want) c ∧
    Callee.Found c name callee ∧ callee.instruction = .call p.address

theorem Task.Makes.callsAt {task : Task} {start : Compiler} {p : Procedure}
    (makes : task.Makes start (.call p.address)) : ∃ c, task.CallsAt start p c := by
  obtain ⟨offset, inner, c, occurs, emits⟩ := makes
  generalize called : Instruction.call p.address = i at emits
  cases emits with
  | other _ stays => rw [← called] at stays; cases stays
  | call found => exact ⟨c, offset, _, _, _, _, occurs, (Compile.find_ok found).1, called.symm⟩
  | _ => cases called

namespace Compiler

variable {c : Compiler} {slot : UInt8}

/-- The slot belongs to a variable or parameter that is visible, or to a loop that is open. -/
def Sees (c : Compiler) (slot : UInt8) : Prop :=
  (∃ name, c.slot? name = some slot) ∨ slot ∈ c.scope.scratch.map (·.1)

/-- What is visible shares no slot with the procedures that are known. -/
theorem Sees.apart (sees : c.Sees slot) {others : List UInt8}
    (accounts : c.slots.Accounts (others ++ c.owned)) {q : Procedure} (known : q ∈ c.procedures) :
    slot ∉ q.slots := by
  intro own
  have own : slot ∈ c.procedures.flatMap Procedure.slots := List.mem_flatMap.mpr ⟨q, known, own⟩
  have distinct := (List.nodup_append.mp (List.nodup_append.mp accounts.distinct).1).2.1
  obtain ⟨-, procedures, scope⟩ := List.nodup_append.mp distinct
  have inScope (member : slot ∈ c.scope.slots) : False :=
    scope slot member slot (List.mem_append_right _ own) rfl
  rcases sees with ⟨name, visible⟩ | loop
  · rcases slot?_cases visible with ⟨draft, inside, param⟩ | ⟨found, isVariable, rfl⟩
    · rw [procedureSlots, inside] at procedures
      exact (List.nodup_append.mp procedures).2.2 slot param slot own rfl
    · exact inScope (Scope.mem_slots isVariable)
  · exact inScope (List.mem_append_right _ loop)

variable {allowed : Node → Prop}

/-- The code of a procedure calls it or procedures from before it. -/
theorem Makes.calls {q r : Procedure} {m : Making} (library : Library c.procedures c.library)
    (makes : c.Makes allowed q m) (known : r ∈ c.procedures)
    (call : Instruction.call r.address ∈ m.code) : r ∈ m.before.procedures ++ [q] := by
  obtain ⟨after, less, more, split, -⟩ := makes.region
  obtain ⟨other, member, same⟩ := (m.sound.uses _ (Fragment.mem_plain.mpr ⟨call, rfl⟩)).2 _ rfl
  rw [makes.finished] at member
  have listed : other ∈ c.procedures := by
    rw [split, List.append_cons]
    exact List.mem_append_left _ member
  exact library.address_inj listed known same ▸ member

/-- All that a call runs is known where the called procedure is known. -/
theorem runs_known {p q : Procedure} {known : List Procedure}
    (library : Library c.procedures c.library) (early : known <+: c.procedures) (member : p ∈ known)
    (runs : Runs (c.Holds allowed) p q) : q ∈ known := by
  induction runs with
  | itself => exact member
  | @calls q r code body before held call knows ih =>
    obtain ⟨m, makes, rfl⟩ := held
    have called := makes.calls library knows.mem call
    obtain ⟨after, less, more, split, -⟩ := makes.region
    have upTo : m.before.procedures ++ [q] <+: c.procedures := ⟨after, by simp [split]⟩
    rcases List.prefix_or_prefix_of_prefix upTo early with shorter | longer
    · exact shorter.subset called
    · rcases List.prefix_concat_iff.mp longer with same | before
      · rwa [same]
      · have apart := library.nodup
        rw [split, List.nodup_append] at apart
        exact absurd rfl (apart.2.2 q (before.subset ih) q List.mem_cons_self)

end Compiler

/-- The source of the code that is executed while some calls are active: the unit, or the body of
the procedure that was called last. -/
inductive Calling (program : Program) (before after : Compiler) (code : Bytecode) :
    List Machine → Task → Compiler → Prop
  | unit : Calling program before after code [] (.statements program) before
  | body {caller : Machine} {outer : List Machine} {back : Nat} {p : Procedure} {m : Making}
      (call : code.decodeAt caller.ip = .ok (.call p.address, back))
      (makes : after.Makes (fun _ => True) p m) :
      Calling program before after code (caller :: outer) (.block m.body) m.started

namespace Calling

variable {program : Program} {before after c start : Compiler} {code : Bytecode}
  {outer : List Machine} {task : Task} {p : Procedure} {x : Compiled}

/-- Where a procedure is called its slots are accounted for, and it is known, unless it is the one
whose body calls it. -/
theorem site (calling : Calling program before after code outer task start)
    (derivation : Yields (.statements program) before x after) (ready : before.Ready)
    (known : p ∈ after.procedures) (calls : task.CallsAt start p c) :
    (∃ others, c.slots.Accounts (others ++ c.owned)) ∧ c.procedures <+: after.procedures ∧
      (p ∈ c.procedures ∨ ∃ caller rest back, outer = caller :: rest ∧
        code.decodeAt caller.ip = .ok (.call p.address, back)) := by
  obtain ⟨offset, name, args, want, callee, occurs, found, same⟩ := calls
  have library := (ready.yields derivation).library
  have listed (q : Procedure) (member : q ∈ c.procedures)
      (early : c.procedures <+: after.procedures)
      (address : q.address = p.address) : p ∈ c.procedures :=
    library.address_inj (early.subset member) known address ▸ member
  cases calling with
  | unit =>
    have since : before.Since before [] := .refl ready.tidy ready.accounts ready.outside
    obtain ⟨others, since'⟩ := occurs.since since
    have precedes := occurs.precedes derivation since
    refine ⟨⟨others, since'.accounts⟩, precedes.procedures, .inl ?_⟩
    cases callee with
    | drafted draft =>
      have kept := precedes.draft
      rw [found.1, (ready.yields derivation).outside] at kept
      exact kept.elim
    | defined q =>
      exact listed q (List.mem_of_find?_eq_some found.2) precedes.procedures
        (Instruction.call.inj same)
    | host name signature => cases same
  | @body caller rest back q m call makes =>
    obtain ⟨others, since⟩ := occurs.since m.since
    have precedes := occurs.precedes m.compiles m.since
    obtain ⟨later, less, more, split, -⟩ := makes.region
    have early : c.procedures <+: after.procedures :=
      precedes.procedures.trans (by rw [m.procedures, split]; exact List.prefix_append _ _)
    refine ⟨⟨others, since.accounts⟩, early, ?_⟩
    cases callee with
    | drafted draft =>
      have kept := precedes.draft
      rw [found.1, m.drafted] at kept
      have address : q.address = p.address := by
        rw [← makes.finished, ← Instruction.call.inj same]
        exact Draft.Continues.address kept
      exact .inr ⟨caller, rest, back, rfl, address ▸ call⟩
    | defined q =>
      exact .inl (listed q (List.mem_of_find?_eq_some found.2) early (Instruction.call.inj same))
    | host name signature => cases same

end Calling

namespace Layout.Of

variable {σ : Type} {program : Program} {before after : Compiler} {top : Fragment} {l : Layout}
  {claim : Layout.Claim} {r : Routine} {caller : Machine} {outer : List Machine} {p : Procedure}

/-- A call that is executed has its place in the source of the code that is executed. -/
theorem exists_site (unit : Layout.Of (fun _ => True) after top l)
    (derivation : Yields (.statements program) before ⟨none, top⟩ after)
    (active : l.Active claim r caller outer) (call : Instruction.call p.address ∈ r.code) :
    ∃ task start c, Calling program before after l.buffer outer task start ∧
      task.CallsAt start p c := by
  cases active with
  | top =>
    rw [unit.main] at call
    have call : Instruction.call p.address ∈ top := by simpa using call
    obtain ⟨c, site⟩ := (derivation.makes _ (Fragment.mem_plain.mpr ⟨call, rfl⟩)).callsAt
    exact ⟨_, _, c, .unit, site⟩
  | called _ procedure call' =>
    rw [unit.holds] at procedure
    obtain ⟨m, makes, rfl⟩ := procedure
    rcases m.mem_code call rfl with ⟨_, -, isStore⟩ | made | isRet
    · cases isStore
    · obtain ⟨c, site⟩ := made.callsAt
      exact ⟨_, _, c, .body call' makes, site⟩
    · cases isRet

end Layout.Of

namespace Bytecode

variable {code : Bytecode} {offset address : Nat}

/-- A call of the address is read at the offset. -/
def readsCall (code : Bytecode) (offset address : Nat) : Bool :=
  (code.decodeAt offset).toOption.any fun read =>
    read.1.isCall && read.1.target? == some address

/-- A return is read at the offset. -/
def readsRet (code : Bytecode) (offset : Nat) : Bool :=
  (code.decodeAt offset).toOption.any fun read => !read.1.goesOn && read.1.jump?.isNone

theorem exists_of_readsCall (reads : code.readsCall offset address = true) :
    ∃ behind, code.decodeAt offset = .ok (.call address, behind) := by
  obtain ⟨⟨i, behind⟩, decoded, same⟩ := (Option.any_eq_true _ _).mp reads
  rw [Bool.and_eq_true, beq_iff_eq] at same
  obtain rfl : i = .call address := Instruction.eq_call same.1 same.2
  exact ⟨behind, Session.eq_ok_of_toOption decoded⟩

theorem exists_of_readsRet (reads : code.readsRet offset = true) :
    ∃ behind, code.decodeAt offset = .ok (.ret, behind) := by
  obtain ⟨⟨i, behind⟩, decoded, same⟩ := (Option.any_eq_true _ _).mp reads
  rw [Bool.and_eq_true, Bool.not_eq_true', Option.isNone_iff_eq_none] at same
  obtain rfl : i = .ret := Instruction.eq_ret same.1 same.2
  exact ⟨behind, Session.eq_ok_of_toOption decoded⟩

end Bytecode

theorem Machine.turn_of_getLeft? {σ : Type} {hosts : HostTable (StateM σ)} {m next : Machine}
    {w : σ} (turned : (m.turn hosts w).1.getLeft? = some next) :
    m.turn hosts w = (.inl next, (m.turn hosts w).2) :=
  Prod.ext (Sum.getLeft?_eq_some_iff.mp turned) rfl

namespace Session

variable {σ : Type} {tables : HostTable (StateM σ) → Prop} {units : Program → Prop} {smooth : Bool}
  {s : Session (StateM σ)}

/-- A unit compiles, and something is seen of the machine that its run has come to. -/
theorem exists_of_passed {α : Type} {program : Program} {w : σ} {count : Nat}
    (view : Bytecode → Compiler → Machine → List Machine → σ → α) {a : α}
    (seen : (s.compiler.compile program).toOption.bind (fun (code, after) =>
      (Machine.passed? s.hosts (s.machine.started code) w count).map fun (m, callers, w') =>
        view code after m callers w') = some a) :
    ∃ code after m callers w', s.compiler.compile program = .ok (code, after) ∧
      Machine.Passes s.hosts (s.machine.started code) w m callers w' ∧
      view code after m callers w' = a := by
  obtain ⟨⟨code, after⟩, found, rest⟩ := Option.bind_eq_some_iff.mp seen
  obtain ⟨⟨m, callers, w'⟩, passed, same⟩ := Option.map_eq_some_iff.mp rest
  exact ⟨code, after, m, callers, w', eq_ok_of_toOption found, Machine.passes_of_passed? passed,
    same⟩

/-- Whatever units a session was given before: when a call that a unit makes has returned, with any
hosts, it was the call of a procedure. If the procedure does not call itself, the calling code has a
place where it is called, and every slot that the calling code sees there holds what it held at the
call, unless some procedure that the call can run disturbs it. -/
theorem Driven.calls_framed (driven : Driven tables units smooth s) {program : Program}
    {code : Bytecode} {after : Compiler}
    (compiled : s.compiler.compile program = .ok (code, after)) (short : code.size < 0x80000000)
    {hosts : HostTable (StateM σ)} {w w' w'' : σ} {m caller next : Machine} {outer : List Machine}
    {behind : Nat} (passes : Machine.Passes hosts (s.machine.started code) w m (caller :: outer) w')
    (returns : code.decodeAt m.ip = .ok (.ret, behind))
    (turns : m.turn hosts w' = (.inl next, w'')) :
    ∃ p ∈ after.procedures, code.decodeAt caller.ip = .ok (.call p.address, next.ip) ∧
      ((∀ body, after.Holds (fun _ => True) p body → .call p.address ∉ body) →
        (∃ task start c, Calling program s.compiler after code outer task start ∧
          task.CallsAt start p c) ∧
        ∀ task start c, Calling program s.compiler after code outer task start →
          task.CallsAt start p c → ∀ slot, c.Sees slot →
            next.locals.get? slot = caller.locals.get? slot ∨
              ∃ q body, Runs (after.Holds fun _ => True) p q ∧ after.Holds (fun _ => True) q body ∧
                ∀ making, after.Makes (fun _ => True) q making → making.code = body →
                  making.Disturbs slot) := by
  obtain ⟨top, l, derivation, unit, rfl⟩ := driven.layout (fun _ => True)
    (fun _ _ _ _ _ _ _ => trivial) (fun _ _ _ _ _ => trivial) compiled short
  have library := (driven.ready.yields derivation).library
  obtain ⟨buffer, ⟨-, none, -⟩ | ⟨r, active⟩⟩ :=
    Layout.Active.passes Layout.keeps_framed passes rfl rfl
      driven.idle fun _ _ _ _ _ => nofun
  · cases none
  cases active with
  | @called r _ _ _ p body back outside procedure call _ calls _ framed =>
    obtain ⟨j, _, read, carried⟩ := Machine.turn_carried turns
    rw [buffer, returns] at read
    cases read
    obtain rfl : back = next.ip := (List.cons.inj (calls.symm.trans carried.returned)).1
    have held := procedure
    rw [unit.holds] at held
    obtain ⟨offset, i, -, -, found, decoded⟩ := outside.fetch
    rw [call] at decoded
    obtain rfl := Layout.shift_eq_call (congrArg Prod.fst (Except.ok.inj decoded)).symm
    have inside := Fragment.mem_of_at? found
    refine ⟨p, held.mem, call, fun plain => ⟨unit.exists_site derivation outside inside, ?_⟩⟩
    intro task start c calling site slot sees
    obtain ⟨⟨others, accounts⟩, early, known | ⟨above, rest, ahead, rfl, again⟩⟩ :=
      calling.site derivation driven.ready held.mem site
    · by_cases spared : Spared (after.Holds fun _ => True) p slot
      · left
        rw [carried.get? nofun]
        exact framed _ _ rfl p body procedure rfl slot (unit.holds ▸ spared)
      · right
        simp only [Spared, Classical.not_forall, ne_eq, Classical.not_not] at spared
        obtain ⟨q, code, runs, holds, i, member, changes⟩ := spared
        refine ⟨q, code, runs, holds, fun making makes same => ?_⟩
        subst same
        refine ⟨⟨i, member, changes⟩, ?_, (making.changes member changes).symm⟩
        rw [← Draft.finish_slots, makes.finished]
        exact sees.apart accounts (Compiler.runs_known library early known runs)
    · -- The calling code is the body of the procedure itself.
      cases outside with
      | @called _ _ _ _ q code _ _ procedure' call' =>
        rw [call'] at again
        rw [unit.holds] at procedure'
        have same : q.address = p.address :=
          Instruction.call.inj (congrArg Prod.fst (Except.ok.inj again))
        obtain rfl := library.address_inj procedure'.mem held.mem same
        exact absurd inside (plain code procedure')

/-- In a call of a procedure with a variable of its own, a variable that was declared before the
procedure is kept. One that was declared after it has been given the slot of the procedure's
variable, and is lost. -/
theorem Driven.calls_framed_lent : ∃ (s : Session (StateM Nat)) (code : Bytecode) (after : Compiler)
    (m caller next : Machine) (w w' behind : Nat),
    Driven (· = {}) (fun _ => True) true s ∧
      s.compiler.compile [.call "p" []] = .ok (code, after) ∧ code.size < 0x80000000 ∧
      Machine.Passes {} (s.machine.started code) 0 m [caller] w ∧
      code.decodeAt m.ip = .ok (.ret, behind) ∧ m.turn {} w = (.inl next, w') ∧
      s.compiler.slot? "x" = some 1 ∧ next.locals.get? 1 = caller.locals.get? 1 ∧
      s.compiler.slot? "y" = some 2 ∧ next.locals.get? 2 = none ∧ caller.locals.get? 2 ≠ none ∧
      ∃ q making, after.Makes (fun _ => True) q making ∧ making.Disturbs 2 := by
  let one : Node := .literal (.number .one)
  let defines : Program := [.declare "x" none (some one),
    .define "p" [] (some .void) [.declare "t" none (some one)], .declare "y" none (some one)]
  let calls : Program := [.call "p" []]
  let look (code : Bytecode) (after : Compiler) (m : Machine) (callers : List Machine)
      (w : Nat) : Bool :=
    code.size < 0x80000000 && (after.procedures.length == 1) &&
    (after.library.all fun i => i.changes? ≠ some 1 ∧ i.isCall = false) &&
    code.readsRet m.ip && callers.length == 1 &&
      (callers.head?.any fun caller => (caller.locals.get? 2).isSome) &&
    (m.turn ({} : HostTable (StateM Nat)) w).1.getLeft?.any fun next => (next.locals.get? 2).isNone
  let first : Session (StateM Nat) := .new {} {}
  obtain ⟨error, s, w, ran, seen⟩ := exists_of_run (s := first)
    (a := (false, some 1, some 2, true, some true))
    (fun found => (SessionError.onMachine found.1,
      found.2.compiler.slot? "x", found.2.compiler.slot? "y",
      (found.2.compiler.procedure? "p").isSome,
      (found.2.compiler.compile calls).toOption.bind (fun made =>
      (Machine.passed? found.2.hosts (found.2.machine.started made.1) 0 5).map fun there =>
        look made.1 made.2 there.1 there.2.1 there.2.2)))
    (by decide +kernel : (first.run 30 defines 0).1.map _ = _)
  simp only [Prod.mk.injEq] at seen
  obtain ⟨smooth, isX, isY, known, passed⟩ := seen
  have begun : Driven (· = {}) (fun _ => True) true first := .fresh {} {}
  have driven := begun.again trivial (short_of_accepts (by decide +kernel)) ran
  rw [smooth] at driven
  obtain ⟨code, after, m, callers, w₁, compiled, passes, seen⟩ := exists_of_passed look passed
  simp only [look, Bool.and_eq_true, decide_eq_true_eq, beq_iff_eq, List.all_eq_true,
    Option.any_eq_true, Option.isNone_iff_eq_none, Option.isSome_iff_ne_none] at seen
  obtain ⟨⟨⟨⟨⟨⟨short, single⟩, library⟩, returned⟩, alone⟩, caller, isCaller, filled⟩,
    next, turned, freed⟩ := seen
  obtain ⟨only, rfl⟩ := List.length_eq_one_iff.mp alone
  cases isCaller
  obtain ⟨behind, returns⟩ := Bytecode.exists_of_readsRet returned
  have turns := Machine.turn_of_getLeft? turned
  rw [← show s.hosts = {} from driven.given] at turns
  obtain ⟨p, member, call, frames⟩ := driven.calls_framed compiled short passes returns turns
  obtain ⟨-, frames⟩ := frames fun body held calls => by
    have plain := (library _ (held.mem_library calls)).2
    cases plain
  obtain ⟨top, derivation, -⟩ := Compiler.compile_ok compiled
  obtain ⟨other, found⟩ := Option.isSome_iff_exists.mp known
  have listed := (derivation.grows driven.ready.tidy).procedures.subset
    (List.mem_of_find?_eq_some found)
  obtain ⟨only, singleton⟩ := List.length_eq_one_iff.mp single
  rw [singleton, List.mem_singleton] at member listed
  rw [listed, ← member] at found
  have site : (Task.statements calls).CallsAt s.compiler p s.compiler :=
    ⟨0, "p", [], none, .defined p, .first .here .firstStatement,
      ⟨by rw [driven.ready.outside]; rfl, found⟩, rfl⟩
  have kept : next.locals.get? 1 = caller.locals.get? 1 := by
    rcases frames _ _ _ .unit site 1 (.inl ⟨"x", isX⟩) with
      kept | ⟨q, _, -, ⟨making, makes, rfl⟩, disturbs⟩
    · exact kept
    · obtain ⟨⟨i, inside, changes⟩, -⟩ := disturbs making makes rfl
      have spares := (library _ (Compiler.Holds.mem_library ⟨making, makes, rfl⟩ inside)).1
      rw [Instruction.changes?_shift] at spares
      exact absurd changes spares
  rcases frames _ _ _ .unit site 2 (.inl ⟨"y", isY⟩) with
    same | ⟨q, _, -, ⟨making, makes, rfl⟩, disturbs⟩
  · exact absurd (same.symm.trans freed) filled
  · rw [show s.hosts = {} from driven.given] at passes turns
    exact ⟨s, code, after, m, caller, next, w₁, _, behind, driven, compiled, short, passes, returns,
      turns, isX, kept, isY, freed, filled, q, making, makes, disturbs making makes rfl⟩

end Session

end Primer
