import Primer.Proofs.Compilation.Reads
import Primer.Proofs.Concatenation
import Primer.Proofs.Execution.Relocation

/-!
Programs in pieces. Two programs are run as one unit, or one after the other in the same session. As
one unit the top-level code of the first stands in front of that of the second, behind all
procedures; on its own each stands behind the procedures that are known by then and ends with a
return. Where the first unit returns the joint code goes on into the second, and what the machine
does is the same both ways.
-/

set_option autoImplicit false
set_option relaxedAutoImplicit false

namespace Primer

namespace Compiler

/-- Two programs that compile one after the other, with the top-level code of each. -/
structure Pieces (c : Compiler) (P Q : Program) (middle last : Compiler) (top top' : Fragment) :
    Prop where
  before : Yields (.statements P) c ⟨none, top⟩ middle
  behind : Yields (.statements Q) middle ⟨none, top'⟩ last
  first : c.compile P = .ok (middle.assemble (top ++ [.ret]), middle)
  second : middle.compile Q = .ok (last.assemble (top' ++ [.ret]), last)
  both : c.compile (P ++ Q) = .ok (last.assemble (top ++ top'.shift top.size ++ [.ret]), last)

/-- Two programs compile as one exactly when they compile one after the other. -/
theorem exists_pieces {c : Compiler} {P Q : Program}
    (compiles : (∃ made, c.compile (P ++ Q) = .ok made) ∨
      ∃ code middle made, c.compile P = .ok (code, middle) ∧ middle.compile Q = .ok made) :
    ∃ middle last top top', c.Pieces P Q middle last top top' := by
  have split := Compile.statements_append P Q
  cases before : Compile.statements P c with
  | error fault =>
    rcases compiles with ⟨made, both⟩ | ⟨code, middle, made, first, -⟩
    · have failed : Compile.statements (P ++ Q) c = .error fault := by
        rw [split]
        exact Compile.bind_eq_error.mpr (.inl before)
      cases (compile_error failed).symm.trans both
    · cases (compile_error before).symm.trans first
  | ok found =>
    obtain ⟨parts, middle⟩ := found
    cases behind : Compile.statements Q middle with
    | error fault =>
      rcases compiles with ⟨made, both⟩ | ⟨code, middle', made, first, second⟩
      · have failed : Compile.statements (P ++ Q) c = .error fault := by
          rw [split, Compile.bind_of_ok before]
          exact Compile.bind_eq_error.mpr (.inl behind)
        cases (compile_error failed).symm.trans both
      · cases (compile_eq before).symm.trans first
        cases (compile_error behind).symm.trans second
    | ok found' =>
      obtain ⟨parts', last⟩ := found'
      have both : Compile.statements (P ++ Q) c = .ok (parts ++ parts', last) := by
        rw [split, Compile.bind_of_ok before, Compile.bind_of_ok behind]
        rfl
      refine ⟨middle, last, _, _, Task.yields (Compile.joined_eq_ok.mpr ⟨parts, before, rfl⟩),
        Task.yields (Compile.joined_eq_ok.mpr ⟨parts', behind, rfl⟩), compile_eq before,
        compile_eq behind, ?_⟩
      rw [← Fragment.sequence_append]
      exact compile_eq both

variable {c c' : Compiler} {p : Procedure} {code : Fragment}

theorem Stores.grows (stores : c.Stores p code) (grows : c.Grows c') : c'.Stores p code := by
  obtain ⟨stop, less, more, region⟩ := stores
  obtain ⟨others, procedures⟩ := grows.procedures
  obtain ⟨extra, library⟩ := grows.library
  refine ⟨stop, less, more ++ extra, ?_⟩
  rw [← procedures, ← library]
  exact region.extend others extra

theorem Stores.stop_le (stores : c.Stores p code) : p.address + code.size ≤ c.libraryEnd := by
  obtain ⟨stop, less, more, region⟩ := stores
  have size : c.library.size = less.size + code.size + more.size := by
    rw [region.parts, Fragment.size_append, Fragment.size_append, Fragment.size_shift]
  have start := region.start
  rw [libraryEnd]
  omega

theorem Ready.exists_stores (ready : c.Ready) (member : p ∈ c.procedures) :
    ∃ code, c.Stores p code := by
  obtain ⟨before, after, split⟩ := List.append_of_mem member
  obtain ⟨less, code, more, region⟩ := ready.library.region split
  exact ⟨code, _, less, more, region⟩

end Compiler

namespace Layout

/-- The layout is that of a unit, whose procedures hold the code that the library stores for
them. -/
structure Stored (c : Compiler) (top : Fragment) (l : Layout) : Prop where
  buffer : l.buffer = c.assemble (top ++ [.ret])
  main : l.main = ⟨c.libraryEnd, top ++ [.ret]⟩
  holds : l.holds = c.Stores

theorem exists_stored {c : Compiler} {top : Fragment} (ready : c.Ready)
    (sound : top.Sound c.Callable)
    (short : (c.assemble (top ++ [Instruction.ret])).size < 0x80000000) : ∃ l, Stored c top l := by
  obtain ⟨l, buffer, main, holds⟩ := Compiler.exists_layout_of c.Stores ready
    (fun _ => ready.exists_stores) (fun _ _ => id) sound short
  exact ⟨l, buffer, main, holds⟩

/-- A unit stands in the code of a later one whose top-level code has that of the unit in it. -/
theorem Stored.embeds {c c' : Compiler} {top whole : Fragment} {l l' : Layout} {distance : Nat}
    (unit : Stored c top l) (unit' : Stored c' whole l') (grows : c.Grows c') (less more : Fragment)
    (parts : whole ++ [Instruction.ret] = less ++ top.shift less.size ++ more)
    (filled : 0 < more.size) (place : c.libraryEnd + distance = c'.libraryEnd + less.size)
    (returnless : ∀ offset, top.at? offset ≠ some .ret) : l.Embeds top distance l' := by
  have one : Fragment.size [.ret] = 1 := rfl
  have base : l.main.base = c.libraryEnd := by rw [unit.main]
  have size := c'.size_assemble whole
  rw [← unit'.buffer, parts, Fragment.size_append, Fragment.size_append,
    Fragment.size_shift] at size
  constructor
  · rw [unit.main]
  · exact returnless
  · intro p code held
    rw [unit.holds] at held
    rw [base]
    exact held.stop_le
  · intro p code held
    rw [unit.holds] at held
    rw [unit'.holds]
    exact held.grows grows
  · intro offset i found
    have within := Fragment.lt_size_of_at? found
    have positive := i.size_pos
    have there : l'.main.code.at? (less.size + offset) = some (i.shift less.size) := by
      rw [unit'.main]
      simp only [parts, List.append_assoc, Fragment.at?_append_right]
      rw [Fragment.at?_append_left (by rw [Fragment.size_shift]; omega), Fragment.at?_shift, found]
      rfl
    have decoded := l'.mainStands.decodes there
    rw [Instruction.size_shift, Instruction.shift_shift, unit'.main] at decoded
    have start : c.libraryEnd + distance + offset = c'.libraryEnd + (less.size + offset) := by omega
    have stop : c.libraryEnd + distance + (offset + i.size) =
        c'.libraryEnd + (less.size + offset + i.size) := by omega
    rw [base, start, stop, place, Nat.add_comm c'.libraryEnd less.size]
    exact decoded
  · rw [unit.buffer, Compiler.size_assemble, Fragment.size_append, one, base, Nat.add_assoc]
  · rw [base, place, size]
    omega

/-- Two units stand one behind the other in longer code, which has a return at its end. -/
structure Joins (l₁ l₂ l : Layout) (top₁ top₂ : Fragment) (d₁ d₂ : Nat) : Prop where
  first : l₁.Embeds top₁ d₁ l
  second : l₂.Embeds top₂ d₂ l
  start : l.main.base = l₁.main.base + d₁
  middle : l₁.main.base + d₁ + top₁.size = l₂.main.base + d₂
  stop : ∃ behind, l.buffer.decodeAt (l₂.main.base + d₂ + top₂.size) = .ok (.ret, behind)

/-- Two programs that compile one after the other stand in the code of both. -/
theorem exists_joins {c middle last : Compiler} {P Q : Program} {top top' : Fragment}
    (ready : c.Ready) (pieces : c.Pieces P Q middle last top top')
    (short : (last.assemble (top ++ top'.shift top.size ++ [Instruction.ret])).size < 0x80000000) :
    ∃ l₁ l₂ l d₁ d₂, Joins l₁ l₂ l top top' d₁ d₂ ∧
      l₁.buffer = middle.assemble (top ++ [Instruction.ret]) ∧
      l₂.buffer = last.assemble (top' ++ [Instruction.ret]) ∧
      l.buffer = last.assemble (top ++ top'.shift top.size ++ [Instruction.ret]) := by
  have ready' := ready.yields pieces.before
  have ready'' := ready'.yields pieces.behind
  have grows := pieces.behind.grows ready'.tidy
  have sound := pieces.before.sound ready.tidy
  have sound' := pieces.behind.sound ready'.tidy
  obtain ⟨shortFirst, shortSecond⟩ := Compiler.short_pieces grows short
  obtain ⟨l₁, unit₁⟩ := exists_stored ready' sound shortFirst
  obtain ⟨l₂, unit₂⟩ := exists_stored ready'' sound' shortSecond
  obtain ⟨l, unit⟩ :=
    exists_stored ready'' ((sound.mono fun _ => grows.callable).append sound') short
  have later := grows.libraryEnd_le
  refine ⟨l₁, l₂, l, last.libraryEnd - middle.libraryEnd, top.size, ?_, unit₁.buffer, unit₂.buffer,
    unit.buffer⟩
  constructor
  · refine unit₁.embeds unit grows [] (top'.shift top.size ++ [Instruction.ret]) ?_ ?_ ?_
      (pieces.before.at?_ne_ret ready)
    · simp
    · exact Fragment.size_pos (by simp)
    · rw [Fragment.size_nil]
      omega
  · exact unit₂.embeds unit (.refl last) top [.ret] rfl Nat.one_pos rfl
      (pieces.behind.at?_ne_ret ready')
  · rw [unit.main, unit₁.main]
    show last.libraryEnd = middle.libraryEnd + (last.libraryEnd - middle.libraryEnd)
    omega
  · rw [unit₁.main, unit₂.main]
    show middle.libraryEnd + (last.libraryEnd - middle.libraryEnd) + top.size =
      last.libraryEnd + top.size
    omega
  · have there : l.main.code.at? (Fragment.size (top ++ top'.shift top.size) + 0) = some .ret := by
      rw [unit.main]
      exact Fragment.at?_append_right _ [.ret] 0
    have decoded := l.mainStands.decodes there
    rw [unit.main, Fragment.size_append, Fragment.size_shift, Nat.add_zero,
      ← Nat.add_assoc] at decoded
    rw [unit₂.main]
    exact ⟨_, decoded⟩

variable {σ : Type} {hosts : HostTable (StateM σ)} {l l' : Layout} {top : Fragment} {distance : Nat}
  {m m' last : Machine} {w w' : σ}

/-- The machine when it has come to the top-level code. -/
def entered (l : Layout) (m : Machine) : Machine :=
  { m with code := l.buffer, ip := l.main.base, steps := 1 }

theorem halts_started (l : Layout) (unlimited : m.config.maxSteps = none) :
    (m.started l.buffer).Halts hosts w last w' ↔ m.stack.length ≤ m.config.maxStackSize ∧
      (l.entered m).Halts hosts w last w' := by
  obtain ⟨behind, decoded⟩ := l.entry
  exact Machine.halts_at_jump (m := m.started l.buffer) decoded (l.mainStands.covers_le .start)
    unlimited

/-- At the return of the unit its run ends. -/
theorem Meets.halts (embeds : l.Embeds top distance l') (meets : l.Meets top distance l' m m')
    (unlimited : m.config.maxSteps = none) (hosts : HostTable (StateM σ)) (w : σ) :
    ∃ behind, m.Halts hosts w { m with ip := behind, steps := m.steps + 1 } w := by
  have there : l.main.code.at? (top.size + 0) = some .ret := by
    rw [embeds.main]
    exact Fragment.at?_append_right _ [.ret] 0
  have decoded := l.mainStands.decodes there
  rw [← meets.follows.code, Nat.add_zero, ← meets.arrived.ip] at decoded
  exact ⟨_,
    (Machine.halts_at_return decoded meets.arrived.idle unlimited).mpr ⟨meets.room, rfl, rfl⟩⟩

/-- The unit starts on a machine, and another is where the top-level code of the unit starts in the
longer code. -/
theorem follows_entered (idle : m.calls = [] ∧ m'.calls = []) (code' : m'.code = l'.buffer)
    (config : m'.config = m.config) (stack : m'.stack = m.stack) (locals : m'.locals = m.locals)
    (unlimited : m.config.maxSteps = none) (ip : m'.ip = l.main.base + distance) :
    l.Follows distance l' (l.entered m) m' where
  active := ⟨l.main, [], .top idle.1 (Routine.covers_base _) trivial⟩
  code := rfl
  code' := code'
  alike := by
    refine ⟨config, stack, ?_, fun slot _ => by rw [locals]; rfl, .inl unlimited⟩
    rw [idle.2, show (l.entered m).calls = [] from idle.1]
    rfl
  ip := ip.trans (l.relocated_main distance 0).symm

/-- When the joint code runs to its end, or the two units do one after the other, then both ways are
possible and lead to the same. -/
theorem Joins.halts {l₁ l₂ : Layout} {top₁ top₂ : Fragment} {d₁ d₂ : Nat}
    (joins : Joins l₁ l₂ l top₁ top₂ d₁ d₂) (idle : m.calls = [])
    (unlimited : m.config.maxSteps = none) (hosts : HostTable (StateM σ)) (w : σ)
    (either : (∃ last w', (m.started l.buffer).Halts hosts w last w') ∨
      ∃ last₁ w₁, (m.started l₁.buffer).Halts hosts w last₁ w₁ ∧
        ∃ last₂ w₂, (last₁.started l₂.buffer).Halts hosts w₁ last₂ w₂) :
    ∃ last₁ w₁ last₂ last w', (m.started l₁.buffer).Halts hosts w last₁ w₁ ∧
      (last₁.started l₂.buffer).Halts hosts w₁ last₂ w' ∧
      (m.started l.buffer).Halts hosts w last w' ∧
      last₂.locals = last.locals ∧ last₂.stack = last.stack := by
  have room : m.stack.length ≤ m.config.maxStackSize := by
    rcases either with ⟨last, w', halts⟩ | ⟨last, w', halts, -⟩
    · exact ((l.halts_started unlimited).mp halts).1
    · exact ((l₁.halts_started unlimited).mp halts).1
  -- Both ways come together to where the first unit returns.
  have begins : l₁.Follows d₁ l (l₁.entered m) (l.entered m) :=
    follows_entered ⟨idle, idle⟩ rfl rfl rfl rfl unlimited joins.start
  obtain ⟨n, n', w₁, meets, ⟨_, reaches⟩, _, reaches'⟩ := begins.meets joins.first unlimited (by
    rcases either with ⟨last, w', halts⟩ | ⟨last, w', halts, -⟩
    · exact ⟨last, w', .inr ((l.halts_started unlimited).mp halts).2⟩
    · exact ⟨last, w', .inl ((l₁.halts_started unlimited).mp halts).2⟩)
  have unlimited₁ : n.config.maxSteps = none :=
    (congrArg Config.maxSteps reaches.config).trans unlimited
  have alike := meets.follows.alike
  obtain ⟨behind, ended⟩ := meets.halts joins.first unlimited₁ hosts w₁
  have first := (l₁.halts_started unlimited).mpr ⟨room, reaches.halts_iff.mpr ended⟩
  -- From there the second unit is followed in the joint code.
  have resumes : l₂.Follows d₂ l (l₂.entered { n with ip := behind, steps := n.steps + 1 }) n' := by
    refine follows_entered ⟨meets.arrived.idle, ?_⟩ meets.follows.code' alike.config alike.stack
      (Locals.ext_get? fun slot => alike.locals slot trivial) unlimited₁ ?_
    · rw [alike.calls, meets.arrived.idle]
      rfl
    · rw [meets.follows.ip, meets.arrived.ip, relocated_main]
      exact joins.middle
  obtain ⟨e, e', w₂, meets₂, ⟨_, reaches₂⟩, _, reaches₂'⟩ :=
      resumes.meets joins.second unlimited₁ (by
    rcases either with ⟨last, w', halts⟩ | ⟨last, w', halts, last₂, w'', halts₂⟩
    · exact ⟨last, w', .inr (reaches'.halts_iff.mp ((l.halts_started unlimited).mp halts).2)⟩
    · obtain ⟨rfl, rfl⟩ := first.unique halts
      exact ⟨last₂, w'', .inl ((l₂.halts_started unlimited₁).mp halts₂).2⟩)
  have unlimited₂ : e.config.maxSteps = none :=
    (congrArg Config.maxSteps reaches₂.config).trans unlimited₁
  have alike₂ := meets₂.follows.alike
  obtain ⟨behind₂, ended₂⟩ := meets₂.halts joins.second unlimited₂ hosts w₂
  have second := (l₂.halts_started unlimited₁).mpr ⟨meets.room, reaches₂.halts_iff.mpr ended₂⟩
  obtain ⟨behind', decoded⟩ := joins.stop
  rw [← relocated_main, ← meets₂.arrived.ip, ← meets₂.follows.ip, ← meets₂.follows.code'] at decoded
  have ended : e'.Halts hosts w₂ { e' with ip := behind', steps := e'.steps + 1 } w₂ := by
    refine (Machine.halts_at_return decoded ?_ ?_).mpr ⟨?_, rfl, rfl⟩
    · rw [alike₂.calls, meets₂.arrived.idle]
      rfl
    · rw [alike₂.config]
      exact unlimited₂
    · rw [alike₂.stack, alike₂.config]
      exact meets₂.room
  have both := (l.halts_started unlimited).mpr
    ⟨room, reaches'.halts_iff.mpr (reaches₂'.halts_iff.mpr ended)⟩
  refine ⟨_, _, _, _, _, first, second, both, Locals.ext_get? fun slot => ?_, alike₂.stack.symm⟩
  exact (alike₂.locals slot trivial).symm

end Layout

namespace Session

variable {σ : Type} {s s' : Session (StateM σ)} {program : Program} {w w' : σ}

/-- The program compiles and runs to its end without an error. -/
def Completes (s : Session (StateM σ)) (program : Program) (w : σ) (s' : Session (StateM σ))
    (w' : σ) : Prop :=
  ∃ fuel, s.run fuel program w = (some (none, s'), w')

theorem Completes.compiles (completes : s.Completes program w s' w') :
    ∃ code, s.compiler.compile program = .ok (code, s'.compiler) := by
  obtain ⟨fuel, done⟩ := completes
  cases run_outcome done with
  | finished compiled => exact ⟨_, compiled⟩

theorem Completes.unique {s'' : Session (StateM σ)} {w'' : σ} (first : s.Completes program w s' w')
    (second : s.Completes program w s'' w'') : s'' = s' ∧ w'' = w' := by
  obtain ⟨fuel, done⟩ := first
  obtain ⟨fuel', done'⟩ := second
  cases run_outcome done with
  | finished compiled loads ran =>
    cases run_outcome done' with
    | finished compiled' loads' ran' =>
      cases compiled.symm.trans compiled'
      cases loads.symm.trans loads'
      obtain ⟨rfl, rfl⟩ := Machine.Halts.unique ⟨fuel, ran⟩ ⟨fuel', ran'⟩
      exact ⟨rfl, rfl⟩

/-- A program that compiles completes exactly when the run of its code comes to the end. -/
theorem completes_iff {code : Bytecode} {after : Compiler} (ready : s.compiler.Ready)
    (compiled : s.compiler.compile program = .ok (code, after)) (short : code.size < 0x80000000) :
    s.Completes program w s' w' ↔ ∃ last, (s.machine.started code).Halts s.hosts w last w' ∧
      s' = { s with
        compiler := after, machine := last, last := some code, checkpoint := none } := by
  have loads := ready.loads compiled short s.machine
  constructor
  · rintro ⟨fuel, done⟩
    cases run_outcome done with
    | finished compiled' loads' ran =>
      cases compiled.symm.trans compiled'
      cases loads.symm.trans loads'
      exact ⟨_, ⟨fuel, ran⟩, rfl⟩
  · rintro ⟨last, ⟨fuel, ran⟩, rfl⟩
    exact ⟨fuel, run_of_loads compiled loads ran⟩

variable {tables : HostTable (StateM σ) → Prop} {units : Program → Prop} {smooth : Bool}

/-- When two programs complete as one unit or one after the other, they do so both ways, and what
they leave is the same. -/
theorem Driven.completes_pieces (driven : Driven tables units smooth s)
    (unlimited : s.machine.config.maxSteps = none) {P Q : Program}
    (short : ∀ code after, s.compiler.compile (P ++ Q) = .ok (code, after) → code.size < 0x80000000)
    (either : (∃ s' w', s.Completes (P ++ Q) w s' w') ∨
      ∃ s₁ w₁ s₂ w₂, s.Completes P w s₁ w₁ ∧ s₁.Completes Q w₁ s₂ w₂) :
    ∃ s' w' s₁ w₁ s₂, s.Completes (P ++ Q) w s' w' ∧ s.Completes P w s₁ w₁ ∧
      s₁.Completes Q w₁ s₂ w' ∧ s₂.machine.locals = s'.machine.locals ∧
      s₂.machine.stack = s'.machine.stack ∧ s₂.compiler = s'.compiler := by
  obtain ⟨middle, last, top, top', pieces⟩ := Compiler.exists_pieces (by
    rcases either with ⟨s', w', whole⟩ | ⟨s₁, w₁, s₂, w₂, one, two⟩
    · obtain ⟨code, compiled⟩ := whole.compiles
      exact .inl ⟨_, compiled⟩
    · obtain ⟨code, compiled⟩ := one.compiles
      obtain ⟨code', compiled'⟩ := two.compiles
      exact .inr ⟨_, _, _, compiled, compiled'⟩)
  have ready := driven.ready
  have ready' := ready.yields pieces.before
  have shortBoth := short _ _ pieces.both
  obtain ⟨shortFirst, shortSecond⟩ :=
    Compiler.short_pieces (pieces.behind.grows ready'.tidy) shortBoth
  obtain ⟨l₁, l₂, l, d₁, d₂, joins, buffer₁, buffer₂, buffer⟩ :=
    Layout.exists_joins ready pieces shortBoth
  obtain ⟨-, -, first, second, both⟩ := pieces
  rw [← buffer₁] at first shortFirst
  rw [← buffer₂] at second shortSecond
  rw [← buffer] at both shortBoth
  obtain ⟨last₁, w₁, last₂, last', w', halts₁, halts₂, halts, locals, stack⟩ :=
    joins.halts driven.idle unlimited s.hosts w (by
      rcases either with ⟨s', w', whole⟩ | ⟨s₁, w₁, s₂, w₂, one, two⟩
      · obtain ⟨last, halts, -⟩ := (completes_iff ready both shortBoth).mp whole
        exact .inl ⟨last, w', halts⟩
      · obtain ⟨last₁, halts₁, rfl⟩ := (completes_iff ready first shortFirst).mp one
        obtain ⟨last₂, halts₂, -⟩ := (completes_iff ready' second shortSecond).mp two
        exact .inr ⟨last₁, w₁, halts₁, last₂, w₂, halts₂⟩)
  exact ⟨_, w', _, w₁, _, (completes_iff ready both shortBoth).mpr ⟨last', halts, rfl⟩,
    (completes_iff ready first shortFirst).mpr ⟨last₁, halts₁, rfl⟩,
    (completes_iff ready' second shortSecond).mpr ⟨last₂, halts₂, rfl⟩, locals, stack, rfl⟩

/-- A program may be given in pieces: two programs complete as one unit exactly when they complete
one after the other. Then the host, whatever it does and keeps of its calls, comes to the same state
both ways, and the session holds the same values and knows the same names. -/
theorem Driven.completes_append (driven : Driven tables units smooth s)
    (unlimited : s.machine.config.maxSteps = none) (P Q : Program)
    (short : ∀ code after, s.compiler.compile (P ++ Q) = .ok (code, after) → code.size < 0x80000000)
    (w : σ) :
    ((∃ s' w', s.Completes (P ++ Q) w s' w') ↔
      ∃ s₁ w₁ s₂ w₂, s.Completes P w s₁ w₁ ∧ s₁.Completes Q w₁ s₂ w₂) ∧
    ∀ s' w' s₁ w₁ s₂ w₂, s.Completes (P ++ Q) w s' w' → s.Completes P w s₁ w₁ →
      s₁.Completes Q w₁ s₂ w₂ → w₂ = w' ∧ s₂.machine.locals = s'.machine.locals ∧
        s₂.machine.stack = s'.machine.stack ∧ s₂.machine.result? = s'.machine.result? ∧
        s₂.compiler = s'.compiler := by
  refine ⟨⟨fun whole => ?_, fun parts => ?_⟩, ?_⟩
  · obtain ⟨s', w', s₁, w₁, s₂, -, one, two, -⟩ :=
      driven.completes_pieces unlimited short (.inl whole)
    exact ⟨s₁, w₁, s₂, w', one, two⟩
  · obtain ⟨s', w', _, _, _, whole, -⟩ := driven.completes_pieces unlimited short (.inr parts)
    exact ⟨s', w', whole⟩
  · intro s' w' s₁ w₁ s₂ w₂ whole one two
    obtain ⟨_, _, _, _, _, whole', one', two', locals, stack, compiler⟩ :=
      driven.completes_pieces unlimited short (.inl ⟨s', w', whole⟩)
    obtain ⟨rfl, rfl⟩ := whole'.unique whole
    obtain ⟨rfl, rfl⟩ := one'.unique one
    obtain ⟨rfl, rfl⟩ := two'.unique two
    exact ⟨rfl, locals, stack, congrArg (·.get? resultSlot) locals, compiler⟩

/-- A procedure that calls the host is called in a loop and behind it. The second program hands on
the result of the first, and defines another procedure, so that the top-level code starts elsewhere
when both are one unit. -/
theorem completes_append_echo : ∃ (s s' s₁ s₂ : Session (StateM (List String))) (P Q : Program)
    (w₁ : List String), Driven (fun _ => True) (fun _ => True) true s ∧
      s.machine.config.maxSteps = none ∧
      (∀ code after, s.compiler.compile (P ++ Q) = .ok (code, after) → code.size < 0x80000000) ∧
      s.Completes (P ++ Q) [] s' ["a", "b", "b", "c"] ∧ s.Completes P [] s₁ w₁ ∧
      s₁.Completes Q w₁ s₂ ["a", "b", "b", "c"] ∧ s₂.machine.locals = s'.machine.locals ∧
      s₂.machine.stack = s'.machine.stack ∧ s₂.machine.result? = s'.machine.result? ∧
      s₂.compiler = s'.compiler := by
  let hosts : HostTable (StateM (List String)) := ⟨[("note",
    { signature := ⟨[.string], .void⟩
      perform := fun given notes => (.ok none, notes ++ given.map Value.text) })]⟩
  let start : Session (StateM (List String)) := .new hosts {}
  let say : Program := [.define "say" [⟨"text", none⟩] none
    [.call "note" [.var "text"], .giveBack (some (.var "text"))]]
  let P : Program := [.declare "go" none (some (.literal (.boolean true))),
    .loop (.var "go") [.call "say" [.literal (.string "a")],
      .assign "go" (.literal (.boolean false))],
    .call "say" [.literal (.string "b")]]
  let Q : Program := [.call "say" [.result],
    .define "echo" [⟨"text", none⟩] none [.call "say" [.var "text"]],
    .call "echo" [.literal (.string "c")]]
  obtain ⟨error, s, w, ran, seen⟩ := exists_of_run (s := start)
    (a := (false, true, true, some true, ["a", "b", "b", "c"]))
    (fun x => (SessionError.onMachine x.1, x.2.machine.config.maxSteps.isNone,
      x.2.accepts (P ++ Q), (x.2.run 100 (P ++ Q) []).1.map (·.1.isNone),
      (x.2.run 100 (P ++ Q) []).2))
    (by decide +kernel : (start.run 3 say []).1.map _ = _)
  simp only [Prod.mk.injEq, Option.isNone_iff_eq_none] at seen
  obtain ⟨smooth, unlimited, accepted, ended, notes⟩ := seen
  have begun : Driven (fun _ => True) (fun _ => True) true start := .new trivial {}
  have driven := begun.again trivial (short_of_accepts (by decide +kernel)) ran
  rw [smooth] at driven
  have short := short_of_accepts accepted
  obtain ⟨problem, s', w', done, fine⟩ := exists_of_run (s := s) (fun x => x.1.isNone) ended
  obtain rfl := Option.isNone_iff_eq_none.mp fine
  obtain rfl : w' = ["a", "b", "b", "c"] := by rw [← notes, done]
  have whole : s.Completes (P ++ Q) [] s' _ := ⟨100, done⟩
  obtain ⟨pieces, same⟩ := driven.completes_append unlimited P Q short []
  obtain ⟨s₁, w₁, s₂, w₂, one, two⟩ := pieces.mp ⟨s', _, whole⟩
  obtain ⟨rfl, equal⟩ := same _ _ _ _ _ _ whole one two
  exact ⟨s, s', s₁, s₂, P, Q, w₁, driven, unlimited, short, whole, one, two, equal⟩

end Session

end Primer
