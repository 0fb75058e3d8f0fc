import Primer.Proofs.Compilation.Shelf
import Primer.Proofs.Execution.Turn
import Primer.Session

/-!
Sessions as they are driven. The compiler sorts the host's procedures by name, and finds them as the
machine does. Units are run one after another, and some fail. A unit that does not compile leaves
the session as it is; one that fails on the machine is withdrawn, and the machine keeps what was
stored until then.
-/

set_option autoImplicit false
set_option relaxedAutoImplicit false

namespace Primer

namespace Text

theorem precedes_refl (text : List Char) : precedes text text := by
  induction text with
  | nil => rfl
  | cons a as ih => simp [precedes, ih]

theorem precedes_total (first second : List Char) :
    (precedes first second || precedes second first) = true := by
  induction first generalizing second with
  | nil => rfl
  | cons a as ih =>
    cases second with
    | nil => rfl
    | cons b bs =>
      have tails := ih bs
      simp only [precedes, Bool.or_eq_true, Bool.and_eq_true, decide_eq_true_eq,
        beq_iff_eq] at tails ⊢
      grind

theorem precedes_trans (first second third : List Char) (one : precedes first second)
    (two : precedes second third) : precedes first third := by
  induction first generalizing second third with
  | nil => rfl
  | cons a as ih =>
    cases second with
    | nil => cases one
    | cons b bs =>
      cases third with
      | nil => cases two
      | cons e es =>
        simp only [precedes, Bool.or_eq_true, Bool.and_eq_true, decide_eq_true_eq,
          beq_iff_eq] at one two ⊢
        grind

end Text

/-- Sorting keeps the order of elements that are not told apart. -/
theorem filter_mergeSort {α : Type} {le : α → α → Bool} {p : α → Bool} (list : List α)
    (trans : ∀ a b c, le a b → le b c → le a c) (total : ∀ a b, (le a b || le b a) = true)
    (same : ∀ a b, p a → p b → le a b) : (list.mergeSort le).filter p = list.filter p := by
  have ordered : (list.filter p).Pairwise fun a b => le a b :=
    List.pairwise_filter.mpr (List.pairwise_of_forall fun a b => same a b)
  have kept := (List.sublist_mergeSort trans total ordered List.filter_sublist).filter p
  simp only [List.filter_filter, Bool.and_self] at kept
  exact (kept.eq_of_length ((List.mergeSort_perm list le).filter p).length_eq.symm).symm

theorem lookup_eq_filter {α β : Type} [BEq α] (list : List (α × β)) (key : α) :
    list.lookup key = (list.filter fun entry => key == entry.1).head?.map (·.2) := by
  induction list with
  | nil => rfl
  | cons entry more ih =>
    rw [List.lookup_cons, List.filter_cons]
    cases key == entry.1 <;> simp [ih]

/-- The compiler finds a procedure of the host as the machine does. -/
theorem HostTable.lookup_signatures {μ : Type → Type} (table : HostTable μ) (name : String) :
    table.signatures.lookup name = table.signature? name := by
  rw [lookup_eq_filter, signatures, filter_mergeSort, ← lookup_eq_filter]
  · rw [signature?, find?]
    induction table.entries with
    | nil => rfl
    | cons entry more ih =>
      rw [List.map_cons, List.lookup_cons, List.lookup_cons]
      cases name == entry.1 with
      | true => rfl
      | false => exact ih
  · exact fun a b c => Text.precedes_trans _ _ _
  · exact fun a b => Text.precedes_total _ _
  · intro a b first second
    rw [← eq_of_beq first, ← eq_of_beq second]
    exact Text.precedes_refl _

variable {σ : Type}

/-- The error of a unit that compiled but did not run to its end. -/
def SessionError.onMachine : Option SessionError → Bool
  | some (.machine _) => true
  | _ => false

/-- The machine at the start of a run of some code. -/
def Machine.started (m : Machine) (code : Bytecode) : Machine :=
  { m with code, ip := 0, steps := 0 }

namespace Session

/-- How a unit can end: it does not compile, its code is refused, or it is run. -/
inductive Outcome (s : Session (StateM σ)) (fuel : Nat) (program : Program) (w : σ) :
    Option SessionError → Session (StateM σ) → σ → Prop
  | refused {error : CompileError} (failed : s.compiler.compile program = .error error) :
      Outcome s fuel program w (some (.compile error)) s w
  | unloaded {code : Bytecode} {after : Compiler} {error : MachineError}
      (compiled : s.compiler.compile program = .ok (code, after))
      (failed : s.machine.load code = .error error) :
      Outcome s fuel program w (some (.machine error))
        { s with compiler := s.compiler.forgetResult, last := some code, checkpoint := none } w
  | finished {code : Bytecode} {after : Compiler} {loaded last : Machine} {w' : σ}
      (compiled : s.compiler.compile program = .ok (code, after))
      (loads : s.machine.load code = .ok loaded)
      (ran : loaded.run s.hosts fuel w = (some ⟨last, none⟩, w')) :
      Outcome s fuel program w none
        { s with compiler := after, machine := last, last := some code, checkpoint := none } w'
  | failed {code : Bytecode} {after : Compiler} {loaded last : Machine} {error : MachineError}
      {w' : σ} (compiled : s.compiler.compile program = .ok (code, after))
      (loads : s.machine.load code = .ok loaded)
      (ran : loaded.run s.hosts fuel w = (some ⟨last, some error⟩, w')) :
      Outcome s fuel program w (some (.machine error))
        { s with
          compiler := s.compiler.forgetResult
          machine := last
          last := some code
          checkpoint := none } w'

theorem run_outcome {s s' : Session (StateM σ)} {fuel : Nat} {program : Program}
    {error : Option SessionError} {w w' : σ}
    (done : s.run fuel program w = (some (error, s'), w')) :
    Outcome s fuel program w error s' w' := by
  unfold run at done
  cases compiled : s.compiler.compile program with
  | error fault =>
    rw [show s.compile program = .error fault by rw [Session.compile, compiled]; rfl] at done
    cases done
    exact .refused compiled
  | ok found =>
    obtain ⟨code, after⟩ := found
    have provisional : s.compile program = .ok (code, { s with
        compiler := after, last := some code, checkpoint := some s.compiler }) := by
      rw [Session.compile, compiled]
      rfl
    rw [provisional] at done
    unfold execute at done
    simp only at done
    cases loads : s.machine.load code with
    | error fault =>
      rw [loads] at done
      cases done
      exact .unloaded compiled loads
    | ok loaded =>
      rw [loads] at done
      simp only [bind, StateT.bind] at done
      rcases ran : loaded.run s.hosts fuel w with ⟨ended, w₁⟩
      rw [ran] at done
      cases ended with
      | none => cases done
      | some finished =>
        obtain ⟨last, problem⟩ := finished
        cases done
        cases problem with
        | none => exact .finished compiled loads ran
        | some error => exact .failed compiled loads ran

/-- A unit that compiles and loads ends as the machine does. -/
theorem run_of_loads {s : Session (StateM σ)} {fuel : Nat} {program : Program} {code : Bytecode}
    {after : Compiler} {loaded last : Machine} {problem : Option MachineError} {w w' : σ}
    (compiled : s.compiler.compile program = .ok (code, after))
    (loads : s.machine.load code = .ok loaded)
    (ran : loaded.run s.hosts fuel w = (some ⟨last, problem⟩, w')) :
    s.run fuel program w = (some (problem.map .machine,
      { s with
        compiler := if problem.isNone then after else s.compiler.forgetResult
        machine := last
        last := some code
        checkpoint := none }), w') := by
  have provisional : s.compile program = .ok (code, { s with
      compiler := after, last := some code, checkpoint := some s.compiler }) := by
    rw [Session.compile, compiled]
    rfl
  unfold run execute
  rw [provisional]
  simp only [loads, bind, StateT.bind, ran]
  cases problem <;> rfl

/-- Sessions that come from a new one by running units of a kind, each with one of the given host
tables; and whether all units that compiled have run to their end. The code of a unit has to stay
addressable. -/
inductive Driven (tables : HostTable (StateM σ) → Prop) (units : Program → Prop) :
    Bool → Session (StateM σ) → Prop
  | new {hosts : HostTable (StateM σ)} (given : tables hosts) (config : Config) :
      Driven tables units true (.new hosts config)
  | run {smooth : Bool} {s s' : Session (StateM σ)} {hosts : HostTable (StateM σ)} {fuel : Nat}
      {program : Program} {error : Option SessionError} {w w' : σ}
      (before : Driven tables units smooth s) (given : tables hosts) (kind : units program)
      (short : ∀ code after, s.compiler.compile program = .ok (code, after) →
        code.size < 0x80000000)
      (done : { s with hosts }.run fuel program w = (some (error, s'), w')) :
      Driven tables units (smooth && !SessionError.onMachine error) s'

/-- The unit compiles, and its code stays addressable. -/
def accepts (s : Session (StateM σ)) (program : Program) : Bool :=
  (s.compiler.compile program).toOption.any (·.1.size < 0x80000000)

theorem eq_ok_of_toOption {ε α : Type} {found : Except ε α} {a : α}
    (some : found.toOption = some a) : found = .ok a := by
  cases found with
  | error fault => cases some
  | ok b =>
    cases some
    rfl

theorem exists_of_accepts {s : Session (StateM σ)} {program : Program}
    (accepted : s.accepts program = true) :
    ∃ code after, s.compiler.compile program = .ok (code, after) ∧ code.size < 0x80000000 := by
  unfold accepts at accepted
  cases compiled : s.compiler.compile program with
  | error fault => rw [compiled] at accepted; cases accepted
  | ok found =>
    rw [compiled] at accepted
    exact ⟨found.1, found.2, rfl, by simpa [Except.toOption] using accepted⟩

theorem short_of_compiled {s : Session (StateM σ)} {program : Program} {code : Bytecode}
    {after : Compiler} (compiled : s.compiler.compile program = .ok (code, after))
    (short : code.size < 0x80000000) (other : Bytecode) (later : Compiler)
    (again : s.compiler.compile program = .ok (other, later)) : other.size < 0x80000000 := by
  rw [compiled] at again
  cases again
  exact short

theorem short_of_accepts {s : Session (StateM σ)} {program : Program}
    (accepted : s.accepts program = true) :
    ∀ code after, s.compiler.compile program = .ok (code, after) → code.size < 0x80000000 := by
  obtain ⟨code, after, compiled, short⟩ := exists_of_accepts accepted
  exact short_of_compiled compiled short

theorem short_of_refused {s : Session (StateM σ)} {program : Program} {fault : CompileError}
    (failed : s.compiler.compile program = .error fault) (code : Bytecode) (after : Compiler)
    (compiled : s.compiler.compile program = .ok (code, after)) : code.size < 0x80000000 := by
  rw [failed] at compiled
  cases compiled

/-- A run of which something is known has ended. -/
theorem exists_of_run {α : Type} {s : Session (StateM σ)} {fuel : Nat} {program : Program} {w : σ}
    (view : Option SessionError × Session (StateM σ) → α) {a : α}
    (seen : (s.run fuel program w).1.map view = some a) :
    ∃ error s' w', s.run fuel program w = (some (error, s'), w') ∧ view (error, s') = a := by
  rcases ran : s.run fuel program w with ⟨ended, w'⟩
  rw [ran] at seen
  obtain ⟨⟨error, s'⟩, rfl, same⟩ := Option.map_eq_some_iff.mp seen
  exact ⟨error, s', w', rfl, same⟩

namespace Driven

variable {tables : HostTable (StateM σ) → Prop} {units : Program → Prop} {smooth : Bool}
  {s : Session (StateM σ)}

/-- What holds of the compiler at first, and is kept by units that compile and when the result is
forgotten, holds of it in every session. -/
theorem compiler_holds {motive : Compiler → Prop}
    (new : ∀ hosts, tables hosts → motive (.new hosts.signatures))
    (forget : ∀ c, motive c → motive c.forgetResult)
    (grow : ∀ c program code after, units program → motive c →
      c.compile program = .ok (code, after) → motive after)
    (driven : Driven tables units smooth s) : motive s.compiler := by
  induction driven with
  | new given config => exact new _ given
  | run before given kind short done ih =>
    cases run_outcome done with
    | refused => exact ih
    | unloaded => exact forget _ ih
    | finished compiled => exact grow _ _ _ _ kind ih compiled
    | failed => exact forget _ ih

theorem fresh (hosts : HostTable (StateM σ)) (config : Config) :
    Driven (· = hosts) units true (.new hosts config) := by
  refine .new ?_ config
  rfl

/-- The host has one of the given tables. -/
theorem given (driven : Driven tables units smooth s) : tables s.hosts := by
  induction driven with
  | new given config => exact given
  | run before given kind short done ih => cases run_outcome done <;> exact given

/-- The next unit, with the table that the host has. -/
theorem again {s' : Session (StateM σ)} {fuel : Nat} {program : Program}
    {error : Option SessionError} {w w' : σ} (driven : Driven tables units smooth s)
    (kind : units program)
    (short : ∀ code after, s.compiler.compile program = .ok (code, after) → code.size < 0x80000000)
    (done : s.run fuel program w = (some (error, s'), w')) :
    Driven tables units (smooth && !SessionError.onMachine error) s' :=
  driven.run driven.given kind short done

theorem ready (driven : Driven tables units smooth s) : s.compiler.Ready :=
  driven.compiler_holds (fun _ _ => Compiler.ready_new _) (fun _ => Compiler.Ready.forgetResult)
    fun _ _ _ _ _ ready compiled => ready.compile compiled

/-- The compiler keeps the signatures that it was given. -/
theorem signatures (driven : Driven tables units smooth s) :
    ∃ hosts, tables hosts ∧ s.compiler.hosts = hosts.signatures := by
  refine (driven.compiler_holds
    (motive := fun c => c.Ready ∧ ∃ hosts, tables hosts ∧ c.hosts = hosts.signatures)
    (fun hosts given => ⟨Compiler.ready_new _, hosts, given, rfl⟩)
    (fun c held => ⟨held.1.forgetResult, held.2⟩) fun c program code after kind held compiled =>
    ?_).2
  obtain ⟨top, derivation, -⟩ := Compiler.compile_ok compiled
  obtain ⟨hosts, given, same⟩ := held.2
  exact ⟨held.1.compile compiled, hosts, given, (derivation.grows held.1.tidy).hosts.trans same⟩

/-- With one table, the compiler finds the procedures of the host as the machine does. -/
theorem lookup {hosts : HostTable (StateM σ)} (driven : Driven (· = hosts) units smooth s)
    (name : String) : s.compiler.hosts.lookup name = hosts.signature? name := by
  obtain ⟨_, rfl, same⟩ := driven.signatures
  rw [same, HostTable.lookup_signatures]

/-- The procedures of a session were made from definitions of its units. -/
theorem shelf {allowed : Node → Prop} (driven : Driven tables units smooth s)
    (kinds : ∀ program, units program → Program.Defines allowed program) :
    Shelf allowed s.compiler.hosts s.compiler.procedures s.compiler.library := by
  refine (driven.compiler_holds
    (motive := fun c => c.Ready ∧ Shelf allowed c.hosts c.procedures c.library)
    (fun _ _ => ⟨Compiler.ready_new _, .empty⟩) (fun c held => ⟨held.1.forgetResult, held.2⟩)
    fun c program code after kind held compiled => ?_).2
  obtain ⟨top, derivation, -⟩ := Compiler.compile_ok compiled
  exact ⟨held.1.compile compiled, derivation.shelf held.1 (kinds program kind) held.2⟩

end Driven

end Session

end Primer
