import Primer.Proofs.Variables

/-!
The types of values in sessions without procedures. Every load finds a value of the type that the
compiler has found for it, and no run ends with a fault. There is one exception: the test of a loop
is executed again after the body, which may leave a result of another type than the statement before
the loop.
-/

set_option autoImplicit false
set_option relaxedAutoImplicit false

namespace Primer

open Interpreter

variable {σ : Type}

/-- A value that was not misread is of the type that was found for it. -/
theorem Reading.typed {program : Program} {before : Compiler} {offset : Nat} {slot : UInt8}
    {locals : Locals} (reading : Reading program before offset slot locals)
    (right : ¬Misreading program before offset locals) :
    ∃ type value, Source program before offset slot type ∧ locals.get? slot = some value ∧
      value.type = type := by
  obtain ⟨type, value, source, filled, typed⟩ := reading
  refine ⟨type, value, source, filled, Decidable.byContradiction fun differs => ?_⟩
  obtain ⟨want, c, rfl, rfl, retested⟩ := typed.resolve_left differs
  exact right ⟨want, c, value, retested, filled, differs⟩

namespace Session

/-- Within a number of turns a run of the unit comes to a load of the result in the test of a loop,
when the result is not of the type of the statement before the loop. -/
def Misreads (s : Session (StateM σ)) (program : Program) (code : Bytecode) (after : Compiler)
    (w : σ) (count : Nat) : Prop :=
  ∃ less m w' offset, less ≤ count ∧
    Machine.Reaches s.hosts less (s.machine.started code) w m w' ∧
    m.ip = after.libraryEnd + offset ∧ Misreading program s.compiler offset m.locals

namespace Driven

variable {hosts : HostTable (StateM σ)} {smooth : Bool} {s : Session (StateM σ)} {program : Program}
  {code : Bytecode} {after : Compiler}

/-- Whatever units without definitions a session was given before: unless the run of the next one
has misread the result in the test of a loop, every load finds a value of the type that was found
for what it stands for, and the run ends normally or with an error that is the program's own. -/
theorem run_typed (driven : Driven (· = hosts) Program.Procedureless smooth s)
    (kind : Program.Procedureless program)
    (compiled : s.compiler.compile program = .ok (code, after))
    (short : code.size < 0x80000000) (w : σ) :
    (∀ count m w' slot, Machine.Reaches hosts count (s.machine.started code) w m w' →
      m.code.Fetches m.ip (.load slot) → s.Misreads program code after w count ∨
        ∃ offset type value, m.ip = after.libraryEnd + offset ∧
          Source program s.compiler offset slot type ∧ m.locals.get? slot = some value ∧
          value.type = type) ∧
    ∀ fuel error s' w', s.run fuel program w = (some (error, s'), w') →
      s.Misreads program code after w fuel ∨ error = none ∨
        ∃ mishap calls, error = some (.machine (.runtime mishap calls)) := by
  obtain rfl : s.hosts = hosts := driven.given
  obtain ⟨⟨memory, corresponds⟩, -⟩ := driven.corresponds
  constructor
  · intro count m w' slot reaches loads
    have prepared := driven.prepared corresponds kind compiled short (count + 1) true
    rcases (prepared.leads w).along reaches with ⟨less, left, w₁, early, reached, arrived⟩ | leads
    · obtain ⟨-, offset, place, misreading⟩ :=
        prepared.left_misreads reached (Nat.lt_succ_of_le early) arrived
      exact .inl ⟨less, left, w₁, offset, early, reached, place, misreading⟩
    rcases leads.passes with arrived | passed
    · obtain ⟨-, offset, place, misreading⟩ :=
        prepared.left_misreads reaches (Nat.lt_succ_self count) arrived
      exact .inl ⟨count, m, w', offset, Nat.le_refl _, reaches, place, misreading⟩
    · obtain ⟨offset, place, reading⟩ := passed.reads slot loads
      by_cases misreading : Misreading program s.compiler offset m.locals
      · exact .inl ⟨count, m, w', offset, Nat.le_refl _, reaches, place, misreading⟩
      · obtain ⟨type, value, source, filled, typed⟩ := Reading.typed reading misreading
        exact .inr ⟨offset, type, value, place, source, filled, typed⟩
  · intro fuel error s' w' done
    rcases driven.run_cases (short_of_compiled compiled short) done with
      ⟨fault, failed, -⟩ | ⟨code', after', last, problem, compiled', ran, rfl, -⟩
    · rw [compiled] at failed
      cases failed
    · rw [compiled] at compiled'
      cases compiled'
      have prepared := driven.prepared corresponds kind compiled short fuel true
      rcases (prepared.leads w).finished ran with ⟨count, left, w₁, fewer, reached, arrived⟩ |
        ⟨-, last, -, mishap, -, -, -, ended⟩ | ⟨outcome, memory', -, concluded, lenient⟩
      · obtain ⟨-, offset, place, misreading⟩ := prepared.left_misreads reached fewer arrived
        exact .inl ⟨count, left, w₁, offset, Nat.le_of_lt fewer, reached, place, misreading⟩
      · cases ended
        exact .inr (.inr ⟨mishap, [], rfl⟩)
      · cases concluded with
        | normal => exact .inr (.inl rfl)
        | mishap => exact .inr (.inr ⟨_, [], rfl⟩)
        | stuck => cases lenient rfl

/-- The result in a loop's test is a boolean at first, and a string after the first round. -/
theorem run_typed_misread : ∃ (s s' : Session (StateM Nat)) (program : Program) (code : Bytecode)
    (after : Compiler) (error : Option SessionError) (w : Nat),
    Driven (· = {}) Program.Procedureless true s ∧ Program.Procedureless program ∧
      s.compiler.compile program = .ok (code, after) ∧ code.size < 0x80000000 ∧
      s.run 20 program 0 = (some (error, s'), w) ∧ error.any SessionError.isInternal = true ∧
      s.Misreads program code after 0 20 := by
  let loops : Program := [.literal (.boolean true), .loop .result [.literal (.string "x")]]
  let s : Session (StateM Nat) := .new {} {}
  obtain ⟨code, after, compiled, short⟩ := exists_of_accepts
    (by decide +kernel : s.accepts loops = true)
  obtain ⟨error, s', w, ran, seen⟩ := exists_of_run (s := s) (a := true)
    (fun (error, _) => error.any SessionError.isInternal)
    (by decide +kernel : (s.run 20 loops 0).1.map _ = _)
  have driven : Driven (· = {}) Program.Procedureless true s := .fresh {} {}
  rcases (driven.run_typed (by decide) compiled short 0).2 20 error s' w ran with
    misreads | rfl | ⟨mishap, calls, rfl⟩
  · exact ⟨s, s', loops, code, after, error, w,
      driven, by decide, compiled, short, ran, seen, misreads⟩
  · cases seen
  · cases seen

end Driven

end Session

end Primer
