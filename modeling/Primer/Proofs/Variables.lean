import Primer.Proofs.ControlFlow
import Primer.Proofs.Execution.Course

/-!
Variables in sessions without procedures. The compiler forgets what a failed unit has declared,
while the machine keeps what was stored until the failure. Still every variable that the compiler
knows is filled with a value of its type, and so is the result if there is one. As long as no unit
fails on the machine, nothing else is filled.
-/

set_option autoImplicit false
set_option relaxedAutoImplicit false

namespace Primer

open Interpreter

variable {σ : Type}

theorem Shelf.eq_nil {hosts : List (String × Signature)} {procedures : List Procedure}
    {library : Fragment} (shelf : Shelf (fun _ => False) hosts procedures library) :
    procedures = [] := by
  cases shelf with
  | empty => rfl
  | add before m kind => exact kind.elim

theorem Program.Procedureless.defines {program : Program} (none : Program.Procedureless program) :
    Program.Defines (fun _ => False) program := by
  intro name params returns body member
  cases none _ member

/-- The machine's values of the variables are what an interpreter may remember. -/
theorem Corresponds.of_held {c : Compiler} {locals : Locals}
    {entries : List (String × Value)} (held : Held locals c.scope.bindings entries) :
    Corresponds c.forgetResult locals ⟨⟨entries, locals.get? resultSlot⟩, .void⟩ :=
  ⟨⟨held, rfl⟩, rfl, fun filled => absurd rfl filled⟩

namespace Session

variable {hosts : HostTable (StateM σ)} {smooth : Bool} {s : Session (StateM σ)}

/-- Nothing is filled but what the compiler knows. -/
def Clean (s : Session (StateM σ)) : Prop :=
  ∀ slot, slot ≠ resultSlot → slot ∉ s.compiler.scope.slots → s.machine.locals.get? slot = none

namespace Driven

theorem plain (driven : Driven (· = hosts) Program.Procedureless smooth s) :
    s.compiler.Plain hosts :=
  ⟨driven.ready.outside, (driven.shelf fun _ => Program.Procedureless.defines).eq_nil,
    driven.lookup⟩

/-- A unit of a session without procedures can be run. -/
theorem prepared (driven : Driven (· = hosts) Program.Procedureless smooth s) {memory : Memory}
    (corresponds : Corresponds s.compiler s.machine.locals memory) {program : Program}
    (kind : Program.Procedureless program) {code : Bytecode} {after : Compiler}
    (compiled : s.compiler.compile program = .ok (code, after)) (short : code.size < 0x80000000)
    (rounds : Nat) (strict : Bool) :
    Prepared ⟨hosts, rounds, strict⟩ program s.compiler after code s.machine memory :=
  ⟨driven.ready, driven.plain, compiled, kind, short, driven.idle, corresponds⟩

/-- The variables of a session correspond to what an interpreter may remember, and if no unit has
failed on the machine nothing else is filled. -/
theorem corresponds (driven : Driven (· = hosts) Program.Procedureless smooth s) :
    (∃ memory, Corresponds s.compiler s.machine.locals memory) ∧ (smooth = true → s.Clean) := by
  induction driven with
  | new given config =>
    refine ⟨⟨{}, ⟨trivial, Locals.get?_empty _⟩, rfl, fun filled => absurd rfl filled⟩, ?_⟩
    exact fun _ slot _ _ => Locals.get?_empty slot
  | @run smooth s s' table fuel program error w w' before given kind short done ih =>
    obtain ⟨⟨memory, corresponds⟩, clean⟩ := ih
    subst given
    rcases before.run_cases short done with
      ⟨fault, -, rfl, rfl, -⟩ | ⟨code, after, last, problem, compiled, ran, rfl, rfl⟩
    · exact ⟨⟨memory, corresponds⟩, fun all => clean (Bool.and_eq_true_iff.mp all).1⟩
    have prepared := before.prepared corresponds kind compiled (short _ _ compiled) fuel false
    rcases prepared.finished ran with ⟨mishap, entries, rfl, held⟩ | ⟨outcome, memory', concluded⟩
    · exact ⟨⟨_, .of_held held⟩, fun all => by simp [SessionError.onMachine] at all⟩
    cases concluded with
    | normal config corresponds' keeps =>
      refine ⟨⟨memory', corresponds'⟩, fun all slot other outside => ?_⟩
      obtain ⟨top, derivation, -⟩ := Compiler.compile_ok compiled
      have grown := (derivation.grows before.ready.tidy).slots_subset
      have empty :=
        clean (Bool.and_eq_true_iff.mp all).1 slot other fun used => outside (grown used)
      exact keeps.empty slot other outside empty
    | mishap config corresponds' | stuck config corresponds' =>
      exact ⟨⟨memory', corresponds'⟩, fun all => by simp [SessionError.onMachine] at all⟩

/-- Whatever units without definitions a session was given, and however they ended: every variable
that the compiler knows is filled with a value of its type, and so is the result if there is one. If
no unit has failed on the machine, the slots of all others are empty. -/
theorem variables_filled (driven : Driven (· = hosts) Program.Procedureless smooth s) :
    (∀ name found, s.compiler.scope.find? name = some found →
      ∃ value, s.machine.locals.get? found.slot = some value ∧ value.type = found.type) ∧
    (s.compiler.prior ≠ .void →
      ∃ value, s.machine.locals.get? resultSlot = some value ∧ value.type = s.compiler.prior) ∧
    (smooth = true → ∀ slot, slot ≠ resultSlot →
      (∀ name found, s.compiler.scope.find? name = some found → found.slot ≠ slot) →
      s.machine.locals.get? slot = none) := by
  obtain ⟨⟨memory, corresponds⟩, clean⟩ := driven.corresponds
  refine ⟨fun name found known => ?_, corresponds.typed, fun all slot other unused => ?_⟩
  · obtain ⟨value, -, filled, typed, -⟩ := corresponds.agrees.find known
    exact ⟨value, filled, typed⟩
  · refine clean all slot other fun used => ?_
    rw [Scope.slots, driven.ready.noScratch, List.map_nil, List.append_nil] at used
    obtain ⟨⟨name, found⟩, member, same⟩ := List.mem_map.mp used
    exact unused name found (driven.ready.proper.find? member) same

/-- A session in which the body of a loop has a variable of its own, which is unknown afterwards. -/
theorem variables_filled_loop :
    ∃ (s : Session (StateM Nat)) (found : Variable) (value result : Value),
    Driven (· = {}) Program.Procedureless true s ∧ s.compiler.scope.find? "go" = some found ∧
      s.machine.locals.get? found.slot = some value ∧ value.type = found.type ∧
      s.compiler.prior = .number ∧ s.machine.locals.get? resultSlot = some result ∧
      result.type = .number ∧
      ∀ slot, slot ≠ resultSlot →
        (∀ name found, s.compiler.scope.find? name = some found → found.slot ≠ slot) →
        s.machine.locals.get? slot = none := by
  let loops : Program := [.declare "go" none (some (.literal (.boolean true))),
    .loop (.var "go") [.declare "y" none (some (.literal (.string "a"))),
      .assign "go" (.literal (.boolean false))],
    .literal (.number .one)]
  let unknown : Program := [.var "y"]
  let first : Session (StateM Nat) := .new {} {}
  obtain ⟨error, second, w, ran, seen⟩ := exists_of_run (s := first)
    (a := (false, false, some (false, .number, true)))
    (fun (error, s) => (SessionError.onMachine error, (s.compiler.compile unknown).toOption.isSome,
      (s.run 1 unknown 0).1.map fun (error, s) =>
        (SessionError.onMachine error, s.compiler.prior, (s.compiler.scope.find? "go").isSome)))
    (by decide +kernel : (first.run 50 loops 0).1.map _ = _)
  simp only [Prod.mk.injEq] at seen
  obtain ⟨smooth, refused, rest⟩ := seen
  obtain ⟨error', third, w', ran', seen⟩ := exists_of_run (s := second) _ rest
  simp only [Prod.mk.injEq] at seen
  obtain ⟨smooth', prior, visible⟩ := seen
  obtain ⟨found, known⟩ := Option.isSome_iff_exists.mp visible
  have short : ∀ code after, second.compiler.compile unknown = .ok (code, after) →
      code.size < 0x80000000 := by
    intro code after compiled
    rw [compiled] at refused
    cases refused
  have begun : Driven (· = {}) Program.Procedureless true first := .fresh {} {}
  have once := begun.again (by decide) (short_of_accepts (by decide +kernel)) ran
  have twice := once.again (by decide) short ran'
  rw [smooth, smooth'] at twice
  obtain ⟨visible, result, others⟩ := twice.variables_filled
  obtain ⟨value, filled, typed⟩ := visible "go" found known
  obtain ⟨last, stored, same⟩ := result (by rw [prior]; decide)
  exact ⟨third, found, value, last, twice, known, filled, typed, prior, stored, same.trans prior,
    others rfl⟩

end Driven

end Session

end Primer
