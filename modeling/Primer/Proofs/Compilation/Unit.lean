import Primer.Proofs.Compilation.Code
import Primer.Proofs.Compilation.Ownership
import Primer.Proofs.Compilation.Settling

/-!
The compiler from unit to unit. Between two units no block is open and no procedure is being
compiled; the library holds the code of the procedures, each at its address; the slots in use are
distinct; no variable is void, and no two have one name. A unit that compiles keeps all of this, and
one that does not changes nothing.
-/

set_option autoImplicit false
set_option relaxedAutoImplicit false

namespace Primer

open Compile

/-- The code of procedures, one after another in the order of their definitions, each at its
address. -/
inductive Library : List Procedure → Fragment → Prop
  | empty : Library [] []
  | add {procedures : List Procedure} {library : Fragment} {procedure : Procedure} {code : Fragment}
      (before : Library procedures library)
      (address : procedure.address = Compiler.libraryStart + library.size)
      (sound : code.Sound fun target => ∃ other ∈ procedures ++ [procedure], other.address = target)
      (sealed : ¬code.Exits) :
      Library (procedures ++ [procedure]) (library ++ code.shift procedure.address)

namespace Compile

variable {procedure : Procedure} {body : List Node} {code : Fragment}

theorem stores_sound (slots : List UInt8) (callable : Nat → Prop) :
    Fragment.Sound callable (slots.map Instruction.store) := by
  refine ⟨Fragment.straight_closed fun i member => ?_,
    Fragment.uses_of_forall fun i member => ?_⟩ <;> obtain ⟨slot, -, rfl⟩ := List.mem_map.mp member
  · rfl
  · exact ⟨rfl, by simp⟩

theorem procedureCode_eq (procedure : Procedure) (body : List Node) (code : Fragment) :
    procedureCode procedure body code =
      Fragment.sequence [(procedure.params.map (·.slot)).reverse.map Instruction.store, code,
        if Node.blockReturns body then [] else [.ret]] := by
  rw [procedureCode, List.map_reverse, List.map_map]
  rfl

theorem procedureCode_sound {callable : Nat → Prop} (sound : code.Sound callable) :
    (procedureCode procedure body code).Sound callable := by
  rw [procedureCode_eq]
  refine (stores_sound _ _).before (sound.before (.before ?_ .nil))
  cases Node.blockReturns body with
  | true => exact .nil
  | false => exact .single rfl ⟨rfl, by simp⟩

/-- The code of a procedure is not left through its end: either the body always returns, or a return
follows it. -/
theorem procedureCode_sealed (closed : code.Closed)
    (sealed : Node.blockReturns body = true → ¬code.Exits) :
    ¬(procedureCode procedure body code).Exits := by
  rw [procedureCode_eq, Fragment.sequence_cons]
  intro exits
  have rest := (exits.of_append (stores_sound _ (fun _ => True)).closed).2
  rw [Fragment.sequence_cons] at rest
  obtain ⟨through, last⟩ := rest.of_append closed
  cases returns : Node.blockReturns body with
  | true => exact sealed returns through
  | false =>
    rw [returns] at last
    exact Fragment.not_exits_ret last

end Compile

theorem Yields.library_node {n : Node} {want : Option Ty} {c c' : Compiler} {x : Compiled}
    (derivation : Yields (.node n want) c x c') (tidy : c.scope.Tidy)
    (library : Library c.procedures c.library) : Library c'.procedures c'.library := by
  cases introduces : n.introduces with
  | false =>
    have steady := (derivation.growth tidy).2 introduces
    rw [steady.procedures, steady.library]
    exact library
  | true =>
    cases derivation with
    | declare fresh allocated initial typed =>
      obtain ⟨slots, -, rfl⟩ := allocate_ok allocated
      have steady := (initial.growth tidy).2 trivial
      rw [steady.procedures, steady.library]
      exact library
    | define started inner finished =>
      obtain ⟨outside, -, -, parameters, slots, -, -, rfl⟩ := startDraft_ok started
      obtain ⟨draft, entry, -, -, -, rfl⟩ := finishDraft_ok finished
      have steady := (inner.growth tidy).2 trivial
      have inside := (Compiler.draft_of_current steady.current).trans entry
      have address : draft.address = c.libraryEnd := by
        have kept := steady.draft
        simp only [inside, Compiler.draft_mk_some] at kept
        exact kept.address
      have sound := (inner.sound tidy).mono fun target callable => by
        have known : ∃ other ∈ c.procedures ++ [draft.finish], other.address = target := by
          rcases callable with ⟨other, member, same⟩ | ⟨later, still, same⟩
          · rw [steady.procedures] at member
            exact ⟨other, List.mem_append_left _ member, same⟩
          · obtain rfl : draft = later := Option.some.inj (inside.symm.trans still)
            exact ⟨draft.finish, List.mem_append_right _ List.mem_cons_self, same⟩
        exact known
      rw [steady.procedures, steady.library]
      exact .add library address (procedureCode_sound sound)
        (procedureCode_sealed sound.closed (inner.sealed tidy))
    | _ => cases introduces

theorem Yields.library {nodes : List Node} {c c' : Compiler} {x : Compiled}
    (derivation : Yields (.statements nodes) c x c') (tidy : c.scope.Tidy)
    (library : Library c.procedures c.library) : Library c'.procedures c'.library := by
  induction nodes generalizing c x with
  | nil =>
    cases derivation
    exact library
  | cons n more ih =>
    cases derivation with
    | moreStatements first finished rest =>
      have settled := finishStatement_steady finished
      have added := first.library_node tidy library
      refine ih rest (settled.grows.of_prior.tidy (first.tidy tidy)) ?_
      rw [show _ = _ from settled.procedures, show _ = _ from settled.library]
      exact added

namespace Compiler

/-- The state of the compiler between two units. -/
structure Ready (c : Compiler) : Prop where
  top : c.scope.depth = 0
  noScratch : c.scope.scratch = []
  tidy : c.scope.Tidy
  current : c.current = none
  library : Library c.procedures c.library
  accounts : c.slots.Accounts c.owned
  proper : c.scope.Proper

theorem Ready.outside {c : Compiler} (ready : c.Ready) : c.draft = none :=
  draft_outside ready.current

theorem ready_new (hosts : List (String × Signature)) : (new hosts).Ready :=
  ⟨rfl, rfl, ⟨by simp [new], by simp [new]⟩, rfl, .empty, .new, ⟨by simp [new], by simp [new]⟩⟩

theorem Ready.forgetResult {c : Compiler} (ready : c.Ready) : c.forgetResult.Ready :=
  ⟨ready.top, ready.noScratch, ready.tidy, ready.current, ready.library, ready.accounts,
    ready.proper⟩

/-- A unit that compiles has a derivation, and its code is assembled with the library. -/
theorem compile_ok {c c' : Compiler} {program : Program} {code : Bytecode}
    (done : c.compile program = .ok (code, c')) :
    ∃ top, Yields (.statements program) c ⟨none, top⟩ c' ∧
      code = c'.assemble (top ++ [Instruction.ret]) := by
  unfold compile at done
  cases compiled : (Compile.statements program).run c with
  | error fault =>
    rw [compiled] at done
    cases done
  | ok found =>
    obtain ⟨parts, after⟩ := found
    rw [compiled] at done
    cases done
    exact ⟨Fragment.sequence parts, Task.yields (joined_eq_ok.mpr ⟨parts, compiled, rfl⟩), rfl⟩

theorem Ready.yields {c c' : Compiler} {program : Program} {x : Compiled} (ready : c.Ready)
    (derivation : Yields (.statements program) c x c') : c'.Ready := by
  have grows := derivation.grows ready.tidy
  exact ⟨grows.depth.trans ready.top, grows.scratch.trans ready.noScratch, grows.tidy ready.tidy,
    grows.current.trans ready.current, derivation.library ready.tidy ready.library,
    derivation.balanced ready.tidy [] ready.accounts,
    derivation.variables ready.tidy trivial ready.proper⟩

theorem Ready.compile {c c' : Compiler} {program : Program} {code : Bytecode} (ready : c.Ready)
    (done : c.compile program = .ok (code, c')) : c'.Ready := by
  obtain ⟨top, derivation, -⟩ := compile_ok done
  exact ready.yields derivation

/-- The compiler after units were given to it, one after another. One that does not compile is
passed over. -/
def after (c : Compiler) : List Program → Compiler
  | [] => c
  | program :: more =>
    match c.compile program with
    | .ok (_, next) => next.after more
    | .error _ => c.after more

theorem Ready.after {c : Compiler} (ready : c.Ready) (programs : List Program) :
    (c.after programs).Ready := by
  induction programs generalizing c with
  | nil => exact ready
  | cons program more ih =>
    rw [Compiler.after]
    cases compiled : c.compile program with
    | error fault => exact ih ready
    | ok found => exact ih (ready.compile compiled)

/-- The states of a compiler between units. A unit that does not compile leaves the state as it was,
and the result of the last statement may be made unavailable. -/
inductive Reached (hosts : List (String × Signature)) : Compiler → Prop
  | new : Reached hosts (new hosts)
  | compile {c c' : Compiler} {program : Program} {code : Bytecode} (before : Reached hosts c)
      (done : c.compile program = .ok (code, c')) : Reached hosts c'
  | forgetResult {c : Compiler} (before : Reached hosts c) : Reached hosts c.forgetResult

theorem Reached.ready {hosts : List (String × Signature)} {c : Compiler}
    (reached : Reached hosts c) : c.Ready := by
  induction reached with
  | new => exact ready_new hosts
  | compile _ done ih => exact ih.compile done
  | forgetResult _ ih => exact ih.forgetResult

theorem Reached.after {hosts : List (String × Signature)} {c : Compiler} (reached : Reached hosts c)
    (programs : List Program) : Reached hosts (c.after programs) := by
  induction programs generalizing c with
  | nil => exact reached
  | cons program more ih =>
    rw [Compiler.after]
    cases compiled : c.compile program with
    | error fault => exact ih reached
    | ok found => exact ih (reached.compile compiled)

end Compiler

end Primer
