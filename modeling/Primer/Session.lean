import Primer.Compiler.Basic
import Primer.Machine.Run

/-!
Sessions: units are compiled and run one after another on one machine. The declarations of a unit
stay only if its code runs to the end.
-/

set_option autoImplicit false
set_option relaxedAutoImplicit false

namespace Primer

inductive SessionError where
  | compile (error : CompileError)
  | machine (error : MachineError)

namespace SessionError

def message : SessionError → String
  | compile error => error.message
  | machine error => error.message

/-- The error is no fault of the program. -/
def isInternal : SessionError → Bool
  | compile error => error.isInternal
  | machine error => error.isFatal

end SessionError

/-- A compiler and a machine that share variables and procedures. -/
structure Session (μ : Type → Type) where
  compiler : Compiler
  machine : Machine
  hosts : HostTable μ
  /-- The code of the last unit that compiled. -/
  last : Option Bytecode := none
  /-- The compiler from before the unit that waits to be run. -/
  checkpoint : Option Compiler := none

namespace Session

variable {μ : Type → Type}

def new (hosts : HostTable μ) (config : Config) : Session μ where
  compiler := .new hosts.signatures
  machine := { config }
  hosts

/-- Compile a unit; its declarations are provisional until its code has run. -/
def compile (s : Session μ) (program : Program) : Except CompileError (Bytecode × Session μ) := do
  let (code, compiler) ← s.compiler.compile program
  return (code, { s with compiler, last := some code, checkpoint := some s.compiler })

/-- The session after a run: a failed one withdraws the provisional declarations, and then the
result is unavailable. -/
def settle (s : Session μ) (finished : Finished) : Session μ :=
  let compiler :=
    match finished.error with
    | none => s.compiler
    | some _ => (s.checkpoint.getD s.compiler).forgetResult
  { s with compiler, machine := finished.machine, checkpoint := none }

/-- Load code and run it; also gives the error if that failed. -/
def execute [Monad μ] (s : Session μ) (fuel : Nat) (code : Bytecode) :
    μ (Option (Option MachineError × Session μ)) :=
  match s.machine.load code with
  | .error error => return some (some error, s.settle ⟨s.machine, some error⟩)
  | .ok machine => do
    let finished ← machine.run s.hosts fuel
    return finished.map fun finished => (finished.error, s.settle finished)

/-- Compile a unit and run it. -/
def run [Monad μ] (s : Session μ) (fuel : Nat) (program : Program) :
    μ (Option (Option SessionError × Session μ)) :=
  match s.compile program with
  | .error error => return some (some (.compile error), s)
  | .ok (code, s) => do
    let finished ← s.execute fuel code
    return finished.map fun (error, s) => (error.map .machine, s)

end Session

end Primer
