import Primer.Machine.Basic

/-!
Runs: steps taken one after another, with host calls performed in between, until the machine
halts or fails. A run need not end, so it is given fuel; without a result the fuel ran out.
-/

set_option autoImplicit false
set_option relaxedAutoImplicit false

namespace Primer

/-- A run that ended: the machine, and the error if it failed. -/
structure Finished where
  machine : Machine
  error : Option MachineError

namespace Machine

variable {μ : Type → Type} [Monad μ]

/-- Take steps until the machine halts or fails; each uses one unit of fuel. -/
@[specialize] def runFrom (hosts : HostTable μ) : Nat → Machine → μ (Option Finished)
  | 0, _ => return none
  | fuel + 1, m =>
    match m.step hosts.signature? with
    | .running m => runFrom hosts fuel m
    | .halted m => return some ⟨m, none⟩
    | .failed error m => return some ⟨m, some error⟩
    | .calling call m => do
      let reply ← (hosts.call? call.name call.arguments).getD (pure (.ok none))
      match m.resume call reply with
      | .failed error m => return some ⟨m, some error⟩
      | .running m | .halted m | .calling _ m => runFrom hosts fuel m

/-- Run from the current instruction on, with a fresh count of steps. -/
def run (hosts : HostTable μ) (fuel : Nat) (m : Machine) : μ (Option Finished) :=
  runFrom hosts fuel { m with steps := 0 }

end Machine

end Primer
