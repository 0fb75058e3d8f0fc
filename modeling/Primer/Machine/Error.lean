import Primer.Verification

/-!
How a run can fail. A fault means that the code broke the machine's rules; a mishap comes from
the program's data, from the host or from a limit, and is told together with the active calls.
-/

set_option autoImplicit false
set_option relaxedAutoImplicit false

namespace Primer

/-- At least four digits. -/
def fourDigits (n : Nat) : String :=
  let digits := Nat.toDigits 10 n
  String.ofList (List.replicate (4 - digits.length) '0' ++ digits)

/-- Code that breaks the machine's rules. -/
inductive Fault where
  | underflow
  | wrongType (expected found : Ty)
  | emptySlot (slot : UInt8)
  | noConversion (source target : Ty)
  | jumpOutOfRange (target : Nat)
  | badReturn (address : Nat)
  | unknownHost (name : String)
  | undecodable (fault : DecodeFault)
  | rejected (fault : VerifyFault)
deriving DecidableEq

def Fault.message : Fault → String
  | underflow => "operand stack underflow"
  | wrongType expected found =>
    "expected " ++ expected.describe ++ " on the stack, found " ++ found.describe
  | emptySlot slot => "load from empty slot " ++ toString slot.toNat
  | noConversion source target => "cannot convert " ++ source.name ++ " to " ++ target.name
  | jumpOutOfRange target => "jump to " ++ toString target ++ " is out of range"
  | badReturn address => "bad return address " ++ toString address
  | unknownHost name => "unknown extern '" ++ name ++ "'"
  | undecodable fault => fault.message
  | rejected fault => "rejected bytecode: " ++ fault.message

/-- Trouble with data, with the host or with a limit. -/
inductive Mishap where
  | stepLimit (limit : Nat)
  | stackLimit (limit : Nat)
  | callDepth (limit : Nat)
  | conversion (failure : ConversionFailure)
  | noItem (index : Number) (length : Nat)
  | itemType (index : Number) (found expected : Ty)
  | hostFailed (name reason : String)
  | hostReturned (name : String) (found expected : Ty)
  | hostSilent (name : String) (expected : Ty)

def Mishap.message : Mishap → String
  | stepLimit limit => "execution step limit exceeded (" ++ toString limit ++ ")"
  | stackLimit limit => "stack size limit exceeded (" ++ toString limit ++ ")"
  | callDepth limit =>
    "call depth limit exceeded (" ++ toString limit ++ ") - possible infinite recursion"
  | conversion failure => failure.message
  | noItem index length =>
    "there is no item #" ++ index.text ++ " in a list of " ++ toString length ++ " item(s)"
  | itemType index found expected =>
    "item #" ++ index.text ++ " is " ++ found.describe ++ ", not " ++ expected.describe
  | hostFailed name reason => name ++ ": " ++ reason
  | hostReturned name found expected =>
    "'" ++ name ++ "' gave back " ++ found.describe ++ " instead of " ++ expected.describe
  | hostSilent name expected =>
    "'" ++ name ++ "' gave back nothing instead of " ++ expected.describe

/-- Why a run failed: a fault at an offset, or a mishap with the return addresses of the active
calls, innermost last. -/
inductive MachineError where
  | fatal (fault : Fault) (offset : Nat)
  | runtime (mishap : Mishap) (calls : List Nat)

namespace MachineError

def isFatal : MachineError → Bool
  | fatal .. => true
  | runtime .. => false

/-- The active calls, innermost first. -/
def callsText (calls : List Nat) : String :=
  if calls.isEmpty then
    ""
  else
    let lines := calls.reverse.zipIdx.map fun (address, i) =>
      "\n    " ++ toString i ++ ": returning to " ++ fourDigits address
    "\n  call stack:" ++ Value.join "" lines

def message : MachineError → String
  | fatal fault offset => "fatal error at " ++ toString offset ++ ": " ++ fault.message
  | runtime mishap calls => "runtime error: " ++ mishap.message ++ callsText calls

end MachineError

end Primer
