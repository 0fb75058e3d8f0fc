import Primer.Bytecode

/-!
Verification: a buffer that is accepted decodes from start to end, starts with a jump, and has
an instruction at every address that one of its instructions may pass control to.
-/

set_option autoImplicit false
set_option relaxedAutoImplicit false

namespace Primer

/-- Why a buffer is not accepted. -/
inductive VerifyFault where
  | empty
  | missingEntryJump
  | decode (fault : DecodeFault)
  | badTarget (op : Opcode) (offset : Nat) (target : Nat)
deriving DecidableEq

namespace VerifyFault

def offset : VerifyFault → Nat
  | empty | missingEntryJump => 0
  | decode fault => fault.offset
  | badTarget _ offset _ => offset

def message : VerifyFault → String
  | empty => "bytecode is empty"
  | missingEntryJump => "bytecode must start with a jump to its entry point"
  | decode fault => fault.message
  | badTarget op offset target =>
    op.mnemonic ++ " at " ++ toString offset ++ " targets " ++ toString target
      ++ ", which is not an instruction"

end VerifyFault

namespace Bytecode

/-- The first instruction is a jump, if there is one. -/
def Walk.startsWithJump (walk : Walk) : Bool :=
  match walk.instructions with
  | [] | (_, .jump _) :: _ => true
  | _ => false

/-- The first instruction in layout order whose target is no instruction's offset. -/
def Walk.strayTransfer? (walk : Walk) : Option (Nat × Instruction × Nat) :=
  let offsets := walk.instructions.map Prod.fst
  walk.instructions.findSome? fun (offset, instruction) =>
    match instruction.target? with
    | some target => if offsets.contains target then none else some (offset, instruction, target)
    | none => none

/-- The number of instructions of an acceptable buffer. -/
def verify (code : Bytecode) : Except VerifyFault Nat :=
  let walk := code.walk
  if code.size = 0 then
    .error .empty
  else if !walk.startsWithJump then
    .error .missingEntryJump
  else
    match walk.fault, walk.strayTransfer? with
    | some fault, _ => .error (.decode fault)
    | none, some (offset, instruction, target) =>
      .error (.badTarget instruction.opcode offset target)
    | none, none => .ok walk.instructions.length

end Bytecode

end Primer
