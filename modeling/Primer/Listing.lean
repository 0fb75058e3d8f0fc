import Primer.Machine.Error
import Primer.Slots

/-!
Listings: bytecode written out one instruction a line, with its offset, a mark where a jump
leads, and a heading where a procedure or the top-level code starts.
-/

set_option autoImplicit false
set_option relaxedAutoImplicit false

namespace Primer.Listing

/-- A line across the page. -/
def rule : String := "════════════════════════════════════════"

/-- The line above an instruction that a jump leads to. -/
def landing : String := "      ┌──────────────────────────────────"

/-- A text filled up with blanks. -/
def padded (width : Nat) (s : String) : String :=
  s ++ String.ofList (List.replicate (width - s.length) ' ')

/-- The operand of an instruction at an offset. Addresses show whether they lie before or after
it, and slot 0 says what it is. -/
def operand? (offset : Nat) : Instruction → Option String
  | .jump target | .jumpIf target | .call target =>
    some ((if target ≤ offset then "↑ " else "↓ ") ++ fourDigits target)
  | .push value => some value.quoted
  | .load slot | .store slot | .free slot =>
    some (if slot = resultSlot then toString slot.toNat ++ "  ; the result"
      else toString slot.toNat)
  | .convert type | .getItem type => some type.name
  | .callHost name => some name
  | .makeList count => some (toString count.toNat)
  | _ => none

/-- An instruction: its mnemonic, and its operand in a column of its own. -/
def instruction (offset : Nat) (i : Instruction) : String :=
  match operand? offset i with
  | some operand => padded 12 i.opcode.mnemonic ++ operand
  | none => i.opcode.mnemonic

/-- The address that a jump leads to; a call is no jump. -/
def jumpTarget? : Instruction → Option Nat
  | .jump target | .jumpIf target => some target
  | _ => none

/-- The name above the instruction at an offset. -/
def heading? (labels : List (Nat × String)) (entry : Option Nat) (offset : Nat) : Option String :=
  match labels.lookup offset with
  | some name => some name
  | none => if entry = some offset then some "top level" else none

/-- The lines of one instruction. -/
def entryLines (labels : List (Nat × String)) (entry : Option Nat) (targets : List Nat)
    (offset : Nat) (i : Instruction) : List String :=
  let heading :=
    match heading? labels entry offset with
    | some name => ["", " " ++ name ++ ":"]
    | none => []
  let body :=
    if targets.contains offset then
      [landing, fourDigits offset ++ " ► " ++ instruction offset i]
    else
      [fourDigits offset ++ "   " ++ instruction offset i]
  heading ++ body

/-- The lines above the instructions. -/
def header (code : Bytecode) (entry : Option Nat) : List String :=
  let start :=
    match entry with
    | some entry => "entry at " ++ fourDigits entry
    | none => "no entry jump"
  [rule, " bytecode", " " ++ toString code.size ++ " bytes, " ++ start, rule]

/-- The line of the fault that ends a listing. -/
def faultLine (fault : DecodeFault) : String :=
  fourDigits fault.offset ++ "   <" ++ fault.message ++ ">"

/-- The lines of a listing. -/
def lines (code : Bytecode) (labels : List (Nat × String)) : List String :=
  let entry := code.entryPoint.toOption
  let walk := code.walk
  let targets := walk.instructions.filterMap fun (_, i) => jumpTarget? i
  let body := walk.instructions.flatMap fun (offset, i) => entryLines labels entry targets offset i
  header code entry ++ body ++ (walk.fault.map faultLine).toList

/-- Bytecode written out, with names for some of its addresses. -/
def text (code : Bytecode) (labels : List (Nat × String)) : String :=
  Value.join "" ((lines code labels).map (· ++ "\n"))

end Primer.Listing
