import Primer.Encoding
import Primer.Node

/-!
What the compiler refuses and how it says so. A message about a type names the role that the
expression plays. `internal` stands for a fault of the compiler itself, the others for faults of
the program.
-/

set_option autoImplicit false
set_option relaxedAutoImplicit false

namespace Primer

/-- The part that an expression or statement plays where a fault is found. -/
inductive Role where
  | negation
  | inversion
  | operand (op : BinaryOp)
  | leftOf (op : BinaryOp)
  | rightOf (op : BinaryOp)
  | sidesOf (op : BinaryOp)
  | converted
  | argument (position : Nat) (procedure : String)
  | listItem (position : Nat)
  | indexedList
  | index
  | someItem
  | thisItem
  | initialValue (name : String)
  | named (name : String)
  | newValue (name : String)
  | setIndex
  | newItem
  | ifCondition
  | whileCondition
  | repeatCount
  | givenBack (procedure : String)
  | returnFrom (procedure : String)
  | recursiveCall (procedure : String)
  | statement (kind : String)
deriving DecidableEq

/-- A name or symbol between single quotes. -/
def singleQuoted (s : String) : String := "'" ++ s ++ "'"

def Role.phrase : Role → String
  | negation => "negation"
  | inversion => singleQuoted "not"
  | operand op => singleQuoted op.symbol
  | leftOf op => "the left side of " ++ singleQuoted op.symbol
  | rightOf op => "the right side of " ++ singleQuoted op.symbol
  | sidesOf op => "the two sides of " ++ singleQuoted op.symbol
  | converted => "the value being converted"
  | argument position procedure =>
    "argument " ++ toString position ++ " of " ++ singleQuoted procedure
  | listItem position => "item " ++ toString position ++ " of the list"
  | indexedList => "the list in '#... of'"
  | index => "the position in '#... of'"
  | someItem => "a list item"
  | thisItem => "this list item"
  | initialValue name => "the value for " ++ singleQuoted name
  | named name => singleQuoted name
  | newValue name => "the new value of " ++ singleQuoted name
  | setIndex => "the position in 'set #...'"
  | newItem => "the new item"
  | ifCondition => "the condition of 'if'"
  | whileCondition => "the condition of 'while'"
  | repeatCount => "the count of 'repeat'"
  | givenBack procedure => "the value " ++ singleQuoted procedure ++ " gives back"
  | returnFrom procedure => "return from " ++ singleQuoted procedure
  | recursiveCall procedure => "the recursive call to " ++ singleQuoted procedure
  | statement kind => "the value of this " ++ kind

/-- The constructs that are refused in some places. -/
inductive Misplaced where
  | definition
  | giveBack
  | setItem
deriving DecidableEq

def Misplaced.phrase : Misplaced → String
  | definition =>
    "procedure definitions must be at the top level, not inside a block or another procedure"
  | giveBack => "return can only be used inside a procedure"
  | setItem => "setting a list item needs a variable holding the list"

/-- Faults of the compiler itself. -/
inductive InternalFault where
  | voidInlined
  | nothingToSettle (kind : String)
  | recursionOutside
  | noParameter (position : Nat)
  | vanished (procedure : String)
deriving DecidableEq

def InternalFault.phrase : InternalFault → String
  | voidInlined => "void values cannot be inlined"
  | nothingToSettle kind => "no open type to settle on a " ++ kind
  | recursionOutside => "recursive call outside a procedure"
  | noParameter position => "no parameter #" ++ toString position
  | vanished procedure => "procedure " ++ singleQuoted procedure ++ " vanished"

inductive CompileError where
  | unknownVariable (name : String)
  | unknownProcedure (name : String)
  | typeMismatch (role : Role) (expected found : Ty)
  | arityMismatch (name : String) (expected found : Nat)
  | redefinition (name : String)
  | alreadyDeclared (name : String)
  | unresolvedParameter (procedure param : String)
  | notEnoughInformation (role : Role)
  | noPriorResult
  | noValue (role : Role)
  | invalidPosition (construct : Misplaced)
  | invalidConversion (source target : Ty)
  | missingReturn (procedure : String) (type : Ty)
  | tooManySlots
  | tooLarge (what : Sequence) (length : Nat)
  | internal (fault : InternalFault)
deriving DecidableEq

namespace CompileError

/-- An operand that has no encoded form. -/
def ofEncodeFault : EncodeFault → CompileError
  | .void => internal .voidInlined
  | .tooLong what length => tooLarge what length

/-- What the error says, without the words that announce it. -/
def phrase : CompileError → String
  | unknownVariable name => "you never said what " ++ singleQuoted name ++ " was"
  | unknownProcedure name => "I don't know how to " ++ name
  | typeMismatch role expected found =>
    role.phrase ++ ": expected " ++ expected.describe ++ ", got " ++ found.describe
  | arityMismatch name expected found =>
    singleQuoted name ++ " takes " ++ toString expected ++ " argument(s), but "
      ++ toString found ++ " were given"
  | redefinition name => "you already told me how to " ++ name
  | alreadyDeclared name => "there is already something called " ++ singleQuoted name
  | unresolvedParameter procedure param =>
    "not enough information to know what " ++ singleQuoted param ++ " of "
      ++ singleQuoted procedure ++ " is"
  | notEnoughInformation role => "not enough information to know what " ++ role.phrase ++ " is"
  | noPriorResult => "the prior statement didn't result in anything"
  | noValue role => role.phrase ++ " doesn't give back anything to use"
  | invalidPosition construct => construct.phrase
  | invalidConversion source target =>
    "I can't turn " ++ source.describe ++ " into " ++ target.describe
  | missingReturn procedure type =>
    singleQuoted procedure ++ " might finish without giving back " ++ type.describe
  | tooManySlots => "too many variables are alive at once (at most 255)"
  | tooLarge what length => (EncodeFault.tooLong what length).message
  | internal fault => "internal error: " ++ fault.phrase

def message (error : CompileError) : String := "compile error: " ++ error.phrase

def isInternal : CompileError → Bool
  | internal _ => true
  | _ => false

/-- What to try, for the errors that often have one remedy. -/
def hint? : CompileError → Option String
  | unknownVariable _ => some "declare it first: variable name, a number, from 0"
  | unresolvedParameter .. => some "give the parameter a type: given x, a number"
  | notEnoughInformation _ =>
    some "use it where its type is clear, or convert it explicitly"
  | missingReturn .. => some "end every path of the procedure with a return"
  | invalidConversion .. =>
    some ("numbers and booleans convert to strings; strings convert to numbers and booleans")
  | _ => none

end CompileError

end Primer
