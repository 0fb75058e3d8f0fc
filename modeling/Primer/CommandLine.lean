import Primer.Demo
import Primer.Host.Terminal
import Primer.Listing
import Primer.Packed
import Primer.Session

/-!
The command line: runs a packed program, or the demos when no file is named. It works in any
monad that offers a terminal, a place for complaints and files.
-/

set_option autoImplicit false
set_option relaxedAutoImplicit false

namespace Primer.CommandLine

/-- The styles of coloured output. -/
inductive Style where
  | bold
  | dimmed
  | red
  | yellow
  | magenta
  | cyan
  | boldRed
  | boldMagenta
deriving DecidableEq

def Style.code : Style → String
  | bold => "1"
  | dimmed => "2"
  | red => "31"
  | yellow => "33"
  | magenta => "35"
  | cyan => "36"
  | boldRed => "1;31"
  | boldMagenta => "1;35"

/-- The sequence that ends a style. -/
def resetStyle : String := "\x1b[0m"

/-- A text in a style, or as it is when there are no colours. A text that ends styles itself goes
back to its own style. -/
def paint (colored : Bool) (style : Style) (text : String) : String :=
  if colored then
    let start := "\x1b[" ++ style.code ++ "m"
    start ++ Value.join (resetStyle ++ start) (text.splitOn resetStyle) ++ resetStyle
  else
    text

structure Options where
  listing : Bool := false
  compileOnly : Bool := false
  maxSteps : Option Nat := none
  file : Option String := none
deriving DecidableEq

/-- Why a text is no count. -/
inductive CountFault where
  | empty
  | invalidDigit
  | tooLarge
deriving DecidableEq

def CountFault.message : CountFault → String
  | empty => "cannot parse integer from empty string"
  | invalidDigit => "invalid digit found in string"
  | tooLarge => "number too large to fit in target type"

/-- The largest count. -/
def maxCount : Nat := 0xFFFFFFFFFFFFFFFF

/-- Digits added to a count, up to the first that is none or makes it too large. -/
def countDigits : Nat → List Char → Except CountFault Nat
  | n, [] => .ok n
  | n, c :: more =>
    if !c.isDigit then .error .invalidDigit
    else
      let grown := 10 * n + (c.toNat - '0'.toNat)
      if maxCount < grown then .error .tooLarge else countDigits grown more

/-- The count that a text spells, with an optional plus in front. -/
def parseCount : List Char → Except CountFault Nat
  | [] => .error .empty
  | ['+'] => .error .invalidDigit
  | '+' :: digits => countDigits 0 digits
  | digits => countDigits 0 digits

inductive UsageError where
  | missingCount
  | badCount (fault : CountFault)
  | unknownFlag (flag : String)
  | unexpectedArgument (argument : String)
deriving DecidableEq

def UsageError.message : UsageError → String
  | missingCount => "--max-steps needs a number"
  | badCount fault => "--max-steps: " ++ fault.message
  | unknownFlag flag => "unknown flag '" ++ flag ++ "'"
  | unexpectedArgument argument => "unexpected argument '" ++ argument ++ "'"

/-- Read the arguments from left to right, up to the first that is wrong. -/
def parseOptions (options : Options) : List String → Except UsageError Options
  | [] => .ok options
  | "--bc" :: rest | "--bytecode" :: rest => parseOptions { options with listing := true } rest
  | "--no-run" :: rest => parseOptions { options with compileOnly := true } rest
  | "--no-color" :: rest => parseOptions options rest
  | ["--max-steps"] => .error .missingCount
  | "--max-steps" :: count :: rest =>
    match parseCount count.toList with
    | .ok n => parseOptions { options with maxSteps := some n } rest
    | .error fault => .error (.badCount fault)
  | argument :: rest =>
    if argument.startsWith "-" then
      .error (.unknownFlag argument)
    else if options.file.isNone then
      parseOptions { options with file := some argument } rest
    else
      .error (.unexpectedArgument argument)

def usage : String := Value.join "\n"
  ["VeryBasic - bytecode compiler and virtual machine",
    "",
    "Usage:",
    "  verybasic                      Run the demo programs",
    "  verybasic <program.vbast>      Run a postcard-encoded program",
    "",
    "Flags:",
    "  --bc, --bytecode               Print the disassembly before running",
    "  --no-run                       Compile only",
    "  --max-steps <n>                Stop after n instructions",
    "  --no-color                     Plain output",
    "  --help, -h                     Show this help",
    "",
    "Set RUST_LOG=debug to trace compilation and execution.",
    ""]

/-- What the command line needs around it. -/
structure Environment (μ : Type → Type) where
  terminal : Terminal μ
  complain : String → μ Unit
  contents : String → μ (Except String (List UInt8))
  colored : Bool

variable {μ : Type → Type} [Monad μ]

namespace Environment

/-- Write to the terminal; a failure to do so is not reported. -/
def say (env : Environment μ) (text : String) : μ Unit := do
  let _ ← env.terminal.write text

def paint (env : Environment μ) (style : Style) (text : String) : String :=
  CommandLine.paint env.colored style text

/-- Complain about what was asked for. -/
def refuse (env : Environment μ) (reason : String) : μ Unit :=
  env.complain (env.paint .boldRed "error:" ++ " " ++ reason ++ "\n")

/-- Report an error of a unit, with a hint if there is one. -/
def report (env : Environment μ) (error : SessionError) : μ Unit := do
  if error.isInternal then
    env.complain
      (env.paint .boldMagenta "internal error (this is a bug in VeryBasic)" ++ "\n")
    env.complain (env.paint .magenta error.message ++ "\n")
  else
    match error with
    | .machine _ => env.complain (env.paint .red error.message ++ "\n")
    | .compile reason =>
      env.complain (env.paint .yellow error.message ++ "\n")
      if let some hint := reason.hint? then
        env.complain ("  " ++ env.paint .bold "hint:" ++ " " ++ hint ++ "\n")

/-- Compile a unit, list it and run it, as far as the options say; also tells whether all went
well. A run that the fuel does not suffice for did not. -/
def runUnit (env : Environment μ) (options : Options) (fuel : Nat) (session : Session μ)
    (program : Program) : μ (Bool × Session μ) := do
  match session.compile program with
  | .error error =>
    env.report (.compile error)
    return (false, session)
  | .ok (code, session) =>
    if options.listing then
      env.say (Listing.text code session.compiler.labels)
    if options.compileOnly then
      return (true, session)
    match ← session.execute fuel code with
    | none => return (false, session)
    | some (none, session) => return (true, session)
    | some (some error, session) =>
      env.report (.machine error)
      return (false, session)

/-- Run demos one after another in one session; a failure does not stop them. -/
def runDemos (env : Environment μ) (options : Options) (fuel : Nat) :
    Session μ → List Demo → μ Bool
  | _, [] => return true
  | session, demo :: more => do
    env.say ("\n" ++ env.paint .dimmed "──" ++ " " ++ env.paint .cyan demo.title ++ "\n")
    let (fine, session) ← env.runUnit options fuel session demo.program
    return (← env.runDemos options fuel session more) && fine

/-- The program in a file, or what is wrong with it. -/
def loadProgram (env : Environment μ) (file : String) : μ (Except String Program) := do
  match ← env.contents file with
  | .error reason => return .error ("failed to read '" ++ file ++ "': " ++ reason)
  | .ok bytes =>
    match Packed.read bytes with
    | .error fault =>
      return .error ("'" ++ file ++ "' is not a VeryBasic program: " ++ fault.message)
    | .ok program => return .ok program

/-- Do what valid options ask for; also tells whether all went well. -/
def perform (env : Environment μ) (options : Options) (fuel : Nat) : μ Bool := do
  let session := Session.new env.terminal.hosts { maxSteps := options.maxSteps }
  match options.file with
  | none =>
    env.say (env.paint .bold "VeryBasic demo mode" ++ "\n")
    env.runDemos options fuel session Demo.all
  | some file =>
    match ← env.loadProgram file with
    | .error reason =>
      env.refuse reason
      return false
    | .ok program => return (← env.runUnit options fuel session program).1

end Environment

/-- Run the command line on its arguments; gives the exit status. Help goes before everything
else, and colours can be switched off anywhere. -/
def run (env : Environment μ) (fuel : Nat) (arguments : List String) : μ UInt32 := do
  if arguments.contains "--help" || arguments.contains "-h" then
    env.say usage
    return 0
  let env := { env with colored := env.colored && !arguments.contains "--no-color" }
  match parseOptions {} arguments with
  | .error error =>
    env.refuse error.message
    env.say usage
    return 2
  | .ok options => return if ← env.perform options fuel then 0 else 1

end Primer.CommandLine
