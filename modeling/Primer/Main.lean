import Primer.CommandLine

/-!
The program: the command line on the real terminal and real files.
-/

set_option autoImplicit false
set_option relaxedAutoImplicit false

namespace Primer

/-- The text of a failed operation. -/
def failureText : IO.Error → String
  | .noFileOrDirectory .. => "No such file or directory (os error 2)"
  | .inappropriateType .. => "Is a directory (os error 21)"
  | .permissionDenied .. => "Permission denied (os error 13)"
  | other => toString other

/-- Run an operation, and keep the text of its failure. -/
def attempt {α : Type} (action : IO α) : IO (Except String α) := do
  try return .ok (← action) catch error => return .error (failureText error)

/-- Standard input and output. -/
def standardTerminal : Terminal IO where
  write text := attempt do (← IO.getStdout).putStr text
  flush := attempt do (← IO.getStdout).flush
  readLine := attempt do
    let line ← (← IO.getStdin).getLine
    return if line.isEmpty then none else some line

/-- The real surroundings of the program. Colours are used when the environment asks for them. -/
def standardEnvironment : IO (CommandLine.Environment IO) := do
  return {
    terminal := standardTerminal
    complain := fun text => do (← IO.getStderr).putStr text
    contents := fun file => attempt do return (← IO.FS.readBinFile file).toList
    colored := (← IO.getEnv "CLICOLOR_FORCE").any (· ≠ "0") }

end Primer

/-- The entry point. The fuel is more than any run can use up. -/
def main (arguments : List String) : IO UInt32 := do
  Primer.CommandLine.run (← Primer.standardEnvironment) 0x4000000000000000 arguments
