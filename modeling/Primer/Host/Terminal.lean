import Primer.Host.Table
import Primer.Text.Blank

/-!
The procedures that every program has: `print` writes a line and `ask` reads one. They need a
terminal; `Console` is a terminal kept in memory.
-/

set_option autoImplicit false
set_option relaxedAutoImplicit false

namespace Primer

/-- What `print` and `ask` need. Failures come as texts; no line means that the input has ended. -/
structure Terminal (μ : Type → Type) where
  write : String → μ (Except String Unit)
  flush : μ (Except String Unit)
  readLine : μ (Except String (Option String))

namespace Terminal

variable {μ : Type → Type} [Monad μ]

/-- Write one string as a line. -/
def print (terminal : Terminal μ) : List Value → μ HostReply
  | [.string text] => do
    match ← terminal.write (text ++ "\n") with
    | .ok _ => return .ok none
    | .error reason => return .error ("print failed: " ++ reason)
  | _ => return .error "print expects one string"

/-- Write one string as a prompt, and read a line, without the line end. -/
def ask (terminal : Terminal μ) : List Value → μ HostReply
  | [.string prompt] => do
    let failed (reason : String) : HostReply := .error ("ask failed: " ++ reason)
    match ← terminal.write (prompt ++ " ") with
    | .error reason => return failed reason
    | .ok _ =>
      match ← terminal.flush with
      | .error reason => return failed reason
      | .ok _ =>
        match ← terminal.readLine with
        | .error reason => return failed reason
        | .ok none => return .error "ask: there is no more input to read"
        | .ok (some line) =>
          let content := Text.dropRightWhile (fun c => c = '\r' ∨ c = '\n') line.toList
          return .ok (some (.string (String.ofList content)))
  | _ => return .error "ask expects one string"

/-- The host procedures over a terminal. -/
def hosts (terminal : Terminal μ) : HostTable μ :=
  (({} : HostTable μ).register "print" ⟨⟨[.string], .void⟩, terminal.print⟩).register "ask"
    ⟨⟨[.string], .string⟩, terminal.ask⟩

end Terminal

/-- A terminal in memory: what was written, what is still to be read, how many more bytes may be
written, and whether flushing fails. -/
structure Console where
  output : ByteArray := .empty
  input : List UInt8 := []
  room : Option Nat := none
  flushRefused : Bool := false

namespace Console

/-- Write as many bytes as there is room for; it is a failure if some are left over. -/
def write (text : String) (console : Console) : Except String Unit × Console :=
  let bytes := text.toUTF8
  match console.room with
  | none => (.ok (), { console with output := console.output ++ bytes })
  | some room =>
    let written := bytes.extract 0 room
    let after :=
      { console with output := console.output ++ written, room := some (room - written.size) }
    (if bytes.size ≤ room then .ok () else .error "no room left", after)

def flush (console : Console) : Except String Unit × Console :=
  (if console.flushRefused then .error "flush refused" else .ok (), console)

/-- Split a line with its line feed from the bytes that follow it. -/
def splitLine (bytes : List UInt8) : List UInt8 × List UInt8 :=
  match bytes.span (· ≠ 10) with
  | (line, newline :: rest) => (line ++ [newline], rest)
  | (line, []) => (line, [])

/-- Read a line; the input is used up even if it is no valid text. -/
def readLine (console : Console) : Except String (Option String) × Console :=
  if console.input.isEmpty then
    (.ok none, console)
  else
    let (line, rest) := splitLine console.input
    let reply :=
      match String.fromUTF8? ⟨line.toArray⟩ with
      | some text => .ok (some text)
      | none => .error "stream did not contain valid UTF-8"
    (reply, { console with input := rest })

/-- The console as a terminal. -/
def terminal : Terminal (StateM Console) where
  write text := modifyGet (write text)
  flush := modifyGet flush
  readLine := modifyGet readLine

end Console

end Primer
