/-
  Lox.Main

  The program.  Commands are pure; what is done here is reading the file and the
  clock, writing, and trying again with more of what ran out.
-/
import Std.Time.DateTime.Timestamp
import Lox.CommandLine.Outcome

namespace Lox.Program

/-- The cause of a failing file operation.  The system tells some causes apart by
    their numbers only. -/
def faultOf : IO.Error → FileFault
  | .inappropriateType _ 20 _ => .notDirectory
  | .inappropriateType .. => .isDirectory
  | .invalidArgument _ 36 _ => .nameTooLong
  | .permissionDenied .. => .denied
  | _ => .missing

/-- What there is under a path. -/
def stateOf (path : String) : IO FileState := do
  match ← (IO.FS.Handle.mk path .read).toBaseIO with
  | .error e => return .unopened (faultOf e)
  | .ok handle =>
    match ← handle.readBinToEnd.toBaseIO with
    | .error e => return .unread (faultOf e)
    | .ok bytes => return .content bytes

/-- The time since the Unix epoch, in seconds. -/
def now : IO Float := do
  let millis := (← Std.Time.Timestamp.now).toMillisecondsSinceUnixEpoch.toInt
  return Float.ofInt millis / 1000.0

/-- Writes what of a text comes after its first `shown` bytes, and gives its size. -/
def showFrom (shown : Nat) (text : String) : IO Nat := do
  let bytes := text.toUTF8
  let stdout ← IO.getStdout
  stdout.write (bytes.extract shown bytes.size)
  stdout.flush
  return bytes.size

/-- Performs a command.  Its output is written as far as it came, and it starts over
    when it waits for a reading of the clock or a bound was too low. -/
partial def attempt (command : Command) (state : FileState) (readings : Array Float)
    (fuel shown : Nat) : IO UInt32 := do
  match command.perform ⟨fun n => readings[n]?, fuel⟩ fun _ => state with
  | .ok o =>
    let _ ← showFrom shown o.stdout
    IO.eprint o.stderr
    return UInt32.ofNat o.exit
  | .error (why, o) =>
    let shown ← showFrom shown o.stdout
    match why with
    | .closed => return 1
    | .outOfFuel => attempt command state readings (16 * fuel) shown
    | .awaitingClock => attempt command state (readings.push (← now)) fuel shown

/-- How to call the program. -/
def usage : String :=
  "Usage: lox [--log] tokenize|parse|evaluate|run [FILE] [--json] [--log]\n"

/-- Performs what arguments ask for. -/
def perform (arguments : List String) : IO UInt32 := do
  match Command.ofArguments? arguments with
  | none =>
    IO.eprint usage
    return 2
  | some command =>
    if command.logs then
      IO.FS.writeFile Directory.logName (String.intercalate " " arguments ++ "\n")
    let state ← match command.path? with
      | none => pure (.unopened .missing)
      | some path => stateOf path
    attempt command state #[] 4096 0

end Lox.Program

/-- Runs the program and exits with its code. -/
def main (arguments : List String) : IO UInt32 := Lox.Program.perform arguments
