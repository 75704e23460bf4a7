/-
  Lox.CommandLine.Outcome

  What the program writes and the code it exits with, given its arguments and the
  files it can see.

    * `Command.perform` — for one command, given what is under its path;
    * `Command.performIn` — for arguments in a directory.
-/
import Lox.CommandLine.Arguments
import Lox.CommandLine.Directory
import Lox.Text.Quoted

namespace Lox

/-- What a program leaves behind. -/
structure Outcome where
  exit : Nat
  stdout : String
  stderr : String
  /-- Whether there is something in the log. -/
  log : Bool
deriving DecidableEq, Repr

namespace Command

/-- A failure and its cause. -/
def failure (message cause : String) : String :=
  "Error: " ++ message ++ "\n\nCaused by:\n    " ++ cause ++ "\n"

/-- Why bytes are not a text. -/
def utf8FaultText (fault : Text.Utf8.Fault) : String :=
  match fault.length with
  | some length =>
    "invalid utf-8 sequence of " ++ toString length ++ " bytes from index "
      ++ toString fault.index
  | none => "incomplete utf-8 byte sequence from index " ++ toString fault.index

/-- The text of a file, or what is reported instead. -/
def readSource (path : String) : FileState → Except String String
  | .unopened fault =>
    .error (failure ("Failed to open file " ++ Text.Quoted.debug path) fault.message)
  | .unread fault =>
    .error (failure ("Failed to read file " ++ Text.Quoted.debug path) fault.message)
  | .content bytes =>
    match String.fromUTF8? bytes with
    | some source => .ok source
    | none =>
      let cause := ((Text.Utf8.firstFault? bytes.toList).map utf8FaultText).getD ""
      .error (failure ("File " ++ Text.Quoted.debug path ++ " is not valid UTF-8") cause)

/-- The name and version of the program. -/
def versionText : String := "lox-interpreter 0.1.0\n"

/-- What is said when there is no path. -/
def noPathText : String := "No input filepath was provided. Exiting...\n"

/-- What a mode leaves behind on sinks without limit, or why it did not end, with
    what it wrote until then. -/
def performSource (limits : Limits) (mode : Mode) (log : Bool) (source : String) :
    Except (Interruption × Outcome) Outcome :=
  match mode.perform limits source ⟨.unlimited, .unlimited⟩ with
  | .ok status c => .ok ⟨status.exitCode, c.out.text, c.err.text, log⟩
  | .error why c => .error (why, ⟨1, c.out.text, c.err.text, log⟩)

/-- What a command leaves behind.  `state` is asked for its path only. -/
def perform (limits : Limits) (state : String → FileState) :
    Command → Except (Interruption × Outcome) Outcome
  | version => .ok ⟨0, versionText, "", false⟩
  | file _ none log => .ok ⟨0, noPathText, "", log⟩
  | file mode (some path) log =>
    match readSource path (state path) with
    | .error message => .ok ⟨1, "", message, log⟩
    | .ok source => performSource limits mode log source

/-- What arguments leave behind in a directory, if they ask for anything. -/
def performIn (limits : Limits) (directory : Directory) (arguments : List String) :
    Option (Except (Interruption × Outcome) Outcome) :=
  (ofArguments? arguments).map fun command =>
    let keepLog (o : Outcome) : Outcome := { o with log := o.log || directory.hasLog }
    ((command.perform limits directory.find).map keepLog).mapError fun e => (e.1, keepLog e.2)

end Command

end Lox
