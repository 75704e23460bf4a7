/-
  Lox.CommandLine.Arguments

  The arguments of the program:

      [--log] ( --version | -V | MODE [--log] [--json] [PATH] )

  where the mode is `tokenize`, `parse`, `evaluate` or `run`.  Options stand in any
  order, before the path or after it, and `--json` belongs to `tokenize` only.
  After `--` nothing is an option any more; a single `-` never is one.

  `Command.ofArguments?` reads them.
-/
import Lox.Mode

namespace Lox

/-- What the arguments ask for. -/
inductive Command where
  | version
  | file (mode : Mode) (path : Option String) (log : Bool)
deriving DecidableEq, Repr

namespace Command

/-- The path that a command reads. -/
def path? : Command → Option String
  | version => none
  | file _ path _ => path

/-- Whether a command writes a log. -/
def logs : Command → Bool
  | version => false
  | file _ _ log => log

/-- The mode of a name. -/
def modeOf? : String → Option Mode
  | "tokenize" => some (.tokenize false)
  | "parse" => some .parse
  | "evaluate" => some .evaluate
  | "run" => some .run
  | _ => none

/-- The mode with its listing in JSON, if it lists tokens. -/
def withJson? : Mode → Option Mode
  | .tokenize _ => some (.tokenize true)
  | _ => none

/-- Whether an argument has the form of an option: a minus and something after it. -/
def isOption (argument : String) : Bool :=
  match argument.toList with
  | '-' :: _ :: _ => true
  | _ => false

/-- Whether an argument asks for the version: in letters, or as the first of several
    short options. -/
def asksVersion (argument : String) : Bool :=
  argument = "--version" || ['-', 'V'].isPrefixOf argument.toList

/-- Takes an argument as the path, which must be the only one and not be empty. -/
def withPath? (path : Option String) (argument : String) : Option (Option String) :=
  if path.isNone ∧ argument ≠ "" then some (some argument) else none

/-- Reads what follows the name of a mode.  `literal` says that no options come any
    more. -/
def readRest (mode : Mode) (path : Option String) (log literal : Bool) :
    List String → Option Command
  | [] => some (.file mode path log)
  | argument :: rest =>
    if literal ∨ ¬ isOption argument then
      (withPath? path argument).bind fun path => readRest mode path log literal rest
    else if argument = "--" then readRest mode path log true rest
    else if argument = "--log" then readRest mode path true literal rest
    else if argument = "--json" then
      (withJson? mode).bind fun mode => readRest mode path log literal rest
    else none

/-- Reads arguments up to the name of the mode, and the rest. -/
def readMode (log : Bool) : List String → Option Command
  | [] => none
  | argument :: rest =>
    if argument = "--log" then readMode true rest
    else if asksVersion argument then some .version
    else (modeOf? argument).bind fun mode => readRest mode none log false rest

/-- The command that arguments ask for, or nothing if they ask for none. -/
def ofArguments? (arguments : List String) : Option Command := readMode false arguments

end Command

end Lox
