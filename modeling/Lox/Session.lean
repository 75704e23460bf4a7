/-
  Lox.Session

  Several source texts, one after another, on one machine.  What a text binds or
  prints stays; a text that ends with a fault leaves the machine usable.
-/
import Lox.Evaluation
import Lox.Parser.Statement
import Lox.Token.Piece

namespace Lox

/-- What to do with a text of a session. -/
inductive SessionMode where
  /-- Run it as a program, up to the first fault. -/
  | interpret
  /-- Execute each of its statements by itself, whatever the others do. -/
  | execute
  /-- Evaluate it as one expression. -/
  | evaluate
deriving DecidableEq, Repr

/-- A text of a session. -/
structure SessionInput where
  source : String
  mode : SessionMode
  /-- Whether the text is resolved.  If not, all its names are global. -/
  resolved : Bool
  /-- An amount added to every distance. -/
  shift : Nat

/-- What became of a text. -/
inductive SessionAnswer where
  | done
  | flows (ends : List (Except RuntimeError Flow))
  | value (value : Value)
  | faults (faults : List Diagnostic)
  | interrupted (halt : Halt)

/-- A machine and the number of the next occurrence. -/
structure Session where
  machine : Machine
  nextId : Nat

namespace Session

/-- A session in which nothing happened. -/
def start (clock : Nat → Option Float) : Session := ⟨.start .unlimited clock, 0⟩

/-- Executes a statement, and yields a fault instead of ending by it. -/
def attempt (fuel : Nat) (s : Stmt) : RunM (Except RuntimeError Flow) :=
  tryCatch (Except.ok <$> execute fuel s) fun
    | .error e => pure (.error e)
    | halt => throw halt

/-- Executes statements one by one; a fault ends only its own statement. -/
def executeEach (fuel : Nat) : List Stmt → RunM (List (Except RuntimeError Flow))
  | [] => pure []
  | s :: ss => do
    let ending ← attempt fuel s
    let rest ← executeEach fuel ss
    pure (ending :: rest)

/-- What resolving a tree gives to the machine. -/
def tableOf (input : SessionInput) (resolved : Except (List Diagnostic) Table) :
    Except (List Diagnostic) Table :=
  if input.resolved then resolved.map (Table.shift · input.shift) else .ok ∅

/-- Adds a table and runs an action. -/
def act (s : Session) (table : Table) (action : RunM SessionAnswer) : SessionAnswer × Session :=
  match (do addTable table; action) s.machine with
  | .ok answer machine => (answer, { s with machine })
  | .error (.error e) machine => (.faults [.runtime e], { s with machine })
  | .error halt machine => (.interrupted halt, { s with machine })

/-- Parses a text, resolves it and acts on its tree; or answers with its static
    faults. -/
def submit {α : Type} (s : Session) (input : SessionInput)
    (parse : List Token → Nat → Parser.Parsed α) (resolve : α → Except (List Diagnostic) Table)
    (action : α → RunM SessionAnswer) : SessionAnswer × Session :=
  let items := scan input.source
  let parsed := parse (tokensOf items) s.nextId
  -- Numbers are used up also where parsing failed, so that none comes twice.
  let s := { s with nextId := parsed.nextId }
  match faultsOf items, parsed.result with
  | [], .ok tree =>
    match tableOf input (resolve tree) with
    | .error faults => (.faults faults, s)
    | .ok table => s.act table (action tree)
  | faults, .ok _ => (.faults faults, s)
  | faults, .error more => (.faults (faults ++ more), s)

/-- Does with a text what its mode says. -/
def step (fuel : Nat) (input : SessionInput) (s : Session) : SessionAnswer × Session :=
  match input.mode with
  | .interpret => s.submit input parseProgram resolveProgram fun program => do
    interpret fuel program
    return .done
  | .execute => s.submit input parseProgram resolveProgram fun program => do
    return .flows (← executeEach fuel program)
  | .evaluate => s.submit input parseExpression resolveExpression fun e => do
    return .value (← evaluate fuel e)

end Session

end Lox
