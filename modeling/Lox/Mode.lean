/-
  Lox.Mode

  What can be done with a source text: list its tokens, show it as one syntax
  tree, evaluate it as one expression, or run it as a program.

  Each mode writes its results to one sink and diagnostics, one per line, to
  another, and ends with a `Status`.  A text with a static fault is never run.
-/
import Lox.Evaluation
import Lox.Parser.Statement
import Lox.Syntax.Text
import Lox.Token.Piece
import Lox.Token.Text

namespace Lox

/-- What to do with a source text. -/
inductive Mode where
  | tokenize (json : Bool)
  | parse
  | evaluate
  | run
deriving DecidableEq, Repr

/-- How it went. -/
inductive Status where
  | success
  | staticError
  | runtimeError
deriving DecidableEq, Repr

/-- The exit code of a status. -/
def Status.exitCode : Status → Nat
  | success => 0
  | staticError => 65
  | runtimeError => 70

/-- The sinks of a mode. -/
structure Channels where
  out : Sink
  err : Sink

/-- Why a mode did not end with a status. -/
inductive Interruption where
  /-- A sink refused a text. -/
  | closed
  | outOfFuel
  | awaitingClock
deriving DecidableEq, Repr

/-- An action that writes to the sinks. -/
abbrev Reporter := EStateM Interruption Channels

/-- The clock of a run and the bound on its loops and calls. -/
structure Limits where
  clock : Nat → Option Float
  fuel : Nat

namespace Mode

/-- Writes a line of results. -/
def writeOut (line : String) : Reporter Unit := fun c =>
  let written := c.out.write (line ++ "\n")
  if written.1 then .ok () { c with out := written.2 }
  else .error .closed { c with out := written.2 }

/-- Writes a line of diagnostics. -/
def writeErr (line : String) : Reporter Unit := fun c =>
  let written := c.err.write (line ++ "\n")
  if written.1 then .ok () { c with err := written.2 }
  else .error .closed { c with err := written.2 }

/-- Writes diagnostics in order. -/
def writeAll : List Diagnostic → Reporter Unit
  | [] => pure ()
  | d :: ds => do
    writeErr d.text
    writeAll ds

/-- Reports static faults. -/
def reportStatic (faults : List Diagnostic) : Reporter Status := do
  writeAll faults
  return .staticError

/-- Lists items in order, tokens as results and faults as diagnostics. -/
def listItems (render : Token → String) : List Item → Reporter Unit
  | [] => pure ()
  | .ok t :: items => do
    writeOut (render t)
    listItems render items
  | .error d :: items => do
    writeErr d.text
    listItems render items

/-- The tree that a source text is, or all its static faults: what is no token
    first, then what is no tree, then, only if there is none of these, what is
    wrong with scopes. -/
def check {α β : Type} (parse : List Token → Nat → Parser.Parsed α)
    (resolve : α → Except (List Diagnostic) β) (source : String) :
    Except (List Diagnostic) (α × β) :=
  let items := scan source
  match faultsOf items, (parse (tokensOf items) 0).result with
  | [], .ok tree => (resolve tree).map (tree, ·)
  | faults, .ok _ => .error faults
  | faults, .error more => .error (faults ++ more)

/-- Runs an action of a program on the output sink. -/
def onMachine {α : Type} (limits : Limits) (table : Table) (action : RunM α) :
    Reporter (Except RuntimeError α) := fun c =>
  let start := { Machine.start c.out limits.clock with table }
  match action start with
  | .ok a m => .ok (.ok a) { c with out := m.out }
  | .error (.error e) m => .ok (.error e) { c with out := m.out }
  | .error .closed m => .error .closed { c with out := m.out }
  | .error .outOfFuel m => .error .outOfFuel { c with out := m.out }
  | .error .awaitingClock m => .error .awaitingClock { c with out := m.out }

/-- Lists the tokens of a text. -/
def tokenizeSource (json : Bool) (source : String) : Reporter Status := do
  let items := scan source
  listItems (if json then Token.jsonText else Token.text) items
  return if (faultsOf items).isEmpty then .success else .staticError

/-- Shows a text as the tree of one expression. -/
def parseSource (source : String) : Reporter Status :=
  match check parseExpression (fun _ => .ok ()) source with
  | .error faults => reportStatic faults
  | .ok (e, ()) => do
    writeOut e.treeText
    return .success

/-- Evaluates a text as one expression and shows the value. -/
def evaluateSource (limits : Limits) (source : String) : Reporter Status :=
  match check parseExpression resolveExpression source with
  | .error faults => reportStatic faults
  | .ok (e, table) => do
    let shown : RunM String := do
      let v ← Lox.evaluate limits.fuel e
      RunM.inspect v.text
    match ← onMachine limits table shown with
    | .ok text =>
      writeOut text
      return .success
    | .error e =>
      writeErr (Diagnostic.runtime e).text
      return .runtimeError

/-- Runs a text as a program. -/
def runSource (limits : Limits) (source : String) : Reporter Status :=
  match check parseProgram resolveProgram source with
  | .error faults => reportStatic faults
  | .ok (program, table) => do
    match ← onMachine limits table (interpret limits.fuel program) with
    | .ok () => return .success
    | .error e =>
      writeErr (Diagnostic.runtime e).text
      return .runtimeError

/-- Does with a source text what a mode says. -/
def perform (limits : Limits) (mode : Mode) (source : String) : Reporter Status :=
  match mode with
  | .tokenize json => tokenizeSource json source
  | .parse => parseSource source
  | .evaluate => evaluateSource limits source
  | .run => runSource limits source

end Mode

end Lox
