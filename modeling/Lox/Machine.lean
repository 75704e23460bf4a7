/-
  Lox.Machine

  The state of a running program, and the single actions on it.

    * `Machine` — the store, the current frame, the depth of calls, the table of
      distances, the clock and the output;
    * `Halt` — the ways in which a run stops before its end;
    * `RunM` — an action, which may halt.  What it did to the machine before stays.
-/
import Lox.Scope.Resolver
import Lox.Sink
import Lox.Store

namespace Lox

/-- The state of a running program. -/
structure Machine where
  store : Store
  /-- The frame of the scope around the position. -/
  env : FrameId
  /-- The number of calls around the position. -/
  depth : Nat
  table : Table
  /-- The reading that the clock gives when it is read for the `n`-th time, in
      seconds, or nothing where it is not known yet. -/
  clock : Nat → Option Float
  /-- How often the clock was read. -/
  ticks : Nat
  out : Sink

/-- Why a run stopped. -/
inductive Halt where
  | error (error : RuntimeError)
  /-- The output refused a text. -/
  | closed
  /-- A loop or a nest of calls went past the given bound. -/
  | outOfFuel
  /-- The clock was read and has no reading yet. -/
  | awaitingClock

/-- An action of a running program. -/
abbrev RunM := EStateM Halt Machine

/-- How a statement ends: at its end, by `break`, or by `return`. -/
inductive Flow where
  | normal
  | broken
  | returned (value : Value)

/-- The greatest number of calls inside each other. -/
def maxDepth : Nat := 1000

namespace Machine

/-- A machine on which nothing ran: the clock is the only global. -/
def start (out : Sink) (clock : Nat → Option Float) : Machine :=
  { store := Store.empty.define Store.globals "clock" (.native "clock")
    env := Store.globals
    depth := 0
    table := ∅
    clock
    ticks := 0
    out }

end Machine

namespace RunM

/-! ## Halting -/

/-- Stops with a fault at a token. -/
def fail {α : Type} (at_ : Lexeme) (fault : RuntimeFault) : RunM α :=
  throw (.error ⟨at_.line, fault⟩)

/-- The answer of a look-up. -/
def ofExcept {α : Type} : Except RuntimeError α → RunM α
  | .ok a => pure a
  | .error e => throw (.error e)

/-! ## The store -/

/-- Looks at the store. -/
def inspect {α : Type} (f : Store → α) : RunM α := fun m => .ok (f m.store) m

/-- Changes the store. -/
def change (f : Store → Store) : RunM Unit := fun m => .ok () { m with store := f m.store }

/-- Makes something in the store. -/
def make {α : Type} (f : Store → α × Store) : RunM α := fun m =>
  let made := f m.store
  .ok made.1 { m with store := made.2 }

/-- Binds a name in the current frame. -/
def define (name : String) (value : Value) : RunM Unit := do
  let f := (← get).env
  change (·.define f name value)

/-- Reads a name: at its distance if the table has one, otherwise as a global. -/
def read (use : Occurrence) : RunM Value := fun m =>
  match m.table[use.id]? with
  | some d => ofExcept (m.store.getAt m.env d use.name) m
  | none => ofExcept (m.store.get Store.globals use.name) m

/-- The frame in which a name is written: the one at its distance if the table has
    one, otherwise the global frame, which must have the name already. -/
def target? (m : Machine) (use : Occurrence) : Option FrameId :=
  match m.table[use.id]? with
  | some d => m.store.ancestor? m.env d
  | none => m.store.owner? use.name.text Store.globals

/-- Writes a name. -/
def write (use : Occurrence) (value : Value) : RunM Unit := fun m =>
  match target? m use with
  | some f => .ok () { m with store := m.store.define f use.name.text value }
  | none => .error (.error (Store.undefined use.name)) m

/-- A name is written as it is read: by `assignAt` if the table has its distance, and
    otherwise by `assign`. -/
theorem write_eq (use : Occurrence) (value : Value) (m : Machine) :
    write use value m =
      match (match m.table[use.id]? with
        | some d => m.store.assignAt m.env d use.name value
        | none => m.store.assign Store.globals use.name value) with
      | .ok s => .ok () { m with store := s }
      | .error e => .error (.error e) m := by
  unfold write target? Store.assignAt Store.assign
  cases m.table[use.id]? with
  | some d =>
    dsimp only
    cases m.store.ancestor? m.env d <;> rfl
  | none =>
    dsimp only
    cases m.store.owner? use.name.text Store.globals <;> rfl

/-! ## Scopes and calls -/

/-- Runs an action with another current frame.  However it ends, the current frame
    is what it was. -/
def withFrame {α : Type} (f : FrameId) (p : RunM α) : RunM α := fun m =>
  match p { m with env := f } with
  | .ok a n => .ok a { n with env := m.env }
  | .error e n => .error e { n with env := m.env }

/-- Runs an action one call deeper: the depth is raised by one before it, and lowered
    by one when it ended, however it did.  It is not `0` then (`evolution_restored`). -/
def deeper {α : Type} (p : RunM α) : RunM α := fun m =>
  match p { m with depth := m.depth + 1 } with
  | .ok a n => .ok a { n with depth := n.depth - 1 }
  | .error e n => .error e { n with depth := n.depth - 1 }

/-! ## The world -/

/-- Writes a line of output. -/
def print (value : Value) : RunM Unit := fun m =>
  let written := m.out.write (value.text m.store ++ "\n")
  if written.1 then .ok () { m with out := written.2 }
  else .error .closed { m with out := written.2 }

/-- Reads the clock. -/
def readClock : RunM Value := fun m =>
  match m.clock m.ticks with
  | some reading => .ok (.number reading) { m with ticks := m.ticks + 1 }
  | none => .error .awaitingClock m

end RunM

end Lox
