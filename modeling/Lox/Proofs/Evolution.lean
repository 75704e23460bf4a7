/-
  Lox.Proofs.Evolution

  What a run can do to the machine, said once for all relations between the
  machine before and the machine after.

    * `RunM.after` — the machine that an action leaves, however it ends;
    * `Evolution R` — every single change of the machine stays inside `R`, and
      `R` can be chained;
    * `Respects R p` — the action `p` as a whole stays inside `R`.

  `Evolution.exec` and its companions say that with `R` every statement, every
  expression, every call and every program stays inside `R`.  A property of this
  kind then needs a look at the single changes only, never at a tree.
-/
import Lox.Proofs.Composition

namespace Lox

/-- The machine that an action leaves behind, however it ends. -/
def RunM.after {α : Type} (p : RunM α) (m : Machine) : Machine :=
  match p m with
  | .ok _ n => n
  | .error _ n => n

theorem RunM.after_of_ok {α : Type} {p : RunM α} {m n : Machine} {a : α} (h : p m = .ok a n) :
    p.after m = n := by
  unfold RunM.after
  rw [h]

theorem RunM.after_of_error {α : Type} {p : RunM α} {m n : Machine} {halt : Halt}
    (h : p m = .error halt n) : p.after m = n := by
  unfold RunM.after
  rw [h]

/-- The answer of an action that succeeds. -/
def RunM.answer? {α : Type} (p : RunM α) (m : Machine) : Option α :=
  match p m with
  | .ok a _ => some a
  | .error _ _ => none

theorem RunM.ok_of_answer? {α : Type} {p : RunM α} {m : Machine} {a : α}
    (h : p.answer? m = some a) : p m = .ok a (p.after m) := by
  unfold RunM.answer? at h
  cases hrun : p m with
  | ok b n =>
    rw [hrun] at h
    cases h
    rw [after_of_ok hrun]
  | error halt n =>
    rw [hrun] at h
    cases h

theorem RunM.after_bind_of_ok {α β : Type} {p : RunM α} {f : α → RunM β} {m n : Machine} {a : α}
    (h : p m = .ok a n) : (p >>= f).after m = (f a).after n := by
  have hbind : (p >>= f) m = f a n := by
    show EStateM.bind p f m = f a n
    rw [EStateM.bind, h]
  unfold RunM.after
  rw [hbind]

theorem RunM.after_bind_of_error {α β : Type} {p : RunM α} {f : α → RunM β} {m n : Machine}
    {halt : Halt} (h : p m = .error halt n) : (p >>= f).after m = n := by
  have hbind : (p >>= f) m = .error halt n := by
    show EStateM.bind p f m = .error halt n
    rw [EStateM.bind, h]
  exact after_of_error hbind

/-- Wrapping up an answer leaves the machine as it is. -/
theorem RunM.after_bind_pure {α β : Type} (p : RunM α) (g : α → β) (m : Machine) :
    (p >>= fun a => pure (g a)).after m = p.after m := by
  cases hrun : p m with
  | ok a n =>
    rw [after_bind_of_ok hrun, after_of_ok hrun]
    rfl
  | error halt n => rw [after_bind_of_error hrun, after_of_error hrun]

/-- An action that stays inside a relation. -/
def Respects (R : Machine → Machine → Prop) {α : Type} (p : RunM α) : Prop :=
  ∀ m, R m (p.after m)

/-- What such an action leaves where it succeeds. -/
theorem Respects.ok {R : Machine → Machine → Prop} {α : Type} {p : RunM α} (h : Respects R p)
    {m n : Machine} {a : α} (hrun : p m = .ok a n) : R m n := by
  have hafter := h m
  rw [RunM.after_of_ok hrun] at hafter
  exact hafter

/-- What reading an occurrence finds. -/
def Machine.lookUp (m : Machine) (use : Occurrence) : Except RuntimeError Value :=
  match m.table[use.id]? with
  | some d => m.store.getAt m.env d use.name
  | none => m.store.get Store.globals use.name

theorem RunM.read_eq (use : Occurrence) (m : Machine) :
    RunM.read use m = RunM.ofExcept (m.lookUp use) m := by
  unfold RunM.read Machine.lookUp
  cases m.table[use.id]? <;> rfl

/-- Reading changes nothing. -/
theorem RunM.read_ok {use : Occurrence} {m n : Machine} {v : Value} (h : read use m = .ok v n) :
    m.lookUp use = .ok v ∧ n = m := by
  rw [read_eq] at h
  cases hv : m.lookUp use with
  | ok w =>
    rw [hv] at h
    cases h
    exact ⟨rfl, rfl⟩
  | error e =>
    rw [hv] at h
    cases h

/-- A relation that can be chained and that no single change leaves.  The last two
    fields are the ways in which an action runs inside another one. -/
structure Evolution (R : Machine → Machine → Prop) : Prop where
  refl : ∀ m, R m m
  trans : ∀ {a b c}, R a b → R b c → R a c
  bound : ∀ m f name value, R m { m with store := m.store.define f name value }
  framed : ∀ m frame, R m { m with store := (m.store.newFrame frame).2 }
  born : ∀ m cls, R m { m with store := (m.store.newInstance cls).2 }
  fielded : ∀ m i name value, R m { m with store := m.store.setField i name value }
  stamped : ∀ m, R m { m with store := m.store.newStamp.2 }
  printed : ∀ m out, R m { m with out }
  ticked : ∀ m, R m { m with ticks := m.ticks + 1 }
  inFrame : ∀ m f n, R { m with env := f } n → R m { n with env := m.env }
  deeper : ∀ m n, R { m with depth := m.depth + 1 } n → R m { n with depth := n.depth - 1 }

namespace Evolution

open RunM

variable {R : Machine → Machine → Prop} (ev : Evolution R)
include ev

/-! ## Single actions -/

theorem pure {α : Type} (a : α) : Respects R (pure a : RunM α) := fun m => ev.refl m

theorem throw {α : Type} (halt : Halt) : Respects R (throw halt : RunM α) :=
  fun m => ev.refl m

theorem fail {α : Type} (at_ : Lexeme) (fault : RuntimeFault) :
    Respects R (RunM.fail at_ fault : RunM α) :=
  ev.throw _

theorem get : Respects R (get : RunM Machine) := fun m => ev.refl m

theorem inspect {α : Type} (f : Store → α) : Respects R (RunM.inspect f) := fun m => ev.refl m

theorem bind {α β : Type} {p : RunM α} {f : α → RunM β} (hp : Respects R p)
    (hf : ∀ a, Respects R (f a)) : Respects R (p >>= f) := by
  intro m
  have h := hp m
  cases hrun : p m with
  | ok a n =>
    rw [after_of_ok hrun] at h
    rw [after_bind_of_ok hrun]
    exact ev.trans h (hf a n)
  | error halt n =>
    rw [after_of_error hrun] at h
    rw [after_bind_of_error hrun]
    exact h

theorem define (name : String) (value : Value) : Respects R (RunM.define name value) :=
  ev.bind ev.get fun m₀ m => ev.bound m m₀.env name value

theorem newFrame (frame : Frame) : Respects R (make (·.newFrame frame)) :=
  fun m => ev.framed m frame

theorem newInstance (cls : Class) : Respects R (make (·.newInstance cls)) :=
  fun m => ev.born m cls

theorem setField (i : InstanceId) (name : String) (value : Value) :
    Respects R (change (·.setField i name value)) :=
  fun m => ev.fielded m i name value

theorem newStamp : Respects R (make Store.newStamp) := fun m => ev.stamped m

theorem ofExcept {α : Type} (answer : Except RuntimeError α) :
    Respects R (RunM.ofExcept answer) := by
  cases answer with
  | ok a => exact ev.pure a
  | error e => exact ev.throw _

theorem read (use : Occurrence) : Respects R (RunM.read use) := by
  intro m
  unfold RunM.after
  rw [read_eq]
  exact ev.ofExcept _ m

theorem superBinding (keyword : Occurrence) : Respects R (Lox.superBinding keyword) := by
  refine ev.bind ev.get fun m => ?_
  split
  · exact ev.fail _ _
  · dsimp only
    split
    · exact ev.pure _
    · exact ev.fail _ _

theorem write (use : Occurrence) (value : Value) : Respects R (RunM.write use value) := by
  intro m
  unfold RunM.after RunM.write
  cases target? m use with
  | none => exact ev.refl m
  | some f => exact ev.bound m f use.name.text value

theorem print (value : Value) : Respects R (RunM.print value) := by
  intro m
  unfold RunM.after RunM.print
  dsimp only
  split
  · next h =>
    split at h
    · cases h
      exact ev.printed m _
    · cases h
  · next h =>
    split at h
    · cases h
    · cases h
      exact ev.printed m _

theorem readClock : Respects R RunM.readClock := by
  intro m
  unfold RunM.after RunM.readClock
  cases m.clock m.ticks with
  | none => exact ev.refl m
  | some reading => exact ev.ticked m

theorem withFrame {α : Type} (f : FrameId) {p : RunM α} (hp : Respects R p) :
    Respects R (RunM.withFrame f p) := by
  intro m
  have h := hp { m with env := f }
  unfold RunM.after RunM.withFrame
  cases hrun : p { m with env := f } with
  | ok a n =>
    rw [after_of_ok hrun] at h
    exact ev.inFrame m f n h
  | error halt n =>
    rw [after_of_error hrun] at h
    exact ev.inFrame m f n h

theorem oneDeeper {α : Type} {p : RunM α} (hp : Respects R p) :
    Respects R (RunM.deeper p) := by
  intro m
  have h := hp { m with depth := m.depth + 1 }
  unfold RunM.after RunM.deeper
  cases hrun : p { m with depth := m.depth + 1 } with
  | ok a n =>
    rw [after_of_ok hrun] at h
    exact ev.deeper m n h
  | error halt n =>
    rw [after_of_error hrun] at h
    exact ev.deeper m n h

/-! ## Whole runs -/

/-- To stay inside the relation carries over from the parts of a run to the whole. -/
theorem compositional : Compositional (@Respects R) where
  pure := ev.pure
  throw halt _ := ev.throw halt
  bind := ev.bind
  inspect := ev.inspect
  here hf := ev.bind ev.get fun m => hf m.env
  read := ev.read
  write := ev.write
  superBinding := ev.superBinding
  bound f name value m := ev.bound m f name value
  newFrame := ev.newFrame
  newInstance := ev.newInstance
  setField := ev.setField
  newStamp := ev.newStamp
  print := ev.print
  readClock := ev.readClock
  withFrame := ev.withFrame
  deeper := ev.oneDeeper
  limited paren _ hp := by
    refine ev.bind ev.get fun m => ?_
    split
    · exact ev.fail _ _
    · exact hp

theorem unary (sign : Lexeme) (op : TokenKind) (v : Value) : Respects R (op.applyUnary sign v) :=
  ev.compositional.unary sign op v

theorem binary (sign : Lexeme) (op : TokenKind) (a b : Value) :
    Respects R (op.applyBinary sign a b) :=
  ev.compositional.binary sign op a b

theorem asInstance (at_ : Lexeme) (fault : RuntimeFault) (v : Value) :
    Respects R (Lox.asInstance at_ fault v) :=
  ev.compositional.asInstance at_ fault v

theorem readProperty (i : InstanceId) (property : Lexeme) :
    Respects R (Lox.readProperty i property) :=
  ev.compositional.readProperty i property

section

variable {call : Invoke} (hcall : ∀ f paren vs, Respects R (call f paren vs))
include hcall

/-- With calls that stay inside a relation, so does every expression. -/
theorem eval (e : Expr) : Respects R (e.eval call) :=
  ev.compositional.eval hcall e

theorem listEval (es : List Expr) : Respects R (Expr.listEval call es) :=
  ev.compositional.listEval hcall es

/-- With calls that stay inside a relation, so does every statement. -/
theorem exec (bound : Nat) (s : Stmt) : Respects R (s.exec call bound) :=
  ev.compositional.exec hcall bound s

theorem listExec (bound : Nat) (ss : List Stmt) : Respects R (Stmt.listExec call bound ss) :=
  ev.compositional.listExec hcall bound ss

end

theorem whileLoop {condition : RunM Bool} {body : RunM Flow} (hcondition : Respects R condition)
    (hbody : Respects R body) (bound : Nat) :
    Respects R (Lox.whileLoop condition body bound) :=
  ev.compositional.whileLoop hcondition hbody bound

theorem callClosure {run : List Stmt → RunM Flow} (hrun : ∀ body, Respects R (run body))
    (closure : Closure) (paren : Lexeme) (arguments : List Value) :
    Respects R (Lox.callClosure run closure paren arguments) :=
  ev.compositional.callClosure hrun closure paren arguments

/-- Every call stays inside the relation, however deep it may go. -/
theorem invoke (n : Nat) (f : Value) (paren : Lexeme) (arguments : List Value) :
    Respects R (Lox.invoke n f paren arguments) :=
  ev.compositional.invoke n f paren arguments

theorem interpret (fuel : Nat) (program : List Stmt) :
    Respects R (Lox.interpret fuel program) :=
  ev.compositional.interpret fuel program

end Evolution

end Lox
