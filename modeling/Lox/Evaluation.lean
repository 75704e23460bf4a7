/-
  Lox.Evaluation

  What programs do.

    * `Expr.eval`, `Stmt.exec` — by recursion on the tree; they are given what a
      call does;
    * `whileLoop`, `invoke` — the two places where a tree is gone through again:
      a round of a loop and the body of a function.  Each takes a bound, and stops
      with `Halt.outOfFuel` when it is used up.

  With `invoke n`, calls go at most `n` deep and no loop makes more than `n`
  rounds.
-/
import Lox.Machine

namespace Lox

open RunM

/-- What a call does: the callee, where the call stands, and the arguments. -/
abbrev Invoke := Value → Lexeme → List Value → RunM Value

/-! ## Operators -/

/-- The negative of a number. -/
def negation (sign : Lexeme) : Value → RunM Value
  | .number x => pure (.number (-x))
  | _ => fail sign .operandNotNumber

/-- Applies the operator that a token in front of an operand is. -/
def TokenKind.applyUnary (sign : Lexeme) (op : TokenKind) (v : Value) : RunM Value :=
  match op with
  | .symbol .minus => negation sign v
  | .symbol .bang => pure (.bool !v.isTruthy)
  | _ => fail sign .invalidUnaryOperator

/-- Two operands that must be numbers. -/
def numberOperands (sign : Lexeme) : Value → Value → RunM (Float × Float)
  | .number x, .number y => pure (x, y)
  | _, _ => fail sign .operandsNotNumbers

/-- Applies an arithmetic operator. -/
def arithmetic (sign : Lexeme) (f : Float → Float → Float) (a b : Value) : RunM Value := do
  let (x, y) ← numberOperands sign a b
  return .number (f x y)

/-- Applies an order relation. -/
def comparison (sign : Lexeme) (f : Float → Float → Bool) (a b : Value) : RunM Value := do
  let (x, y) ← numberOperands sign a b
  return .bool (f x y)

/-- Adds numbers or joins strings. -/
def addition (sign : Lexeme) : Value → Value → RunM Value
  | .number x, .number y => pure (.number (x + y))
  | .string s, .string t => pure (.string (s ++ t))
  | _, _ => fail sign .operandsNotNumbersOrStrings

/-- Applies the operator that a token between two operands is.  A quotient by zero is a
    number too. -/
def TokenKind.applyBinary (sign : Lexeme) (op : TokenKind) (a b : Value) : RunM Value :=
  match op with
  | .symbol .plus => addition sign a b
  | .symbol .minus => arithmetic sign (· - ·) a b
  | .symbol .star => arithmetic sign (· * ·) a b
  | .symbol .slash => arithmetic sign (· / ·) a b
  | .symbol .greater => comparison sign (fun x y => decide (y < x)) a b
  | .symbol .greaterEqual => comparison sign (fun x y => decide (y ≤ x)) a b
  | .symbol .less => comparison sign (fun x y => decide (x < y)) a b
  | .symbol .lessEqual => comparison sign (fun x y => decide (x ≤ y)) a b
  | .symbol .equalEqual => pure (.bool (a.equals b))
  | .symbol .bangEqual => pure (.bool !a.equals b)
  | _ => fail sign .invalidBinaryOperator

/-- Whether the first operand alone decides. -/
def LogicalOp.decidedBy : LogicalOp → Value → Bool
  | .or, v => v.isTruthy
  | .and, v => !v.isTruthy

/-! ## Properties -/

/-- The number of an instance, or a fault. -/
def asInstance (at_ : Lexeme) (fault : RuntimeFault) : Value → RunM InstanceId
  | .instance i => pure i
  | _ => fail at_ fault

/-- A method as a value, bound to an instance. -/
def boundMethod (method : Closure) (i : InstanceId) : RunM Value := do
  let closure ← make (·.bindMethod method i)
  make (·.functionValue closure)

/-- Reads a property: the field of that name, or else the method. -/
def readProperty (i : InstanceId) (property : Lexeme) : RunM Value := do
  match ← inspect (·.field? i property.text) with
  | some value => pure value
  | none =>
    match ← inspect (·.method? i property.text) with
    | some method => boundMethod method i
    | none => fail property (.undefinedProperty property.text)

/-- What `super` means at an occurrence: the superclass, and the instance one frame
    further in. -/
def superBinding (keyword : Occurrence) : RunM (Class × InstanceId) := do
  let m ← get
  match m.table[keyword.id]? with
  | none => fail keyword.name .superUnresolved
  | some distance =>
    let receiver :=
      if distance = 0 then none else m.store.namedAt? m.env (distance - 1) "this"
    match m.store.namedAt? m.env distance "super", receiver with
    | some (.class parent), some (.instance i) => pure (parent, i)
    | _, _ => fail keyword.name .superUnbound

/-- A method of the superclass, bound to the instance that the current one is bound
    to. -/
def superMethod (keyword : Occurrence) (method : Lexeme) : RunM Value := do
  let (parent, i) ← superBinding keyword
  match parent.findMethod method.text with
  | some found => boundMethod found i
  | none => fail method (.undefinedProperty method.text)

/-! ## Expressions -/

mutual

/-- Evaluates an expression. -/
def Expr.eval (call : Invoke) : Expr → RunM Value
  | .literal value => pure (.ofLiteral value)
  | .grouping inner => inner.eval call
  | .unary op sign operand => do
    let v ← operand.eval call
    op.applyUnary sign v
  | .binary op sign left right => do
    let a ← left.eval call
    let b ← right.eval call
    op.applyBinary sign a b
  | .logical op _ left right => do
    let a ← left.eval call
    if op.decidedBy a then pure a else right.eval call
  | .name use => read use
  | .assign target value => do
    let v ← value.eval call
    write target v
    pure v
  | .call callee paren arguments => do
    let f ← callee.eval call
    let vs ← Expr.listEval call arguments
    call f paren vs
  | .get object property => do
    let v ← object.eval call
    let i ← asInstance property .propertyOfNonInstance v
    readProperty i property
  | .set object property value => do
    let o ← object.eval call
    let i ← asInstance property .fieldOfNonInstance o
    let v ← value.eval call
    change (·.setField i property.text v)
    pure v
  | .this keyword => read keyword
  | .super keyword method => superMethod keyword method

/-- Evaluates expressions in order. -/
def Expr.listEval (call : Invoke) : List Expr → RunM (List Value)
  | [] => pure []
  | e :: es => do
    let v ← e.eval call
    let vs ← Expr.listEval call es
    pure (v :: vs)

end

/-- Evaluates an expression that may be missing; then the value is `nil`. -/
def Expr.optionEval (call : Invoke) : Option Expr → RunM Value
  | none => pure .nil
  | some e => e.eval call

/-! ## Statements -/

/-- Makes rounds while a condition holds.  A `break` in the body ends the loop, a
    `return` ends it and what is around it. -/
def whileLoop (condition : RunM Bool) (body : RunM Flow) : Nat → RunM Flow
  | 0 => throw .outOfFuel
  | n + 1 => do
    if ← condition then
      match ← body with
      | .normal => whileLoop condition body n
      | .broken => pure .normal
      | .returned v => pure (.returned v)
    else pure .normal

/-- Binds a function in the current frame, which it closes over. -/
def defineFunction (decl : FunctionDecl) : RunM Unit := do
  let frame := (← get).env
  let value ← make (·.functionValue ⟨decl, frame, false⟩)
  define decl.name.text value

/-- The class that a superclass clause names. -/
def superclassOf : Option Occurrence → RunM (Option Class)
  | none => pure none
  | some use => do
    match ← read use with
    | .class parent => pure (some parent)
    | _ => fail use.name .superclassNotClass

/-- The frame that the methods of a class close over: for a subclass a frame of its
    own, with the superclass under `super`. -/
def methodFrame : Option Class → RunM FrameId
  | none => do return (← get).env
  | some parent => do
    let around := (← get).env
    make (·.newFrame ⟨.single "super" (.class parent), some around⟩)

/-- The methods of a class by name; the last one of a name counts. -/
def methodTable (frame : FrameId) (methods : List FunctionDecl) : Bindings Closure :=
  methods.foldl (fun table d => table.insert d.name.text ⟨d, frame, d.name.text = "init"⟩) .empty

/-- Binds a class in the current frame.  Its name could be bound to `nil` first, before the
    methods are made: nothing reads it in between (`defineClass_eq`). -/
def defineClass (name : Lexeme) (superclass : Option Occurrence) (methods : List FunctionDecl) :
    RunM Unit := do
  let parent ← superclassOf superclass
  let frame ← methodFrame parent
  let stamp ← make Store.newStamp
  define name.text (.class ⟨stamp, name.text, methodTable frame methods, parent⟩)

mutual

/-- Executes a statement.  `bound` limits the rounds of its loops. -/
def Stmt.exec (call : Invoke) (bound : Nat) : Stmt → RunM Flow
  | .expression value => do
    let _ ← value.eval call
    pure .normal
  | .print value => do
    let v ← value.eval call
    RunM.print v
    pure .normal
  | .var name initializer => do
    let v ← Expr.optionEval call initializer
    define name.text v
    pure .normal
  | .block body => do
    let around := (← get).env
    let frame ← make (·.child around)
    withFrame frame (Stmt.listExec call bound body)
  | .ifElse condition yes none => do
    let v ← condition.eval call
    if v.isTruthy then yes.exec call bound else pure .normal
  | .ifElse condition yes (some no) => do
    let v ← condition.eval call
    if v.isTruthy then yes.exec call bound else no.exec call bound
  | .while condition body =>
    whileLoop (do return (← condition.eval call).isTruthy) (body.exec call bound) bound
  | .break _ => pure .broken
  | .function decl => do
    defineFunction decl
    pure .normal
  | .return _ value => do
    let v ← Expr.optionEval call value
    pure (.returned v)
  | .class name superclass methods => do
    defineClass name superclass methods
    pure .normal

/-- Executes statements in order, up to the first that does not end normally. -/
def Stmt.listExec (call : Invoke) (bound : Nat) : List Stmt → RunM Flow
  | [] => pure .normal
  | s :: ss => do
    match ← s.exec call bound with
    | .normal => Stmt.listExec call bound ss
    | flow => pure flow

end

/-! ## Calls -/

/-- Fails unless a call has as many arguments as it takes. -/
def checkArity (paren : Lexeme) (expected got : Nat) : RunM Unit :=
  if expected = got then pure () else fail paren (.wrongArity expected got)

/-- The variables of a call: parameters with their arguments. -/
def parameterVars (parameters : List Lexeme) (arguments : List Value) : Bindings Value :=
  (parameters.zip arguments).foldl (fun vars p => vars.insert p.1.text p.2) .empty

/-- The value that a call yields when its body ended. -/
def Flow.result : Flow → Value
  | .returned v => v
  | .normal => .nil
  | .broken => .nil

/-- The instance that an initializer was bound to. -/
def receiver (closure : Closure) : RunM Value :=
  inspect fun s => (s.own? closure.frame "this").getD .nil

/-- Runs the body of a function in a new frame inside the one it closes over. -/
def callClosure (run : List Stmt → RunM Flow) (closure : Closure) (paren : Lexeme)
    (arguments : List Value) : RunM Value := do
  if maxDepth ≤ (← get).depth then
    fail paren .stackOverflow
  else
    -- The frame is inside the one that the function closes over, wherever it is
    -- called from; parameters and body share it.
    let vars := parameterVars closure.decl.parameters arguments
    let frame ← make (·.newFrame ⟨vars, some closure.frame⟩)
    let flow ← deeper (withFrame frame (run closure.decl.body))
    if closure.isInitializer then receiver closure else pure flow.result

/-- Makes an instance and runs its initializer, if its class has one. -/
def instantiate (run : List Stmt → RunM Flow) (cls : Class) (paren : Lexeme)
    (arguments : List Value) : RunM Value := do
  let i ← make (·.newInstance cls)
  match cls.findMethod "init" with
  | none => pure (.instance i)
  | some init =>
    let closure ← make (·.bindMethod init i)
    -- What the initializer yields is not looked at: it is the instance.
    let _ ← callClosure run closure paren arguments
    pure (.instance i)

/-- Calls a value, given how bodies are run. -/
def callValue (run : List Stmt → RunM Flow) : Invoke
  | .native _, paren, arguments => do
    checkArity paren 0 arguments.length
    readClock
  | .function closure _, paren, arguments => do
    checkArity paren closure.arity arguments.length
    callClosure run closure paren arguments
  | .class cls, paren, arguments => do
    checkArity paren cls.arity arguments.length
    instantiate run cls paren arguments
  | _, paren, _ => fail paren .notCallable

/-- Calls that go at most `n` deep. -/
def invoke : Nat → Invoke
  | 0 => fun _ _ _ => throw .outOfFuel
  | n + 1 => callValue (Stmt.listExec (invoke n) n)

/-! ## Whole trees -/

/-- Evaluates an expression with a bound on loops and calls. -/
def evaluate (fuel : Nat) (e : Expr) : RunM Value := e.eval (invoke fuel)

/-- Executes a statement with a bound on loops and calls. -/
def execute (fuel : Nat) (s : Stmt) : RunM Flow := s.exec (invoke fuel) fuel

/-- Runs a program up to its end, the first fault, or a `return` at its top level. -/
def interpret (fuel : Nat) (program : List Stmt) : RunM Unit := do
  let _ ← Stmt.listExec (invoke fuel) fuel program
  pure ()

/-- Gives the machine the distances of more occurrences. -/
def addTable (table : Table) : RunM Unit :=
  modify fun m => { m with table := Table.merge m.table table }

end Lox
