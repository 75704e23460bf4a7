/-
  Lox.Proofs.Composition

  Properties of actions that carry over from the parts of a run to the whole.

    * `Compositional Good` — every single action is good, and good actions that are put
      together are good again;
    * `Compositional.eval`, `Compositional.exec`, `Compositional.invoke` — then all
      expressions, statements and calls are good.

  Trees are walked here once.  A property of all runs needs a look at single actions
  only, whether it is about one run or about two of them.
-/
import Lox.Proofs.Actions
import Lox.Proofs.Operators

namespace Lox

/-- A property that every single action has and that putting actions together keeps.
    The last three fields are the ways in which an action runs inside another one. -/
structure Compositional (Good : {α : Type} → RunM α → Prop) : Prop where
  pure : ∀ {α : Type} (a : α), Good (pure a : RunM α)
  /-- Only printing finds that the output is closed. -/
  throw : ∀ {α : Type} (halt : Halt), halt ≠ .closed → Good (throw halt : RunM α)
  bind : ∀ {α β : Type} {p : RunM α} {f : α → RunM β},
    Good p → (∀ a, Good (f a)) → Good (p >>= f)
  inspect : ∀ {α : Type} (f : Store → α), Good (RunM.inspect f)
  /-- Of the machine itself a program sees the current frame only. -/
  here : ∀ {α : Type} {f : FrameId → RunM α}, (∀ env, Good (f env)) →
    Good (get >>= fun m => f m.env)
  read : ∀ use, Good (RunM.read use)
  write : ∀ use value, Good (RunM.write use value)
  superBinding : ∀ keyword, Good (Lox.superBinding keyword)
  bound : ∀ f name value, Good (RunM.change (·.define f name value))
  newFrame : ∀ frame, Good (RunM.make (·.newFrame frame))
  newInstance : ∀ cls, Good (RunM.make (·.newInstance cls))
  setField : ∀ i name value, Good (RunM.change (·.setField i name value))
  newStamp : Good (RunM.make Store.newStamp)
  print : ∀ value, Good (RunM.print value)
  readClock : Good RunM.readClock
  withFrame : ∀ {α : Type} (f : FrameId) {p : RunM α}, Good p → Good (RunM.withFrame f p)
  deeper : ∀ {α : Type} {p : RunM α}, Good p → Good (RunM.deeper p)
  /-- A call is refused at the greatest depth. -/
  limited : ∀ {α : Type} (paren : Lexeme) {p : RunM α}, Good p →
    Good (get >>= fun m => if maxDepth ≤ m.depth then RunM.fail paren .stackOverflow else p)

namespace Compositional

open RunM

variable {Good : {α : Type} → RunM α → Prop} (good : Compositional Good)
include good

/-! ## Single actions -/

theorem fail {α : Type} (at_ : Lexeme) (fault : RuntimeFault) :
    Good (RunM.fail at_ fault : RunM α) :=
  good.throw _ nofun

theorem define (name : String) (value : Value) : Good (RunM.define name value) :=
  good.here fun env => good.bound env name value

theorem functionValue (closure : Closure) : Good (make (·.functionValue closure)) :=
  good.bind good.newStamp fun stamp => good.pure (Value.function closure stamp)

theorem bindMethod (method : Closure) (i : InstanceId) : Good (make (·.bindMethod method i)) :=
  good.bind (good.newFrame ⟨.single "this" (.instance i), some method.frame⟩) fun frame =>
    good.pure (Closure.mk method.decl frame method.isInitializer)

/-! ## Operators and properties -/

/-- An action that yields one value or fails is good. -/
theorem constant {α : Type} {p : RunM α} {P : α → Prop} (h : p.Constant P) : Good p := by
  rcases h with ⟨a, rfl, _⟩ | ⟨at_, fault, rfl⟩
  · exact good.pure a
  · exact good.fail at_ fault

theorem unary (sign : Lexeme) (op : TokenKind) (v : Value) : Good (op.applyUnary sign v) :=
  good.constant (op.unary_constant sign v)

theorem binary (sign : Lexeme) (op : TokenKind) (a b : Value) : Good (op.applyBinary sign a b) :=
  good.constant (op.binary_constant sign a b)

theorem asInstance (at_ : Lexeme) (fault : RuntimeFault) (v : Value) :
    Good (Lox.asInstance at_ fault v) :=
  good.constant (asInstance_constant at_ fault v)

theorem boundMethod (method : Closure) (i : InstanceId) : Good (Lox.boundMethod method i) :=
  good.bind (good.bindMethod method i) fun closure => good.functionValue closure

theorem readProperty (i : InstanceId) (property : Lexeme) :
    Good (Lox.readProperty i property) := by
  refine good.bind (good.inspect _) fun field => ?_
  split
  · exact good.pure _
  · refine good.bind (good.inspect _) fun method => ?_
    split
    · exact good.boundMethod _ i
    · exact good.fail _ _

theorem superMethod (keyword : Occurrence) (method : Lexeme) :
    Good (Lox.superMethod keyword method) := by
  refine good.bind (good.superBinding keyword) fun found => ?_
  split
  split
  · exact good.boundMethod _ _
  · exact good.fail _ _

/-! ## Expressions -/

mutual

/-- With good calls every expression is good. -/
theorem eval {call : Invoke} (hcall : ∀ f paren vs, Good (call f paren vs)) (e : Expr) :
    Good (e.eval call) := by
  cases e with
  | literal value => exact good.pure _
  | grouping inner => exact eval hcall inner
  | unary op sign operand => exact good.bind (eval hcall operand) fun v => good.unary sign op v
  | binary op sign left right =>
    exact good.bind (eval hcall left) fun a =>
      good.bind (eval hcall right) fun b => good.binary sign op a b
  | logical op sign left right =>
    refine good.bind (eval hcall left) fun a => ?_
    split
    · exact good.pure _
    · exact eval hcall right
  | name use => exact good.read use
  | assign target value =>
    exact good.bind (eval hcall value) fun v => good.bind (good.write target v) fun _ => good.pure _
  | call callee paren arguments =>
    exact good.bind (eval hcall callee) fun f =>
      good.bind (listEval hcall arguments) fun vs => hcall f paren vs
  | get object property =>
    exact good.bind (eval hcall object) fun v =>
      good.bind (good.asInstance _ _ v) fun i => good.readProperty i property
  | set object property value =>
    exact good.bind (eval hcall object) fun o =>
      good.bind (good.asInstance _ _ o) fun i =>
        good.bind (eval hcall value) fun v =>
          good.bind (good.setField i property.text v) fun _ => good.pure _
  | this keyword => exact good.read keyword
  | super keyword method => exact good.superMethod keyword method

theorem listEval {call : Invoke} (hcall : ∀ f paren vs, Good (call f paren vs))
    (es : List Expr) : Good (Expr.listEval call es) := by
  cases es with
  | nil => exact good.pure _
  | cons e es =>
    exact good.bind (eval hcall e) fun v => good.bind (listEval hcall es) fun vs => good.pure _

end

theorem optionEval {call : Invoke} (hcall : ∀ f paren vs, Good (call f paren vs))
    (e : Option Expr) : Good (Expr.optionEval call e) := by
  cases e with
  | none => exact good.pure _
  | some e => exact good.eval hcall e

/-! ## Statements -/

theorem whileLoop {condition : RunM Bool} {body : RunM Flow} (hcondition : Good condition)
    (hbody : Good body) (bound : Nat) : Good (Lox.whileLoop condition body bound) := by
  induction bound with
  | zero => exact good.throw _ nofun
  | succ bound ih =>
    refine good.bind hcondition fun holds => ?_
    split
    · refine good.bind hbody fun flow => ?_
      split
      · exact ih
      · exact good.pure _
      · exact good.pure _
    · exact good.pure _

theorem defineFunction (decl : FunctionDecl) : Good (Lox.defineFunction decl) :=
  good.here fun env =>
    good.bind (good.functionValue ⟨decl, env, false⟩) fun value => good.define decl.name.text value

theorem superclassOf (superclass : Option Occurrence) : Good (Lox.superclassOf superclass) := by
  cases superclass with
  | none => exact good.pure _
  | some use =>
    refine good.bind (good.read use) fun v => ?_
    split
    · exact good.pure _
    · exact good.fail _ _

theorem methodFrame (parent : Option Class) : Good (Lox.methodFrame parent) := by
  cases parent with
  | none => exact good.here fun env => good.pure _
  | some parent =>
    exact good.here fun env => good.newFrame ⟨.single "super" (.class parent), some env⟩

theorem defineClass (name : Lexeme) (superclass : Option Occurrence)
    (methods : List FunctionDecl) : Good (Lox.defineClass name superclass methods) :=
  good.bind (good.superclassOf superclass) fun parent =>
    good.bind (good.methodFrame parent) fun _ =>
      good.bind good.newStamp fun _ => good.define name.text _

mutual

/-- With good calls every statement is good. -/
theorem exec {call : Invoke} (hcall : ∀ f paren vs, Good (call f paren vs)) (bound : Nat)
    (s : Stmt) : Good (s.exec call bound) := by
  match s with
  | .expression value => exact good.bind (good.eval hcall value) fun _ => good.pure _
  | .print value =>
    exact good.bind (good.eval hcall value) fun v => good.bind (good.print v) fun _ => good.pure _
  | .var name initializer =>
    exact good.bind (good.optionEval hcall initializer) fun v =>
      good.bind (good.define name.text v) fun _ => good.pure _
  | .block body =>
    exact good.here fun env =>
      good.bind (good.newFrame ⟨.empty, some env⟩) fun f =>
        good.withFrame f (listExec hcall bound body)
  | .ifElse condition yes none =>
    refine good.bind (good.eval hcall condition) fun v => ?_
    split
    · exact exec hcall bound yes
    · exact good.pure _
  | .ifElse condition yes (some no) =>
    refine good.bind (good.eval hcall condition) fun v => ?_
    split
    · exact exec hcall bound yes
    · exact exec hcall bound no
  | .while condition body =>
    exact good.whileLoop (good.bind (good.eval hcall condition) fun v => good.pure _)
      (exec hcall bound body) bound
  | .break keyword => exact good.pure _
  | .function decl => exact good.bind (good.defineFunction decl) fun _ => good.pure _
  | .return keyword value => exact good.bind (good.optionEval hcall value) fun v => good.pure _
  | .class name superclass methods =>
    exact good.bind (good.defineClass name superclass methods) fun _ => good.pure _

theorem listExec {call : Invoke} (hcall : ∀ f paren vs, Good (call f paren vs)) (bound : Nat)
    (ss : List Stmt) : Good (Stmt.listExec call bound ss) := by
  match ss with
  | [] => exact good.pure _
  | s :: ss =>
    refine good.bind (exec hcall bound s) fun flow => ?_
    split
    · exact listExec hcall bound ss
    · exact good.pure _

end

/-! ## Calls -/

theorem checkArity (paren : Lexeme) (expected got : Nat) :
    Good (Lox.checkArity paren expected got) :=
  good.constant (checkArity_constant paren expected got)

theorem callClosure {run : List Stmt → RunM Flow} (hrun : ∀ body, Good (run body))
    (closure : Closure) (paren : Lexeme) (arguments : List Value) :
    Good (Lox.callClosure run closure paren arguments) := by
  refine good.limited paren ?_
  refine good.bind (good.newFrame _) fun frame => ?_
  refine good.bind (good.deeper (good.withFrame frame (hrun _))) fun flow => ?_
  split
  · exact good.inspect _
  · exact good.pure _

theorem instantiate {run : List Stmt → RunM Flow} (hrun : ∀ body, Good (run body))
    (cls : Class) (paren : Lexeme) (arguments : List Value) :
    Good (Lox.instantiate run cls paren arguments) := by
  refine good.bind (good.newInstance cls) fun i => ?_
  split
  · exact good.pure _
  · exact good.bind (good.bindMethod _ i) fun closure =>
      good.bind (good.callClosure hrun closure paren arguments) fun _ => good.pure _

theorem callValue {run : List Stmt → RunM Flow} (hrun : ∀ body, Good (run body))
    (f : Value) (paren : Lexeme) (arguments : List Value) :
    Good (Lox.callValue run f paren arguments) := by
  unfold Lox.callValue
  split
  · exact good.bind (good.checkArity _ _ _) fun _ => good.readClock
  · exact good.bind (good.checkArity _ _ _) fun _ => good.callClosure hrun _ _ _
  · exact good.bind (good.checkArity _ _ _) fun _ => good.instantiate hrun _ _ _
  · exact good.fail _ _

/-- Every call is good, however deep it may go. -/
theorem invoke (n : Nat) (f : Value) (paren : Lexeme) (arguments : List Value) :
    Good (Lox.invoke n f paren arguments) := by
  -- A body is run with calls that may go one less deep, and these are good by induction.
  induction n generalizing f paren arguments with
  | zero => exact good.throw _ nofun
  | succ n ih => exact good.callValue (good.listExec ih n) f paren arguments

theorem interpret (fuel : Nat) (program : List Stmt) : Good (Lox.interpret fuel program) :=
  good.bind (good.listExec (good.invoke fuel) fuel program) fun _ => good.pure _

end Compositional

end Lox
