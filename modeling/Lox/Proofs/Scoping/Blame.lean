/-
  Lox.Proofs.Scoping.Blame

  Where failures about names come from.  Whenever a run halts because a variable is
  undefined or because of `super`, it came to an occurrence of which the look-up
  fails in this way; nothing else in a run fails so.

    * `RuntimeFault.Naming` — the failures in question;
    * `RunM.Quiet` — actions that never fail so;
    * `Point.Blames` — a point from which a look-up that fails so is reached.
-/
import Lox.Proofs.Scoping.Calls

namespace Lox

open RunM

/-! ## Failures about names -/

/-- The failures that only the look-up of an occurrence has. -/
def RuntimeFault.Naming : RuntimeFault → Prop
  | undefinedVariable _ => True
  | superUnresolved => True
  | superUnbound => True
  | _ => False

/-- The look-up of a use fails on the machine. -/
def Machine.Misses (m : Machine) (use : Use) (e : RuntimeError) : Prop :=
  match use.kind with
  | .read => m.lookUp use.occurrence = .error e
  | .this => m.lookUp use.occurrence = .error e
  | .assign => target? m use.occurrence = none ∧ e = Store.undefined use.occurrence.name
  | .super => ∃ m', superBinding use.occurrence m = .error (.error e) m'

/-- From the point on a use comes up of which the look-up fails. -/
def Point.Blames (p : Point) (e : RuntimeError) : Prop :=
  ∃ k use m, p.Reaches ⟨k, .look use, m⟩ ∧ m.Misses use e

theorem Point.Blames.of_step {p q : Point} {e : RuntimeError} (h : q.Blames e) (hstep : p.Step q) :
    p.Blames e := by
  obtain ⟨k, use, m, hreaches, hmisses⟩ := h
  exact ⟨k, use, m, .head hstep hreaches, hmisses⟩

/-- An action that fails, if at all, for another reason than a name. -/
def RunM.Quiet {α : Type} (p : RunM α) : Prop :=
  ∀ m e m', p m = .error (.error e) m' → ¬e.fault.Naming

variable {α β : Type}

namespace RunM.Quiet

theorem pure (a : α) : Quiet (pure a : RunM α) := nofun

theorem fail (at_ : Lexeme) {fault : RuntimeFault} (h : ¬fault.Naming) :
    Quiet (RunM.fail at_ fault : RunM α) := by
  rintro m e m' ⟨⟩
  exact h

theorem bind {p : RunM α} {f : α → RunM β} (hp : Quiet p) (hf : ∀ a, Quiet (f a)) :
    Quiet (p >>= f) := by
  intro m e m' h
  rcases bind_error h with h | ⟨a, m₁, _, h⟩
  · exact hp m e m' h
  · exact hf a m₁ e m' h

theorem inspect (f : Store → α) : Quiet (RunM.inspect f) := nofun

theorem make (f : Store → α × Store) : Quiet (RunM.make f) := nofun

theorem change (f : Store → Store) : Quiet (RunM.change f) := nofun

theorem get : Quiet (get : RunM Machine) := nofun

theorem define (name : String) (value : Value) : Quiet (RunM.define name value) :=
  get.bind fun _ => change _

theorem print (value : Value) : Quiet (RunM.print value) := by
  intro m e m' h
  unfold RunM.print at h
  dsimp only at h
  split at h <;> cases h

theorem readClock : Quiet RunM.readClock := by
  intro m e m' h
  unfold RunM.readClock at h
  split at h <;> cases h

theorem unary (sign : Lexeme) (op : TokenKind) (v : Value) : Quiet (op.applyUnary sign v) := by
  rcases op.applyUnary_cases sign v with ⟨w, heq, _⟩ | ⟨fault, heq, hfault⟩
  · rw [heq]
    exact pure w
  · rw [heq]
    rcases hfault with ⟨⟨⟩⟩ | ⟨_, rfl⟩ <;> exact fail sign id

theorem binary (sign : Lexeme) (op : TokenKind) (a b : Value) :
    Quiet (op.applyBinary sign a b) := by
  rcases op.applyBinary_cases sign a b with ⟨w, heq, _⟩ | ⟨fault, heq, hfault⟩
  · rw [heq]
    exact pure w
  · rw [heq]
    rcases hfault with ⟨⟨⟩⟩ | ⟨_, rfl⟩ <;> exact fail sign id

theorem asInstance (at_ : Lexeme) {fault : RuntimeFault} (h : ¬fault.Naming) (v : Value) :
    Quiet (asInstance at_ fault v) := by
  unfold Lox.asInstance
  split
  · exact pure _
  · exact fail _ h

theorem boundMethod (method : Closure) (i : InstanceId) : Quiet (boundMethod method i) :=
  (make _).bind fun _ => make _

theorem readProperty (i : InstanceId) (property : Lexeme) : Quiet (readProperty i property) := by
  refine (inspect _).bind fun field => ?_
  split
  · exact pure _
  · refine (inspect _).bind fun method => ?_
    split
    · exact boundMethod _ i
    · exact fail _ id

theorem checkArity (paren : Lexeme) (expected got : Nat) :
    Quiet (checkArity paren expected got) := by
  unfold Lox.checkArity
  split
  · exact pure _
  · exact fail _ id

end RunM.Quiet

/-! ## Look-ups -/

variable {m m' : Machine} {e : RuntimeError}

theorem lookUp_of_read {use : Occurrence} (h : read use m = .error (.error e) m') :
    m.lookUp use = .error e := by
  rw [read_eq] at h
  cases hlook : m.lookUp use with
  | ok v =>
    rw [hlook] at h
    cases h
  | error e' =>
    rw [hlook] at h
    cases h
    rfl

theorem misses_of_write {use : Occurrence} {v : Value} (h : write use v m = .error (.error e) m') :
    m.Misses ⟨.assign, use⟩ e := by
  unfold RunM.write at h
  cases htarget : target? m use with
  | none =>
    simp only [htarget] at h
    cases h
    exact ⟨htarget, rfl⟩
  | some g =>
    simp only [htarget] at h
    cases h

theorem misses_of_superMethod {keyword : Occurrence} {method : Lexeme} (hfault : e.fault.Naming)
    (h : superMethod keyword method m = .error (.error e) m') : m.Misses ⟨.super, keyword⟩ e := by
  rcases bind_error h with h | ⟨⟨parent, i⟩, m₁, _, h⟩
  · exact ⟨m', h⟩
  · refine absurd hfault ?_
    cases hfound : parent.findMethod method.text with
    | some found =>
      simp only [hfound] at h
      exact Quiet.boundMethod _ _ _ _ _ h
    | none =>
      simp only [hfound] at h
      exact Quiet.fail _ id _ _ _ h

/-! ## Runs -/

/-- What blames each of its calls. -/
def CallsBlame (k : Nat) : Prop :=
  ∀ f paren vs (m m' : Machine) (e : RuntimeError), invoke k f paren vs m = .error (.error e) m' →
    e.fault.Naming → Point.Blames ⟨k, .call f vs, m⟩ e

theorem Point.Reaches.blames {p : Point} {k : Nat} {use : Use}
    (h : p.Step ⟨k, .look use, m⟩) (hmisses : m.Misses use e) : p.Blames e :=
  ⟨k, use, m, .single h, hmisses⟩

mutual

/-- A failure about a name comes from an occurrence in the expression, or in a body
    that is called. -/
theorem Expr.blames {k : Nat} (hcall : CallsBlame k) (expr : Expr) {m m' : Machine}
    {e : RuntimeError} (hfault : e.fault.Naming)
    (h : expr.eval (invoke k) m = .error (.error e) m') : Point.Blames ⟨k, .expr expr, m⟩ e := by
  cases expr with
  | literal value => cases h
  | grouping inner => exact (Expr.blames hcall inner hfault h).of_step .grouping
  | unary op sign operand =>
    rcases bind_error h with h | ⟨v, m₁, _, h⟩
    · exact (Expr.blames hcall operand hfault h).of_step .operand
    · exact absurd hfault (Quiet.unary _ _ _ _ _ _ h)
  | binary op sign left right =>
    rcases bind_error h with h | ⟨a, m₁, hleft, h⟩
    · exact (Expr.blames hcall left hfault h).of_step .left
    rcases bind_error h with h | ⟨b, m₂, _, h⟩
    · exact (Expr.blames hcall right hfault h).of_step (.right hleft)
    · exact absurd hfault (Quiet.binary _ _ _ _ _ _ _ h)
  | logical op sign left right =>
    rcases bind_error h with h | ⟨a, m₁, hleft, h⟩
    · exact (Expr.blames hcall left hfault h).of_step .first
    cases hdecided : op.decidedBy a with
    | true =>
      rw [hdecided, if_pos rfl] at h
      cases h
    | false =>
      rw [hdecided, if_neg Bool.false_ne_true] at h
      exact (Expr.blames hcall right hfault h).of_step (.second hleft hdecided)
  | name use => exact Point.Reaches.blames .name (lookUp_of_read h)
  | assign target value =>
    rcases bind_error h with h | ⟨v, m₁, hvalue, h⟩
    · exact (Expr.blames hcall value hfault h).of_step .assigned
    rcases bind_error h with h | ⟨_, m₂, _, h⟩
    · exact Point.Reaches.blames (.target hvalue) (misses_of_write h)
    · cases h
  | call callee paren arguments =>
    rcases bind_error h with h | ⟨f, m₁, hcallee, h⟩
    · exact (Expr.blames hcall callee hfault h).of_step .callee
    rcases bind_error h with h | ⟨vs, m₂, harguments, h⟩
    · exact (Expr.listBlames hcall arguments hfault h).of_step (.arguments hcallee)
    · exact (hcall _ _ _ _ _ _ h hfault).of_step (.called hcallee harguments)
  | get object property =>
    rcases bind_error h with h | ⟨o, m₁, _, h⟩
    · exact (Expr.blames hcall object hfault h).of_step .object
    refine absurd hfault (Quiet.bind (Quiet.asInstance _ id o) ?_ _ _ _ h)
    exact fun i => Quiet.readProperty i property
  | set object property value =>
    rcases bind_error h with h | ⟨o, m₁, hobject, h⟩
    · exact (Expr.blames hcall object hfault h).of_step .holder
    rcases bind_error h with h | ⟨i, m₂, hinstance, h⟩
    · exact absurd hfault (Quiet.asInstance _ id o _ _ _ h)
    rcases bind_error h with h | ⟨v, m₃, _, h⟩
    · refine (Expr.blames hcall value hfault h).of_step (.stored (i := i) ?_)
      unfold asInstance at hinstance
      split at hinstance
      · cases hinstance
        exact hobject
      · cases hinstance
    · exact absurd hfault (Quiet.bind (Quiet.change _) (fun _ => Quiet.pure _) _ _ _ h)
  | this keyword => exact Point.Reaches.blames .this (lookUp_of_read h)
  | super keyword method => exact Point.Reaches.blames .super (misses_of_superMethod hfault h)

theorem Expr.listBlames {k : Nat} (hcall : CallsBlame k) (es : List Expr) {m m' : Machine}
    {e : RuntimeError} (hfault : e.fault.Naming)
    (h : Expr.listEval (invoke k) es m = .error (.error e) m') :
    Point.Blames ⟨k, .exprs es, m⟩ e := by
  cases es with
  | nil => cases h
  | cons expr es =>
    rcases bind_error h with h | ⟨v, m₁, hhead, h⟩
    · exact (Expr.blames hcall expr hfault h).of_step .head
    rcases bind_error h with h | ⟨vs, m₂, _, h⟩
    · exact (Expr.listBlames hcall es hfault h).of_step (.tail hhead)
    · cases h

end

theorem rounds_blame {k : Nat} {condition : Expr} {body : Stmt}
    (hcondition : ∀ m m' e, e.fault.Naming → condition.eval (invoke k) m = .error (.error e) m' →
      Point.Blames ⟨k, .expr condition, m⟩ e)
    (hbody : ∀ m m' e, e.fault.Naming → body.exec (invoke k) k m = .error (.error e) m' →
      Point.Blames ⟨k, .stmt body, m⟩ e)
    (left : Nat) {m m' : Machine} {e : RuntimeError} (hfault : e.fault.Naming)
    (h : whileLoop (do return (← condition.eval (invoke k)).isTruthy)
      (body.exec (invoke k) k) left m
      = .error (.error e) m') :
    Point.Blames ⟨k, .rounds condition body left, m⟩ e := by
  induction left generalizing m with
  | zero => cases h
  | succ left ih =>
    -- The condition failed, or this round, or a later one.
    rcases bind_error h with h | ⟨holds, m₁, hholds, h⟩
    · rcases bind_error h with h | ⟨v, m₂, _, h⟩
      · exact (hcondition m _ e hfault h).of_step .asked
      · cases h
    obtain ⟨v, _, hv, hpure⟩ := bind_ok hholds
    cases hpure
    cases htruthy : v.isTruthy with
    | false =>
      rw [htruthy, if_neg Bool.false_ne_true] at h
      cases h
    | true =>
      rw [htruthy, if_pos rfl] at h
      rcases bind_error h with h | ⟨flow, m₂, hround, h⟩
      · exact (hbody _ _ e hfault h).of_step (.round hv htruthy)
      cases flow with
      | normal => exact (ih h).of_step (.again hv htruthy hround)
      | broken => cases h
      | returned v => cases h

theorem quiet_defineFunction (decl : FunctionDecl) : Quiet (defineFunction decl) :=
  Quiet.get.bind fun _ => (Quiet.make _).bind fun _ => Quiet.define _ _

/-- A class fails about a name only when its superclass is read. -/
theorem defineClass_error {name : Lexeme} {superclass : Option Occurrence}
    {methods : List FunctionDecl} {m m' : Machine} {e : RuntimeError} (hfault : e.fault.Naming)
    (h : defineClass name superclass methods m = .error (.error e) m') :
    ∃ use, superclass = some use ∧ m.lookUp use = .error e := by
  rcases bind_error h with h | ⟨parent, m₁, _, h⟩
  · cases superclass with
    | none => cases h
    | some use =>
      rcases bind_error h with h | ⟨v, m₁, _, h⟩
      · exact ⟨use, rfl, lookUp_of_read h⟩
      · refine absurd hfault ?_
        cases v with
        | «class» parent => cases h
        | _ => exact Quiet.fail _ id _ _ _ h
  · refine absurd hfault ?_
    have hframe : Quiet (methodFrame parent) := by
      cases parent with
      | none => exact Quiet.get.bind fun _ => Quiet.pure _
      | some parent => exact Quiet.get.bind fun _ => Quiet.make _
    exact hframe.bind (fun _ => (Quiet.make _).bind fun _ => Quiet.define _ _) _ _ _ h

mutual

/-- A failure about a name comes from an occurrence in the statement, or in a body
    that is called. -/
theorem Stmt.blames {k : Nat} (hcall : CallsBlame k) (s : Stmt) {m m' : Machine}
    {e : RuntimeError} (hfault : e.fault.Naming)
    (h : s.exec (invoke k) k m = .error (.error e) m') : Point.Blames ⟨k, .stmt s, m⟩ e := by
  match s with
  | .expression value =>
    rcases bind_error h with h | ⟨v, m₁, _, h⟩
    · exact (Expr.blames hcall value hfault h).of_step .expression
    · cases h
  | .print value =>
    rcases bind_error h with h | ⟨v, m₁, _, h⟩
    · exact (Expr.blames hcall value hfault h).of_step .print
    · exact absurd hfault ((Quiet.print v).bind (fun _ => Quiet.pure _) _ _ _ h)
  | .var name initializer =>
    rcases bind_error h with h | ⟨v, m₁, _, h⟩
    · cases initializer with
      | none => cases h
      | some value => exact (Expr.blames hcall value hfault h).of_step .var
    · exact absurd hfault ((Quiet.define _ v).bind (fun _ => Quiet.pure _) _ _ _ h)
  | .block body =>
    rcases bind_error h with h | ⟨a, m₁, hget, h⟩
    · cases h
    cases hget
    rcases bind_error h with h | ⟨f, m₁, hmake, h⟩
    · cases h
    cases hmake
    obtain ⟨m₁, h⟩ := withFrame_error h
    exact (Stmt.listBlames hcall body hfault h).of_step .block
  | .ifElse condition yes none =>
    rcases bind_error h with h | ⟨v, m₁, hcondition, h⟩
    · exact (Expr.blames hcall condition hfault h).of_step .condition
    cases htruthy : v.isTruthy with
    | false =>
      rw [htruthy, if_neg Bool.false_ne_true] at h
      cases h
    | true =>
      rw [htruthy, if_pos rfl] at h
      exact (Stmt.blames hcall yes hfault h).of_step (.yes hcondition htruthy)
  | .ifElse condition yes (some no) =>
    rcases bind_error h with h | ⟨v, m₁, hcondition, h⟩
    · exact (Expr.blames hcall condition hfault h).of_step .condition
    cases htruthy : v.isTruthy with
    | false =>
      rw [htruthy, if_neg Bool.false_ne_true] at h
      exact (Stmt.blames hcall no hfault h).of_step (.no hcondition htruthy)
    | true =>
      rw [htruthy, if_pos rfl] at h
      exact (Stmt.blames hcall yes hfault h).of_step (.yes hcondition htruthy)
  | .while condition body =>
    exact (rounds_blame (fun _ _ _ hfault h => Expr.blames hcall condition hfault h)
      (fun _ _ _ hfault h => Stmt.blames hcall body hfault h) k hfault h).of_step .loop
  | .break keyword => cases h
  | .function decl =>
    exact absurd hfault ((quiet_defineFunction decl).bind (fun _ => Quiet.pure _) _ _ _ h)
  | .return keyword value =>
    rcases bind_error h with h | ⟨v, m₁, _, h⟩
    · cases value with
      | none => cases h
      | some value => exact (Expr.blames hcall value hfault h).of_step .return
    · cases h
  | .class name superclass methods =>
    rcases bind_error h with h | ⟨_, m₁, _, h⟩
    · obtain ⟨use, rfl, hlook⟩ := defineClass_error hfault h
      exact Point.Reaches.blames .superclass hlook
    · cases h

theorem Stmt.listBlames {k : Nat} (hcall : CallsBlame k) (ss : List Stmt) {m m' : Machine}
    {e : RuntimeError} (hfault : e.fault.Naming)
    (h : Stmt.listExec (invoke k) k ss m = .error (.error e) m') :
    Point.Blames ⟨k, .stmts ss, m⟩ e := by
  match ss with
  | [] => cases h
  | s :: ss =>
    rcases bind_error h with h | ⟨flow, m₁, hfirst, h⟩
    · exact (Stmt.blames hcall s hfault h).of_step .statement
    cases flow with
    | normal => exact (Stmt.listBlames hcall ss hfault h).of_step (.statements hfirst)
    | broken => cases h
    | returned v => cases h

end

/-- Where a call of a closure fails about a name, its body was begun and failed so. -/
theorem callClosure_error {run : List Stmt → RunM Flow} {closure : Closure} {paren : Lexeme}
    {arguments : List Value} {m m' : Machine} {e : RuntimeError} (hfault : e.fault.Naming)
    (h : callClosure run closure paren arguments m = .error (.error e) m') :
    m.depth < maxDepth ∧ ∃ m₁,
      run closure.decl.body (m.enter closure arguments) = .error (.error e) m₁ := by
  rcases bind_error h with h | ⟨a, m₁, hget, h⟩
  · cases h
  cases hget
  by_cases hdepth : maxDepth ≤ m.depth
  · rw [if_pos hdepth] at h
    exact absurd hfault (Quiet.fail _ id _ _ _ h)
  · rw [if_neg hdepth] at h
    refine ⟨Nat.lt_of_not_le hdepth, ?_⟩
    rcases bind_error h with h | ⟨f, m₁, hmake, h⟩
    · cases h
    cases hmake
    rcases bind_error h with h | ⟨flow, m₁, _, h⟩
    · obtain ⟨m₁, h⟩ := deeper_error h
      exact withFrame_error h
    · refine absurd hfault ?_
      cases hinit : closure.isInitializer with
      | true =>
        rw [hinit, if_pos rfl] at h
        cases h
      | false =>
        rw [hinit, if_neg Bool.false_ne_true] at h
        cases h

theorem callsBlame_zero : CallsBlame 0 := nofun

/-- A failure about a name in a call comes from the body. -/
theorem CallsBlame.succ {k : Nat} (hcall : CallsBlame k) : CallsBlame (k + 1) := by
  intro f paren vs m m' e h hfault
  cases f with
  | native name =>
    exact absurd hfault ((Quiet.checkArity _ _ _).bind (fun _ => Quiet.readClock) _ _ _ h)
  | function closure stamp =>
    rcases bind_error h with h | ⟨_, m₁, hcheck, hcalled⟩
    · exact absurd hfault (Quiet.checkArity _ _ _ _ _ _ h)
    obtain ⟨harity, rfl⟩ := checkArity_ok hcheck
    obtain ⟨hdepth, _, hbody⟩ := callClosure_error hfault hcalled
    exact (Stmt.listBlames hcall _ hfault hbody).of_step (.function harity hdepth)
  | «class» cls =>
    rcases bind_error h with h | ⟨_, m₁, hcheck, hmade⟩
    · exact absurd hfault (Quiet.checkArity _ _ _ _ _ _ h)
    obtain ⟨harity, rfl⟩ := checkArity_ok hcheck
    rcases bind_error hmade with hmade | ⟨i, m₂, hborn, hmade⟩
    · cases hmade
    cases hborn
    cases hinit : cls.findMethod "init" with
    | none =>
      simp only [hinit] at hmade
      cases hmade
    | some init =>
      simp only [hinit] at hmade
      rcases bind_error hmade with hmade | ⟨closure, m₃, hbound, hmade⟩
      · cases hmade
      cases hbound
      rcases bind_error hmade with hcalled | ⟨_, m₄, _, hmade⟩
      · obtain ⟨hdepth, _, hbody⟩ := callClosure_error hfault hcalled
        refine (Stmt.listBlames hcall _ hfault hbody).of_step (.initializer hinit rfl ?_ hdepth)
        rw [← harity, Class.arity, hinit]
        rfl
      · cases hmade
  | _ => exact absurd hfault (Quiet.fail _ id _ _ _ h)

theorem callsBlame (k : Nat) : CallsBlame k := by
  induction k with
  | zero => exact callsBlame_zero
  | succ k ih => exact ih.succ

end Lox
