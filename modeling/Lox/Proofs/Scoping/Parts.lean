/-
  Lox.Proofs.Scoping.Parts

  The parts of a task as a list.

    * `Point.parts` — what comes up when a task is done, in this order;
    * `Point.mem_parts` — these are the points to which steps lead;
    * `Point.Step.rank_lt` — steps lead down, so that there is an induction on points:
      what holds of a point if it holds of its parts holds of every point.
-/
import Lox.Proofs.Scoping.Points
import Mathlib.Data.Prod.Lex
import Mathlib.Order.WellFounded

namespace Lox

/-! ## Parts -/

/-- What comes up behind an action, if it goes well. -/
def RunM.behind {α β : Type} (x : RunM α) (m : Machine) (next : α → Machine → List β) : List β :=
  match x m with
  | .ok a n => next a n
  | .error _ _ => []

section

variable {α β : Type} {x : RunM α} {m n : Machine} {next : α → Machine → List β} {b : β}

theorem RunM.behind_of_ok {a : α} (h : x m = .ok a n) : x.behind m next = next a n := by
  unfold RunM.behind
  rw [h]

theorem RunM.behind_of_error {halt : Halt} (h : x m = .error halt n) : x.behind m next = [] := by
  unfold RunM.behind
  rw [h]

theorem RunM.mem_behind : b ∈ x.behind m next ↔ ∃ a n, x m = .ok a n ∧ b ∈ next a n := by
  cases hrun : x m with
  | ok a n =>
    rw [behind_of_ok hrun]
    constructor
    · exact fun hmem => ⟨a, n, rfl, hmem⟩
    · rintro ⟨a', n', heq, hmem⟩
      cases heq
      exact hmem
  | error halt n =>
    rw [behind_of_error hrun]
    constructor
    · intro hmem
      cases hmem
    · rintro ⟨a', n', heq, -⟩
      cases heq

end

/-- The parts of an expression.  A later one comes up if the ones before it go well. -/
def Expr.parts (k : Nat) (m : Machine) : Expr → List Point
  | .literal _ => []
  | .grouping inner => [⟨k, .expr inner, m⟩]
  | .unary _ _ operand => [⟨k, .expr operand, m⟩]
  | .binary _ _ left right =>
    ⟨k, .expr left, m⟩ :: (left.eval (invoke k)).behind m fun _ m' => [⟨k, .expr right, m'⟩]
  | .logical op _ left right =>
    ⟨k, .expr left, m⟩ :: (left.eval (invoke k)).behind m fun a m' =>
      if op.decidedBy a then [] else [⟨k, .expr right, m'⟩]
  | .name use => [⟨k, .look ⟨.read, use⟩, m⟩]
  | .assign target value =>
    ⟨k, .expr value, m⟩ :: (value.eval (invoke k)).behind m fun _ m' =>
      [⟨k, .look ⟨.assign, target⟩, m'⟩]
  | .call callee _ arguments =>
    ⟨k, .expr callee, m⟩ :: (callee.eval (invoke k)).behind m fun f m' =>
      ⟨k, .exprs arguments, m'⟩ :: (Expr.listEval (invoke k) arguments).behind m' fun vs m'' =>
        [⟨k, .call f vs, m''⟩]
  | .get object _ => [⟨k, .expr object, m⟩]
  | .set object _ value =>
    ⟨k, .expr object, m⟩ :: (object.eval (invoke k)).behind m fun o m' =>
      match o with
      | .instance _ => [⟨k, .expr value, m'⟩]
      | _ => []
  | .this keyword => [⟨k, .look ⟨.this, keyword⟩, m⟩]
  | .super keyword _ => [⟨k, .look ⟨.super, keyword⟩, m⟩]

/-- The parts of a statement. -/
def Stmt.parts (k : Nat) (m : Machine) : Stmt → List Point
  | .expression value => [⟨k, .expr value, m⟩]
  | .print value => [⟨k, .expr value, m⟩]
  | .var _ none => []
  | .var _ (some value) => [⟨k, .expr value, m⟩]
  | .block body => [⟨k, .stmts body, m.inBlock⟩]
  | .ifElse condition yes no =>
    ⟨k, .expr condition, m⟩ :: (condition.eval (invoke k)).behind m fun v m' =>
      if v.isTruthy then [⟨k, .stmt yes, m'⟩]
      else match no with
        | none => []
        | some no => [⟨k, .stmt no, m'⟩]
  | .while condition body => [⟨k, .rounds condition body k, m⟩]
  | .break _ => []
  | .function _ => []
  | .return _ none => []
  | .return _ (some value) => [⟨k, .expr value, m⟩]
  | .class _ none _ => []
  | .class _ (some use) _ => [⟨k, .look ⟨.read, use⟩, m⟩]

/-- The body of a closure comes up if the arguments are as many as it takes, and the call is
    not too deep. -/
def Closure.parts (closure : Closure) (k : Nat) (vs : List Value) (m : Machine) : List Point :=
  if closure.arity = vs.length ∧ m.depth < maxDepth then
    [⟨k, .stmts closure.decl.body, m.enter closure vs⟩]
  else []

/-- The parts of a call inside which `k` more may be made. -/
def Value.parts (k : Nat) (vs : List Value) (m : Machine) : Value → List Point
  | .function closure _ => closure.parts k vs m
  | .class cls =>
    match cls.findMethod "init" with
    | none => []
    | some init => (m.receive cls init).1.parts k vs (m.receive cls init).2
  | _ => []

/-- The parts of a task, in the order in which they come up. -/
def Point.parts : Point → List Point
  | ⟨k, .expr e, m⟩ => e.parts k m
  | ⟨_, .exprs [], _⟩ => []
  | ⟨k, .exprs (e :: es), m⟩ =>
    ⟨k, .expr e, m⟩ :: (e.eval (invoke k)).behind m fun _ m' => [⟨k, .exprs es, m'⟩]
  | ⟨k, .stmt s, m⟩ => s.parts k m
  | ⟨_, .stmts [], _⟩ => []
  | ⟨k, .stmts (s :: ss), m⟩ =>
    ⟨k, .stmt s, m⟩ :: (s.exec (invoke k) k).behind m fun flow m' =>
      match flow with
      | .normal => [⟨k, .stmts ss, m'⟩]
      | _ => []
  | ⟨_, .rounds _ _ 0, _⟩ => []
  | ⟨k, .rounds condition body (left + 1), m⟩ =>
    ⟨k, .expr condition, m⟩ :: (condition.eval (invoke k)).behind m fun v m' =>
      if v.isTruthy then
        ⟨k, .stmt body, m'⟩ :: (body.exec (invoke k) k).behind m' fun flow m'' =>
          match flow with
          | .normal => [⟨k, .rounds condition body left, m''⟩]
          | _ => []
      else []
  | ⟨0, .call _ _, _⟩ => []
  | ⟨k + 1, .call f vs, m⟩ => f.parts k vs m
  | ⟨_, .look _, _⟩ => []

/-! ## Parts and steps -/

variable {p q : Point}

theorem Closure.mem_parts {closure : Closure} {k : Nat} {vs : List Value} {m : Machine} :
    q ∈ closure.parts k vs m ↔ closure.arity = vs.length ∧ m.depth < maxDepth ∧
      q = ⟨k, .stmts closure.decl.body, m.enter closure vs⟩ := by
  unfold Closure.parts
  split
  · next h => simp [h.1, h.2]
  · next h =>
    constructor
    · intro hmem
      cases hmem
    · rintro ⟨harity, hdepth, -⟩
      exact absurd ⟨harity, hdepth⟩ h

/-- Where a step leads is a part. -/
theorem Point.Step.mem_parts (h : p.Step q) : q ∈ p.parts := by
  cases h with
  | right hleft => simp [parts, Expr.parts, RunM.behind_of_ok hleft]
  | second hleft hopen => simp [parts, Expr.parts, RunM.behind_of_ok hleft, hopen]
  | target hvalue => simp [parts, Expr.parts, RunM.behind_of_ok hvalue]
  | arguments hcallee => simp [parts, Expr.parts, RunM.behind_of_ok hcallee]
  | called hcallee harguments =>
    simp [parts, Expr.parts, RunM.behind_of_ok hcallee, RunM.behind_of_ok harguments]
  | stored hobject => simp [parts, Expr.parts, RunM.behind_of_ok hobject]
  | tail hhead => simp [parts, RunM.behind_of_ok hhead]
  | function harity hdepth => exact Closure.mem_parts.mpr ⟨harity, hdepth, rfl⟩
  | initializer hinit hreceive harity hdepth =>
    cases hreceive
    simp only [parts, Value.parts, hinit]
    exact Closure.mem_parts.mpr ⟨harity, hdepth, rfl⟩
  | yes hcondition htruthy =>
    simp [parts, Stmt.parts, RunM.behind_of_ok hcondition, htruthy]
  | no hcondition hfalsy => simp [parts, Stmt.parts, RunM.behind_of_ok hcondition, hfalsy]
  | statements hfirst => simp [parts, RunM.behind_of_ok hfirst]
  | round hcondition htruthy => simp [parts, RunM.behind_of_ok hcondition, htruthy]
  | again hcondition htruthy hround =>
    simp [parts, RunM.behind_of_ok hcondition, htruthy, RunM.behind_of_ok hround]
  | _ => simp [parts, Expr.parts, Stmt.parts]

theorem Expr.step_of_mem_parts {k : Nat} {m : Machine} {e : Expr} (h : q ∈ e.parts k m) :
    Point.Step ⟨k, .expr e, m⟩ q := by
  cases e with
  | literal value => cases h
  | grouping inner =>
    cases List.mem_singleton.mp h
    exact .grouping
  | unary op sign operand =>
    cases List.mem_singleton.mp h
    exact .operand
  | binary op sign left right =>
    rcases List.mem_cons.mp h with rfl | h
    · exact .left
    · obtain ⟨a, m', hleft, h⟩ := RunM.mem_behind.mp h
      cases List.mem_singleton.mp h
      exact .right hleft
  | logical op sign left right =>
    rcases List.mem_cons.mp h with rfl | h
    · exact .first
    · obtain ⟨a, m', hleft, h⟩ := RunM.mem_behind.mp h
      cases hdecided : op.decidedBy a with
      | true =>
        rw [hdecided, if_pos rfl] at h
        cases h
      | false =>
        rw [hdecided, if_neg Bool.false_ne_true] at h
        cases List.mem_singleton.mp h
        exact .second hleft hdecided
  | name use =>
    cases List.mem_singleton.mp h
    exact .name
  | assign target value =>
    rcases List.mem_cons.mp h with rfl | h
    · exact .assigned
    · obtain ⟨v, m', hvalue, h⟩ := RunM.mem_behind.mp h
      cases List.mem_singleton.mp h
      exact .target hvalue
  | call callee paren arguments =>
    rcases List.mem_cons.mp h with rfl | h
    · exact .callee
    · obtain ⟨f, m', hcallee, h⟩ := RunM.mem_behind.mp h
      rcases List.mem_cons.mp h with rfl | h
      · exact .arguments hcallee
      · obtain ⟨vs, m'', harguments, h⟩ := RunM.mem_behind.mp h
        cases List.mem_singleton.mp h
        exact .called hcallee harguments
  | get object property =>
    cases List.mem_singleton.mp h
    exact .object
  | set object property value =>
    rcases List.mem_cons.mp h with rfl | h
    · exact .holder
    · obtain ⟨o, m', hobject, h⟩ := RunM.mem_behind.mp h
      cases o with
      | «instance» i =>
        cases List.mem_singleton.mp h
        exact .stored hobject
      | _ => cases h
  | this keyword =>
    cases List.mem_singleton.mp h
    exact .this
  | super keyword method =>
    cases List.mem_singleton.mp h
    exact .super

theorem Stmt.step_of_mem_parts {k : Nat} {m : Machine} {s : Stmt} (h : q ∈ s.parts k m) :
    Point.Step ⟨k, .stmt s, m⟩ q := by
  match s with
  | .expression value =>
    cases List.mem_singleton.mp h
    exact .expression
  | .print value =>
    cases List.mem_singleton.mp h
    exact .print
  | .var name none => cases h
  | .var name (some value) =>
    cases List.mem_singleton.mp h
    exact .var
  | .block body =>
    cases List.mem_singleton.mp h
    exact .block
  | .ifElse condition yes no =>
    rcases List.mem_cons.mp h with rfl | h
    · exact .condition
    · obtain ⟨v, m', hcondition, h⟩ := RunM.mem_behind.mp h
      cases htruthy : v.isTruthy with
      | true =>
        rw [htruthy, if_pos rfl] at h
        cases List.mem_singleton.mp h
        exact .yes hcondition htruthy
      | false =>
        rw [htruthy, if_neg Bool.false_ne_true] at h
        cases no with
        | none => cases h
        | some no =>
          cases List.mem_singleton.mp h
          exact .no hcondition htruthy
  | .while condition body =>
    cases List.mem_singleton.mp h
    exact .loop
  | .break keyword => cases h
  | .function decl => cases h
  | .return keyword none => cases h
  | .return keyword (some value) =>
    cases List.mem_singleton.mp h
    exact .return
  | .class name none methods => cases h
  | .class name (some use) methods =>
    cases List.mem_singleton.mp h
    exact .superclass

theorem Value.step_of_mem_parts {k : Nat} {vs : List Value} {m : Machine} {f : Value}
    (h : q ∈ f.parts k vs m) : Point.Step ⟨k + 1, .call f vs, m⟩ q := by
  cases f with
  | function closure stamp =>
    obtain ⟨harity, hdepth, rfl⟩ := Closure.mem_parts.mp h
    exact .function harity hdepth
  | «class» cls =>
    cases hinit : cls.findMethod "init" with
    | none =>
      simp only [Value.parts, hinit] at h
      cases h
    | some init =>
      simp only [Value.parts, hinit] at h
      obtain ⟨harity, hdepth, rfl⟩ := Closure.mem_parts.mp h
      exact .initializer hinit rfl harity hdepth
  | _ => cases h

/-- The parts of a point are what comes up in it. -/
theorem Point.mem_parts : q ∈ p.parts ↔ p.Step q := by
  refine ⟨fun h => ?_, Step.mem_parts⟩
  match p with
  | ⟨k, .expr e, m⟩ => exact Expr.step_of_mem_parts h
  | ⟨k, .exprs [], m⟩ => cases h
  | ⟨k, .exprs (e :: es), m⟩ =>
    rcases List.mem_cons.mp h with rfl | h
    · exact .head
    · obtain ⟨v, m', hhead, h⟩ := RunM.mem_behind.mp h
      cases List.mem_singleton.mp h
      exact .tail hhead
  | ⟨k, .stmt s, m⟩ => exact Stmt.step_of_mem_parts h
  | ⟨k, .stmts [], m⟩ => cases h
  | ⟨k, .stmts (s :: ss), m⟩ =>
    rcases List.mem_cons.mp h with rfl | h
    · exact .statement
    · obtain ⟨flow, m', hfirst, h⟩ := RunM.mem_behind.mp h
      cases flow with
      | normal =>
        cases List.mem_singleton.mp h
        exact .statements hfirst
      | _ => cases h
  | ⟨k, .rounds condition body 0, m⟩ => cases h
  | ⟨k, .rounds condition body (left + 1), m⟩ =>
    rcases List.mem_cons.mp h with rfl | h
    · exact .asked
    · obtain ⟨v, m', hcondition, h⟩ := RunM.mem_behind.mp h
      cases htruthy : v.isTruthy with
      | false =>
        rw [htruthy, if_neg Bool.false_ne_true] at h
        cases h
      | true =>
        rw [htruthy, if_pos rfl] at h
        rcases List.mem_cons.mp h with rfl | h
        · exact .round hcondition htruthy
        · obtain ⟨flow, m'', hround, h⟩ := RunM.mem_behind.mp h
          cases flow with
          | normal =>
            cases List.mem_singleton.mp h
            exact .again hcondition htruthy hround
          | _ => cases h
  | ⟨0, .call f vs, m⟩ => cases h
  | ⟨k + 1, .call f vs, m⟩ => exact Value.step_of_mem_parts h
  | ⟨k, .look use, m⟩ => cases h

/-! ## Induction on points -/

/-- The size of the trees that are to be gone through.  A loop is larger than its rounds,
    and these are larger than the condition and the body. -/
noncomputable def Task.weight : Task → Nat
  | .expr e => 2 * sizeOf e
  | .exprs es => 2 * sizeOf es
  | .stmt s => 2 * sizeOf s
  | .stmts ss => 2 * sizeOf ss
  | .rounds condition body _ => 2 * (sizeOf condition + sizeOf body) + 1
  | .call _ _ => 0
  | .look _ => 0

/-- The rounds that may still be made. -/
def Task.left : Task → Nat
  | .rounds _ _ left => left
  | _ => 0

/-- Calls lead to a lower bound, parts to smaller trees, and rounds to fewer of them. -/
noncomputable def Point.rank (p : Point) : Nat ×ₗ Nat ×ₗ Nat :=
  toLex (p.bound, toLex (p.task.weight, p.task.left))

theorem Point.Step.rank_lt (h : p.Step q) : q.rank < p.rank := by
  cases h <;>
    simp [rank, Task.weight, Task.left, Prod.Lex.toLex_lt_toLex] <;> omega

/-- What holds of a point if it holds of its parts holds of every point. -/
theorem Point.induction {P : Point → Prop} (h : ∀ p, (∀ q, p.Step q → P q) → P p) (p : Point) :
    P p :=
  (InvImage.wf rank wellFounded_lt).induction p fun p ih => h p fun q hstep => ih q hstep.rank_lt

end Lox
