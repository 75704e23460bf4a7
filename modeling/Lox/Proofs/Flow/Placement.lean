/-
  Lox.Proofs.Flow.Placement

  Where `break` and `return` stand in an accepted program, and how statements end
  because of it.

    * `parseProgram_breaksInside` — every `break` stands in a loop of its function;
    * `resolveProgram_returnless` — every `return` stands in a function;
    * `Session.Reached.placed` — so no function in the store of a session has a `break`
      outside of a loop;
    * `Stmt.yields` — a statement ends by `break` only where it stands in a loop, and by
      `return` only where it stands in a function;
    * `interpret_eq_forM` — a program runs all its statements.

  The two passes share the work: the parser judges `break`, the resolver `return`.
-/
import Lox.Proofs.Region.Whole
import Lox.Proofs.Scoping.Agreement
import Lox.Proofs.Scoping.Independence

namespace Lox

open RunM

/-! ## Programs -/

/-- In an accepted program every `break` stands in a loop. -/
theorem parseProgram_breaksInside {source : String} {nextId : Nat} {p : List Stmt}
    (h : (parseProgram (tokensOf (scan source)) nextId).result = .ok p) :
    Stmt.ListBreaksInside false p := by
  obtain ⟨read, rest, _, hread, -⟩ := Parser.read_of_scan Parser.reads_program h
  exact hread.breaks

mutual

/-- There is no `return` in a statement, apart from the functions in it. -/
def Stmt.Returnless : Stmt → Prop
  | .block body => Stmt.ListReturnless body
  | .ifElse _ yes none => yes.Returnless
  | .ifElse _ yes (some no) => yes.Returnless ∧ no.Returnless
  | .while _ body => body.Returnless
  | .return _ _ => False
  | .expression _ => True
  | .print _ => True
  | .var _ _ => True
  | .break _ => True
  | .function _ => True
  | .class _ _ _ => True

def Stmt.ListReturnless : List Stmt → Prop
  | [] => True
  | s :: ss => s.Returnless ∧ Stmt.ListReturnless ss

end

/-- Outside of functions a `return` is a fault. -/
theorem Walk.checkReturn_faults {w : Walk} (hbody : w.body = .topLevel) (keyword : Lexeme)
    (hasValue : Bool) : (w.checkReturn keyword hasValue).faults ≠ w.faults := by
  intro h
  have hinitializer : ¬(hasValue = true ∧ w.body = .initializer) := by
    rw [hbody]
    exact fun hboth => nomatch hboth.2
  unfold Walk.checkReturn at h
  rw [if_pos hbody, if_neg hinitializer] at h
  have hsize := congrArg Array.size h
  simp [Walk.report] at hsize

mutual

/-- A statement outside of functions in which a walk finds no fault has no `return`. -/
theorem Stmt.returnless (s : Stmt) {w : Walk} (hbody : w.body = .topLevel)
    (h : (s.resolve w).faults = w.faults) : s.Returnless := by
  match s with
  | .block body =>
    exact Stmt.listReturnless body (w := { w with scopes := .empty :: w.scopes }) hbody h
  | .ifElse condition yes none =>
    obtain ⟨_, hyes⟩ := (Expr.apart condition).faults_eq (Stmt.apart yes) h
    exact Stmt.returnless yes (((Expr.apart condition).body w).trans hbody) hyes
  | .ifElse condition yes (some no) =>
    have hcondition := Expr.apart condition
    have hfirst := hcondition.then_ (Stmt.apart yes)
    obtain ⟨hbefore, hno⟩ := hfirst.faults_eq (Stmt.apart no) h
    obtain ⟨_, hyes⟩ := hcondition.faults_eq (Stmt.apart yes) hbefore
    exact ⟨Stmt.returnless yes ((hcondition.body w).trans hbody) hyes,
      Stmt.returnless no ((hfirst.body w).trans hbody) hno⟩
  | .while condition body =>
    obtain ⟨_, hround⟩ := (Expr.apart condition).faults_eq (Stmt.apart body) h
    exact Stmt.returnless body (((Expr.apart condition).body w).trans hbody) hround
  | .return keyword value =>
    obtain ⟨hchecked, _⟩ :=
      (apart_checkReturn keyword value.isSome).faults_eq (Expr.optionApart value) h
    exact absurd hchecked (Walk.checkReturn_faults hbody keyword value.isSome)
  | .expression _ | .print _ | .var _ _ | .break _ | .function _ | .class _ _ _ => trivial

theorem Stmt.listReturnless (ss : List Stmt) {w : Walk} (hbody : w.body = .topLevel)
    (h : (Stmt.listResolve ss w).faults = w.faults) : Stmt.ListReturnless ss := by
  match ss with
  | [] => trivial
  | s :: ss =>
    obtain ⟨hs, hss⟩ := (Stmt.apart s).faults_eq (Stmt.listApart ss) h
    exact ⟨Stmt.returnless s hbody hs,
      Stmt.listReturnless ss (((Stmt.apart s).body w).trans hbody) hss⟩

end

/-- In a program that is resolved every `return` stands in a function. -/
theorem resolveProgram_returnless {p : List Stmt} {A : Table} (h : resolveProgram p = .ok A) :
    Stmt.ListReturnless p :=
  Stmt.listReturnless p rfl (Resolves.result_eq_ok h).1

/-! ## Parts of a program -/

theorem Stmt.listBreaksInside_append {inLoop : Bool} {p q : List Stmt} :
    Stmt.ListBreaksInside inLoop (p ++ q) ↔
      Stmt.ListBreaksInside inLoop p ∧ Stmt.ListBreaksInside inLoop q := by
  induction p with
  | nil => exact iff_of_eq (true_and _).symm
  | cons s p ih => exact (and_congr_right fun _ => ih).trans and_assoc.symm

theorem Stmt.listReturnless_append {p q : List Stmt} :
    Stmt.ListReturnless (p ++ q) ↔ Stmt.ListReturnless p ∧ Stmt.ListReturnless q := by
  induction p with
  | nil => exact iff_of_eq (true_and _).symm
  | cons s p ih => exact (and_congr_right fun _ => ih).trans and_assoc.symm

/-! ## Functions -/

/-- Functions in which every `break` stands in a loop. -/
def Code.placed : Code := ⟨FunctionDecl.BreaksInside, fun _ => True, True⟩

theorem FunctionDecl.ListBreaksInside.breaksInside {ds : List FunctionDecl}
    (h : FunctionDecl.ListBreaksInside ds) : ∀ d ∈ ds, d.BreaksInside := by
  induction ds with
  | nil => nofun
  | cons d ds ih => exact List.forall_mem_cons.mpr ⟨h.1, ih h.2⟩

theorem FunctionDecl.BreaksInside.body {d : FunctionDecl} (h : d.BreaksInside) :
    Stmt.ListBreaksInside false d.body := by
  cases d
  exact h

mutual

theorem Stmt.BreaksInside.within {s : Stmt} {inLoop : Bool} (h : s.BreaksInside inLoop) :
    s.Within .placed := by
  match s with
  | .block body => exact Stmt.ListBreaksInside.within h
  | .ifElse _ yes none => exact ⟨fun _ _ => trivial, Stmt.BreaksInside.within (s := yes) h⟩
  | .ifElse _ yes (some no) =>
    exact ⟨fun _ _ => trivial, Stmt.BreaksInside.within (s := yes) h.1,
      Stmt.BreaksInside.within (s := no) h.2⟩
  | .while _ body =>
    exact ⟨trivial, fun _ _ => trivial, Stmt.BreaksInside.within (s := body) h⟩
  | .function decl => exact h
  | .class _ _ methods =>
    exact ⟨fun _ _ => trivial, FunctionDecl.ListBreaksInside.breaksInside h⟩
  | .break _ => trivial
  | .expression _ | .print _ | .var _ _ | .return _ _ => exact fun _ _ => trivial

theorem Stmt.ListBreaksInside.within {ss : List Stmt} {inLoop : Bool}
    (h : Stmt.ListBreaksInside inLoop ss) : Stmt.ListWithin .placed ss := by
  match ss with
  | [] => trivial
  | s :: ss =>
    have hrest : Stmt.ListWithin .placed ss := Stmt.ListBreaksInside.within h.2
    exact ⟨Stmt.BreaksInside.within (s := s) h.1, hrest⟩

end

theorem Code.closed_placed : Code.placed.Closed := by
  intro d h
  exact (FunctionDecl.BreaksInside.body h).within

/-- In every function that a session made, every `break` stands in a loop. -/
theorem Session.Reached.placed {s : Session} (h : s.Reached) : s.machine.store.Of .placed := by
  induction h with
  | start out clock => exact Store.of_start _ out clock
  | step fuel input _ ih =>
    refine Session.of_step Code.closed_placed ih fuel ⟨fun program hparsed _ => ?_, ?_⟩
    · exact (parseProgram_breaksInside hparsed).within
    · exact fun _ _ _ _ _ => trivial

/-! ## Ends of statements -/

/-- Every result of an action is so. -/
def RunM.Yields {α : Type} (Q : α → Prop) (p : RunM α) : Prop :=
  ∀ m a n, p m = .ok a n → Q a

namespace RunM.Yields

variable {α β : Type} {P : α → Prop} {Q : β → Prop} {p : RunM α}

theorem pure {b : β} (h : Q b) : Yields Q (pure b : RunM β) := by
  rintro m a n ⟨⟩
  exact h

theorem bind {f : α → RunM β} (hp : Yields P p) (hf : ∀ a, P a → Yields Q (f a)) :
    Yields Q (p >>= f) := by
  intro m b n h
  obtain ⟨a, m₁, ha, hb⟩ := bind_ok h
  exact hf a (hp m a m₁ ha) m₁ b n hb

/-- Whatever the first action yields, the second one yields what it should. -/
theorem behind {f : α → RunM β} (hf : ∀ a, Yields Q (f a)) : Yields Q (p >>= f) :=
  bind (fun _ _ _ _ => trivial) fun a (_ : True) => hf a

theorem withFrame (hp : Yields P p) (f : FrameId) : Yields P (withFrame f p) := by
  intro m a n h
  unfold RunM.withFrame at h
  cases hrun : p { m with env := f } with
  | ok b m₁ =>
    rw [hrun] at h
    cases h
    exact hp _ _ _ hrun
  | error halt m₁ =>
    rw [hrun] at h
    cases h

end RunM.Yields

/-- The ways in which a statement may end: by `break` in a loop, and by `return` in a
    function. -/
def Flow.Allowed (inLoop : Bool) (inFunction : Prop) : Flow → Prop
  | .normal => True
  | .broken => inLoop = true
  | .returned _ => inFunction

variable {inLoop : Bool} {inFunction : Prop}

/-- A loop takes every `break` of its body and passes every `return` on. -/
theorem whileLoop_yields (condition : RunM Bool) {body : RunM Flow}
    (hbody : RunM.Yields (Flow.Allowed true inFunction) body) (left : Nat) :
    RunM.Yields (Flow.Allowed false inFunction) (whileLoop condition body left) := by
  induction left with
  | zero => exact nofun
  | succ left ih =>
    refine .behind fun holds => ?_
    split
    · refine hbody.bind fun flow hflow => ?_
      cases flow with
      | normal => exact ih
      | broken => exact .pure trivial
      | returned v => exact .pure hflow
    · exact .pure trivial

mutual

/-- A statement ends as its place allows it, whatever the calls in it do. -/
theorem Stmt.yields (call : Invoke) (bound : Nat) (s : Stmt) {inLoop : Bool}
    (hbreaks : s.BreaksInside inLoop) (hreturns : ¬inFunction → s.Returnless) :
    RunM.Yields (Flow.Allowed inLoop inFunction) (s.exec call bound) := by
  match s with
  | .expression value => exact .behind fun _ => .pure trivial
  | .print value => exact .behind fun _ => .behind fun _ => .pure trivial
  | .var name initializer => exact .behind fun _ => .behind fun _ => .pure trivial
  | .block body =>
    refine .behind fun _ => .behind fun frame => ?_
    exact (Stmt.listYields call bound body hbreaks hreturns).withFrame frame
  | .ifElse condition yes none =>
    refine .behind fun v => ?_
    split
    · exact Stmt.yields call bound yes hbreaks hreturns
    · exact .pure trivial
  | .ifElse condition yes (some no) =>
    refine .behind fun v => ?_
    split
    · exact Stmt.yields call bound yes hbreaks.1 fun h => (hreturns h).1
    · exact Stmt.yields call bound no hbreaks.2 fun h => (hreturns h).2
  | .while condition body =>
    have hloop := whileLoop_yields (do return (← condition.eval call).isTruthy)
      (Stmt.yields call bound body hbreaks hreturns) bound
    intro m flow n h
    cases flow with
    | normal => trivial
    | broken => exact absurd (hloop m _ n h) Bool.false_ne_true
    | returned v => exact hloop m _ n h
  | .break keyword => exact .pure hbreaks
  | .function decl => exact .behind fun _ => .pure trivial
  | .return keyword value =>
    have hinside : inFunction := by
      by_contra houtside
      exact hreturns houtside
    exact .behind fun v => .pure hinside
  | .class name superclass methods => exact .behind fun _ => .pure trivial

theorem Stmt.listYields (call : Invoke) (bound : Nat) (ss : List Stmt) {inLoop : Bool}
    (hbreaks : Stmt.ListBreaksInside inLoop ss) (hreturns : ¬inFunction → Stmt.ListReturnless ss) :
    RunM.Yields (Flow.Allowed inLoop inFunction) (Stmt.listExec call bound ss) := by
  match ss with
  | [] => exact .pure trivial
  | s :: ss =>
    refine (Stmt.yields call bound s hbreaks.1 fun h => (hreturns h).1).bind fun flow hflow => ?_
    cases flow with
    | normal => exact Stmt.listYields call bound ss hbreaks.2 fun h => (hreturns h).2
    | broken => exact .pure hflow
    | returned v => exact .pure hflow

end

/-- A loop never ends by `break`, whatever its body does. -/
theorem whileLoop_not_broken {condition : RunM Bool} {body : RunM Flow} {left : Nat}
    {m n : Machine} : whileLoop condition body left m ≠ .ok .broken n := by
  intro h
  have hany : RunM.Yields (Flow.Allowed true True) body := by
    intro m flow n _
    cases flow <;> trivial
  exact Bool.false_ne_true (whileLoop_yields condition hany left m _ n h)

/-- Outside of loops and functions a statement only ends at its end. -/
theorem Flow.Allowed.normal {flow : Flow} (h : flow.Allowed false False) : flow = .normal := by
  cases flow with
  | normal => rfl
  | broken => exact absurd h Bool.false_ne_true
  | returned v => exact h.elim

/-! ## Whole programs -/

theorem RunM.discard_eq {α : Type} (p : RunM α) (m : Machine) :
    discard p m = match p m with
      | .ok _ n => .ok ⟨⟩ n
      | .error halt n => .error halt n := by
  show EStateM.map _ p m = _
  unfold EStateM.map
  cases p m <;> rfl

/-- Behind a statement that ends at its end the others are run. -/
theorem interpret_cons (fuel : Nat) (s : Stmt) (ss : List Stmt) (m : Machine) :
    interpret fuel (s :: ss) m = match execute fuel s m with
      | .ok .normal n => interpret fuel ss n
      | .ok _ n => .ok () n
      | .error halt n => .error halt n := by
  show ((execute fuel s >>= _) >>= _) m = _
  rw [bind_assoc, bind_eq]
  cases execute fuel s m with
  | ok flow n => cases flow <;> rfl
  | error halt n => rfl

/-- A program runs its statements one after another up to the last one. -/
theorem interpret_eq_forM {program : List Stmt} (hbreaks : Stmt.ListBreaksInside false program)
    (hreturns : Stmt.ListReturnless program) (fuel : Nat) :
    interpret fuel program = forM program fun s => discard (execute fuel s) := by
  induction program with
  | nil => rfl
  | cons s ss ih =>
    have hnormal : RunM.Yields (Flow.Allowed false False) (execute fuel s) :=
      Stmt.yields (invoke fuel) fuel s hbreaks.1 fun _ => hreturns.1
    rw [List.forM_cons, ← ih hbreaks.2 hreturns.2]
    funext m
    rw [interpret_cons, bind_eq, discard_eq]
    cases hrun : execute fuel s m with
    | ok flow n =>
      cases (hnormal m flow n hrun).normal
      rfl
    | error halt n => rfl

end Lox
