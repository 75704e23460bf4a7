/-
  Lox.Proofs.Flow.Containment

  Control flow stays inside its bounds: a `break` ends the innermost loop around it, a
  `return` the innermost call, and nothing else.

    * `Point.Ends` — what is executed at a point ends in a certain way;
    * `Point.Encloses`, `Point.Calls` — the innermost loop, and the innermost call,
      around a point;
    * `Point.Stands` — a statement that comes up has around it what a `break` or a
      `return` in it needs; steps keep it;
    * `control_flow_contained` — the main statement.
-/
import Lox.Proofs.Flow.Placement
import Lox.Proofs.Region.Points
import Mathlib

namespace Lox

open RunM

/-! ## Ends -/

/-- What is executed at the point ends, in a certain way and on a certain machine. -/
def Point.Ends (p : Point) (flow : Flow) (n : Machine) : Prop :=
  match p.task with
  | .stmt s => s.exec (invoke p.bound) p.bound p.machine = .ok flow n
  | .stmts ss => Stmt.listExec (invoke p.bound) p.bound ss p.machine = .ok flow n
  | .rounds condition body left =>
    whileLoop (do return (← condition.eval (invoke p.bound)).isTruthy)
      (body.exec (invoke p.bound) p.bound) left p.machine = .ok flow n
  | _ => False

/-- The rounds of a loop. -/
def Task.Rounds : Task → Prop
  | .rounds _ _ _ => True
  | _ => False

/-- The execution of statements, apart from the rounds of loops. -/
def Task.Straight : Task → Prop
  | .stmt _ => True
  | .stmts _ => True
  | _ => False

/-- The execution of statements. -/
def Task.Running : Task → Prop
  | .stmt _ => True
  | .stmts _ => True
  | .rounds _ _ _ => True
  | _ => False

theorem Task.Straight.running {task : Task} (h : task.Straight) : task.Running := by
  cases task <;> trivial

/-- From one point another one comes up by way of tasks of one kind only. -/
abbrev Point.Stays (K : Task → Prop) : Point → Point → Prop :=
  Relation.ReflTransGen fun p q => K p.task ∧ K q.task ∧ p.Step q

/-- The point is a loop, and the other one is where its rounds have come to. -/
def Point.Loops (loop q : Point) : Prop :=
  (∃ condition body, loop.task = .stmt (.while condition body)) ∧
    ∃ first, loop.Step first ∧ first.Stays Task.Rounds q

/-- The point is a loop, and the other one comes up in one of its rounds, in no loop or
    call further inside. -/
def Point.Encloses (loop q : Point) : Prop :=
  ∃ round r, loop.Loops round ∧ round.task.Rounds ∧ round.Step r ∧ r.Stays Task.Straight q

/-- The point is a call, and the other one comes up in the body that it runs, in no call
    further inside. -/
def Point.Calls (call q : Point) : Prop :=
  (∃ f vs, call.task = .call f vs) ∧ ∃ r, call.Step r ∧ r.Stays Task.Running q

variable {p q r : Point} {flow : Flow} {n : Machine}

theorem Point.Encloses.step (h : p.Encloses q) (hq : q.task.Straight) (hr : r.task.Straight)
    (hstep : q.Step r) : p.Encloses r := by
  obtain ⟨round, first, hloops, hround, hfirst, hstays⟩ := h
  exact ⟨round, first, hloops, hround, hfirst, hstays.tail ⟨hq, hr, hstep⟩⟩

theorem Point.Loops.step (h : p.Loops q) (hq : q.task.Rounds) (hr : r.task.Rounds)
    (hstep : q.Step r) : p.Loops r := by
  obtain ⟨hloop, first, hfirst, hstays⟩ := h
  exact ⟨hloop, first, hfirst, hstays.tail ⟨hq, hr, hstep⟩⟩

theorem Point.Calls.step (h : p.Calls q) (hq : q.task.Running) (hr : r.task.Running)
    (hstep : q.Step r) : p.Calls r := by
  obtain ⟨hcall, first, hfirst, hstays⟩ := h
  exact ⟨hcall, first, hfirst, hstays.tail ⟨hq, hr, hstep⟩⟩

/-- Execution puts back the current frame and the depth of calls. -/
theorem Point.Ends.restored (h : p.Ends flow n) : p.machine.Restored n := by
  obtain ⟨k, task, m⟩ := p
  have ev := evolution_restored
  cases task with
  | stmt s => exact (ev.exec (ev.invoke k) k s).ok h
  | stmts ss => exact (ev.listExec (ev.invoke k) k ss).ok h
  | rounds condition body left =>
    refine Respects.ok (ev.whileLoop ?_ (ev.exec (ev.invoke k) k body) left) h
    exact ev.bind (ev.eval (ev.invoke k) condition) fun _ => ev.pure _
  | _ => exact h.elim

/-- Execution ends in the frame where it began. -/
theorem Point.Ends.env (h : p.Ends flow n) : n.env = p.machine.env := h.restored.env

/-- An expression leaves the current frame. -/
theorem env_of_eval {k : Nat} {e : Expr} {m : Machine} {v : Value}
    (h : e.eval (invoke k) m = .ok v n) : n.env = m.env := by
  have ev := evolution_restored
  exact ((ev.eval (ev.invoke k) e).ok h).env

/-! ## Leaving statements -/

/-- A round of a loop: what its body does decides. -/
theorem whileLoop_round {call : Invoke} {condition : Expr} {body : RunM Flow} {left : Nat}
    {m m' : Machine} {v : Value} (hcondition : condition.eval call m = .ok v m')
    (htruthy : v.isTruthy = true) :
    whileLoop (do return (← condition.eval call).isTruthy) body (left + 1) m =
      match body m' with
      | .ok .normal n => whileLoop (do return (← condition.eval call).isTruthy) body left n
      | .ok .broken n => .ok .normal n
      | .ok (.returned w) n => .ok (.returned w) n
      | .error halt n => .error halt n := by
  rw [whileLoop, bind_eq, holds_of_ok hcondition htruthy]
  dsimp only
  rw [if_pos rfl, bind_eq]
  cases body m' with
  | ok flow n => cases flow <;> rfl
  | error halt n => rfl

/-- Behind a round that ends at its end a loop goes on. -/
theorem Point.Ends.again {k : Nat} {condition : Expr} {body : Stmt} {left : Nat}
    {m m' m'' : Machine} {v : Value} (hrun : condition.eval (invoke k) m = .ok v m')
    (htruthy : v.isTruthy = true) (hround : body.exec (invoke k) k m' = .ok .normal m'')
    (h : Point.Ends ⟨k, .rounds condition body left, m''⟩ flow n) :
    Point.Ends ⟨k, .rounds condition body (left + 1), m⟩ flow { n with env := m.env } := by
  have hbody : Point.Ends ⟨k, .stmt body, m'⟩ .normal m'' := hround
  rw [← env_of_eval hrun, ← hbody.env, ← h.env]
  show whileLoop _ _ (left + 1) m = _
  rw [whileLoop_round hrun htruthy, hround]
  exact h

/-- A `break` ends the statements around it as far as the next loop, and a `return` all
    that are around it. -/
theorem Point.Ends.step (h : q.Ends flow n) (hp : p.task.Running) (hq : q.task.Running)
    (hstep : p.Step q) (habrupt : flow ≠ .normal)
    (hloop : flow = .broken → p.task.Straight ∧ q.task.Straight) :
    p.Ends flow { n with env := p.machine.env } := by
  -- Only a block has a frame of its own; the others go on in the frame they are in.
  have stay {m : Machine} (henv : q.machine.env = m.env) : { n with env := m.env } = n := by
    rw [← henv, ← h.env]
  cases hstep with
  | block => exact withFrame_of_ok h
  | @yes k m condition yes no v m' hrun htruthy =>
    rw [stay (env_of_eval hrun)]
    cases no with
    | none =>
      refine (bind_of_ok hrun _).trans ?_
      rw [if_pos htruthy]
      exact h
    | some no =>
      refine (bind_of_ok hrun _).trans ?_
      rw [if_pos htruthy]
      exact h
  | @no k m condition yes no v m' hrun hfalsy =>
    rw [stay (env_of_eval hrun)]
    refine (bind_of_ok hrun _).trans ?_
    rw [hfalsy, if_neg Bool.false_ne_true]
    exact h
  | loop =>
    rw [stay rfl]
    exact h
  | @statement k m s ss =>
    rw [stay rfl]
    refine (bind_of_ok h _).trans ?_
    cases flow with
    | normal => exact absurd rfl habrupt
    | _ => rfl
  | @statements k m s ss m' hrun =>
    have hfirst : Point.Ends ⟨k, .stmt s, m⟩ .normal m' := hrun
    rw [stay hfirst.env]
    exact (bind_of_ok hrun _).trans h
  | @round k m condition body left v m' hrun htruthy =>
    rw [stay (env_of_eval hrun)]
    show whileLoop _ _ (left + 1) m = _
    rw [whileLoop_round hrun htruthy, show body.exec (invoke k) k m' = .ok flow n from h]
    cases flow with
    | normal => exact absurd rfl habrupt
    | broken => exact (hloop rfl).1.elim
    | returned v => rfl
  | again hrun htruthy hround => exact Point.Ends.again hrun htruthy hround h
  | expression | print | var | condition | «return» | superclass | asked => exact hq.elim
  | _ => exact hp.elim

/-- A `return` ends whatever runs in the body that it stands in. -/
theorem Point.Stays.returned (h : p.Stays Task.Running q) {v : Value} {n : Machine}
    (hends : q.Ends (.returned v) n) : p.Ends (.returned v) { n with env := p.machine.env } := by
  induction h using Relation.ReflTransGen.head_induction_on with
  | refl =>
    rw [← hends.env]
    exact hends
  | head hstep _ ih =>
    obtain ⟨hp, hq, hstep⟩ := hstep
    exact ih.step hp hq hstep (by simp) (by simp)

/-- A `break` ends the statements of the round that it stands in. -/
theorem Point.Stays.broken (h : p.Stays Task.Straight q) {n : Machine}
    (hends : q.Ends .broken n) : p.Ends .broken { n with env := p.machine.env } := by
  induction h using Relation.ReflTransGen.head_induction_on with
  | refl =>
    rw [← hends.env]
    exact hends
  | head hstep _ ih =>
    obtain ⟨hp, hq, hstep⟩ := hstep
    exact ih.step hp.running hq.running hstep (by simp) fun _ => ⟨hp, hq⟩

/-- The end of a round by `break` is the end of the rounds. -/
theorem Point.Ends.lastRound (h : q.Ends .broken n) (hp : p.task.Rounds) (hstep : p.Step q) :
    p.Ends .normal { n with env := p.machine.env } := by
  cases hstep with
  | asked => exact h.elim
  | @round k m condition body left v m' hrun htruthy =>
    rw [← env_of_eval hrun, ← h.env]
    show whileLoop _ _ (left + 1) m = _
    rw [whileLoop_round hrun htruthy, show body.exec (invoke k) k m' = .ok .broken n from h]
  | again _ _ _ => exact absurd h whileLoop_not_broken
  | _ => exact hp.elim

theorem Point.Stays.normal (h : p.Stays Task.Rounds q) {n : Machine} (hends : q.Ends .normal n) :
    p.Ends .normal { n with env := p.machine.env } := by
  induction h using Relation.ReflTransGen.head_induction_on with
  | refl =>
    rw [← hends.env]
    exact hends
  | head hstep _ ih =>
    obtain ⟨hp, hq, hstep⟩ := hstep
    cases hstep with
    | again hrun htruthy hround =>
      have hagain := Point.Ends.again hrun htruthy hround ih
      exact hagain
    | asked | round => exact hq.elim
    | _ => exact hp.elim

/-- The loop around a `break` ends at its end. -/
theorem Point.Encloses.broken (h : p.Encloses q) {n : Machine} (hends : q.Ends .broken n) :
    p.Ends .normal { n with env := p.machine.env } := by
  obtain ⟨round, r, ⟨⟨condition, body, htask⟩, first, hfirst, hrounds⟩, hround, hstep, hstays⟩ := h
  -- The `break` ends its round, that the rounds, and these the loop.
  have hlast := hrounds.normal ((hstays.broken hends).lastRound hround hstep)
  obtain ⟨k, task, m⟩ := p
  cases htask
  cases hfirst
  exact hlast

/-! ## Leaving calls -/

/-- What a call yields that began on one machine and whose body ended on another one. -/
def Value.answer (m n : Machine) (flow : Flow) : Value → Value
  | .function closure _ =>
    if closure.isInitializer then (n.store.own? closure.frame "this").getD .nil else flow.result
  | .class _ => .instance m.store.instances.size
  | _ => .nil

/-- Behind a body that was called the depth is one more than before the call, so lowering it
    by one leads back. -/
theorem Point.Ends.called {k : Nat} {closure : Closure} {vs : List Value} {m : Machine}
    (hends : Point.Ends ⟨k, .stmts closure.decl.body, m.enter closure vs⟩ flow n)
    (hdepth : m.depth < maxDepth) (paren : Lexeme) :
    callClosure (Stmt.listExec (invoke k) k) closure paren vs m =
      .ok (if closure.isInitializer then (n.store.own? closure.frame "this").getD .nil
          else flow.result)
        { n with env := m.env, depth := m.depth } := by
  have hback : n.depth - 1 = m.depth := Nat.sub_eq_of_eq_add hends.restored.depth
  rw [callClosure_of_ok paren hdepth hends, hback]

/-- However a body ends, its call ends with a value, where it began. -/
theorem Point.Step.call {f : Value} {vs : List Value} (hstep : p.Step q)
    (htask : p.task = .call f vs) (hends : q.Ends flow n) (paren : Lexeme) :
    invoke p.bound f paren vs p.machine =
      .ok (f.answer p.machine n flow)
        { n with env := p.machine.env, depth := p.machine.depth } := by
  cases hstep with
  | @function k m closure stamp _ harity hdepth =>
    cases htask
    exact (bind_of_ok (checkArity_of_eq paren harity m) _).trans (hends.called hdepth paren)
  | @initializer k m cls init closure m' _ hinit hreceive harity hdepth =>
    cases htask
    have harity' : cls.arity = vs.length := by
      rw [← harity, Class.arity, hinit]
      cases hreceive
      rfl
    have hcalled (hdepth : m'.depth < maxDepth) :
        callClosure (Stmt.listExec (invoke k) k) closure paren vs m' = .ok _ _ :=
      hends.called hdepth paren
    cases hreceive
    refine (bind_of_ok (checkArity_of_eq paren harity' m) _).trans ?_
    refine (bind_of_ok (p := make _) rfl _).trans ?_
    rw [hinit]
    refine (bind_of_ok (p := make _) rfl _).trans ?_
    exact bind_of_ok (hcalled hdepth) _
  | _ => cases htask

/-- The call around a `return` ends with its value. -/
theorem Point.Calls.returned (h : p.Calls q) {v : Value} {n : Machine}
    (hends : q.Ends (.returned v) n) :
    ∃ f vs, p.task = .call f vs ∧ ∀ paren, invoke p.bound f paren vs p.machine =
      .ok (f.answer p.machine n (.returned v))
        { n with env := p.machine.env, depth := p.machine.depth } := by
  obtain ⟨⟨f, vs, htask⟩, r, hstep, hstays⟩ := h
  refine ⟨f, vs, htask, fun paren => (hstep.call htask (hstays.returned hends) paren).trans ?_⟩
  cases f <;> rfl

/-! ## What stands around a point -/

/-- What a statement needs around it: a loop if it may end by `break`, and a call if it
    may end by `return`. -/
def Task.Stands (looping looped called : Prop) : Task → Prop
  | .stmt s =>
    (∃ inLoop, s.BreaksInside inLoop ∧ (inLoop = true → looped)) ∧ (s.Returnless ∨ called)
  | .stmts ss =>
    (∃ inLoop, Stmt.ListBreaksInside inLoop ss ∧ (inLoop = true → looped)) ∧
      (Stmt.ListReturnless ss ∨ called)
  | .rounds _ body _ => looping ∧ body.BreaksInside true ∧ (body.Returnless ∨ called)
  | _ => True

/-- The second point has around it what its task needs, as it comes up from the first. -/
def Point.Stands (p q : Point) : Prop :=
  q.task.Stands (∃ loop, p.Reaches loop ∧ loop.Loops q) (∃ loop, p.Reaches loop ∧ loop.Encloses q)
    (∃ call, p.Reaches call ∧ call.Calls q)

/-- What comes up in a task that stands rightly stands rightly. -/
theorem Point.Stands.step (h : p.Stands q) (hreaches : p.Reaches q) (hof : q.Of .placed)
    (hstep : q.Step r) : p.Stands r := by
  have looped (hq : q.task.Straight) (hr : r.task.Straight) :
      (∃ loop, p.Reaches loop ∧ loop.Encloses q) → ∃ loop, p.Reaches loop ∧ loop.Encloses r :=
    fun ⟨loop, hloop, hencloses⟩ => ⟨loop, hloop, hencloses.step hq hr hstep⟩
  have called (hq : q.task.Running) (hr : r.task.Running) :
      (∃ call, p.Reaches call ∧ call.Calls q) → ∃ call, p.Reaches call ∧ call.Calls r :=
    fun ⟨call, hcall, hcalls⟩ => ⟨call, hcall, hcalls.step hq hr hstep⟩
  -- A body that is called has its loops inside, and the call around it.
  have entered {f : Value} {vs : List Value} (hq : q.task = .call f vs) : p.Stands r := by
    obtain ⟨closure, hr, hdecl⟩ := hof.body Code.closed_placed hq hstep
    unfold Point.Stands
    rw [hr]
    exact ⟨⟨false, FunctionDecl.BreaksInside.body hdecl, nofun⟩,
      .inr ⟨q, hreaches, ⟨f, vs, hq⟩, r, hstep, .refl⟩⟩
  cases hstep with
  | block =>
    obtain ⟨⟨inLoop, hbreaks, hloop⟩, hreturns⟩ := h
    exact ⟨⟨inLoop, hbreaks, looped trivial trivial ∘ hloop⟩,
      hreturns.imp_right (called trivial trivial)⟩
  | @yes _ _ _ _ no =>
    obtain ⟨⟨inLoop, hbreaks, hloop⟩, hreturns⟩ := h
    cases no with
    | none =>
      exact ⟨⟨inLoop, hbreaks, looped trivial trivial ∘ hloop⟩,
        hreturns.imp_right (called trivial trivial)⟩
    | some no =>
      exact ⟨⟨inLoop, hbreaks.1, looped trivial trivial ∘ hloop⟩,
        hreturns.imp And.left (called trivial trivial)⟩
  | no =>
    obtain ⟨⟨inLoop, hbreaks, hloop⟩, hreturns⟩ := h
    exact ⟨⟨inLoop, hbreaks.2, looped trivial trivial ∘ hloop⟩,
      hreturns.imp And.right (called trivial trivial)⟩
  | loop =>
    -- The loop itself is what its rounds stand in.
    obtain ⟨⟨_, hbreaks, _⟩, hreturns⟩ := h
    exact ⟨⟨_, hreaches, ⟨_, _, rfl⟩, _, .loop, .refl⟩, hbreaks,
      hreturns.imp_right (called trivial trivial)⟩
  | statement =>
    obtain ⟨⟨inLoop, hbreaks, hloop⟩, hreturns⟩ := h
    exact ⟨⟨inLoop, hbreaks.1, looped trivial trivial ∘ hloop⟩,
      hreturns.imp And.left (called trivial trivial)⟩
  | statements _ =>
    obtain ⟨⟨inLoop, hbreaks, hloop⟩, hreturns⟩ := h
    exact ⟨⟨inLoop, hbreaks.2, looped trivial trivial ∘ hloop⟩,
      hreturns.imp And.right (called trivial trivial)⟩
  | round hrun htruthy =>
    -- Inside a round a `break` has the loop around it, whatever is around the loop.
    obtain ⟨⟨loop, hloop, hloops⟩, hbreaks, hreturns⟩ := h
    exact ⟨⟨true, hbreaks, fun _ =>
      ⟨loop, hloop, _, _, hloops, trivial, .round hrun htruthy, .refl⟩⟩,
      hreturns.imp_right (called trivial trivial)⟩
  | again hrun htruthy hround =>
    obtain ⟨⟨loop, hloop, hloops⟩, hbreaks, hreturns⟩ := h
    exact ⟨⟨loop, hloop, hloops.step trivial trivial (.again hrun htruthy hround)⟩, hbreaks,
      hreturns.imp_right (called trivial trivial)⟩
  | function _ _ => exact entered rfl
  | initializer _ _ _ _ => exact entered rfl
  | _ => trivial

/-- Whatever a point that belongs to the code reaches stands rightly. -/
theorem Point.Stands.reaches (h : p.Stands p) (hof : p.Of .placed) (hreaches : p.Reaches q) :
    p.Stands q := by
  induction hreaches with
  | refl => exact h
  | tail hreaches hstep ih =>
    exact ih.step hreaches (hof.reaches Code.closed_placed hreaches) hstep

/-- The work on a text begins at points that stand rightly, with nothing around them. -/
theorem Session.Begins.stands {s : Session} (hs : s.Reached) {fuel : Nat} {source : String}
    {mode : SessionMode} (hp : s.Begins fuel source mode p) :
    p.Of .placed ∧ p.task.Stands False False False := by
  have hstore := hs.placed
  cases hp with
  | interpret haccepts =>
    have hbreaks := parseProgram_breaksInside haccepts.parsed
    exact ⟨⟨hstore, hbreaks.within⟩, ⟨false, hbreaks, nofun⟩,
      .inl (resolveProgram_returnless haccepts.resolved)⟩
  | @execute done rest statement A ends m haccepts hdone =>
    obtain ⟨hbreaks, hstatement⟩ :=
      Stmt.listBreaksInside_append.mp (parseProgram_breaksInside haccepts.parsed)
    obtain ⟨-, hreturns⟩ :=
      Stmt.listReturnless_append.mp (resolveProgram_returnless haccepts.resolved)
    have hm : ((Session.executeEach fuel done).after (s.withTable A)).store.Of .placed :=
      of_executeEach (m := s.withTable A) Code.closed_placed hstore fuel hbreaks.within
    rw [after_of_ok hdone] at hm
    exact ⟨⟨hm, hstatement.1.within⟩, ⟨false, hstatement.1, nofun⟩, .inl hreturns.1⟩
  | evaluate haccepts => exact ⟨⟨hstore, fun _ _ => trivial⟩, trivial⟩

theorem Task.Stands.mono {looping looped called looping' looped' called' : Prop}
    (hlooping : looping → looping') (hlooped : looped → looped') (hcalled : called → called')
    {task : Task} (h : task.Stands looping looped called) :
    task.Stands looping' looped' called' := by
  cases task with
  | stmt s | stmts ss =>
    obtain ⟨⟨inLoop, hbreaks, hloop⟩, hreturns⟩ := h
    exact ⟨⟨inLoop, hbreaks, hlooped ∘ hloop⟩, hreturns.imp_right hcalled⟩
  | rounds condition body left => exact ⟨hlooping h.1, h.2.1, h.2.2.imp_right hcalled⟩
  | _ => trivial

/-- Statements end in no way for which the surroundings are missing. -/
theorem Point.Ends.allowed {looping looped called : Prop} (h : p.Ends flow n)
    (hp : p.task.Stands looping looped called) :
    (flow = .broken → looped) ∧ ∀ v, flow = .returned v → called := by
  obtain ⟨k, task, m⟩ := p
  have judged {inLoop : Bool} {action : RunM Flow} (hloop : inLoop = true → looped)
      (hyields : RunM.Yields (Flow.Allowed inLoop called) action) (hrun : action m = .ok flow n) :
      (flow = .broken → looped) ∧ ∀ v, flow = .returned v → called := by
    have hallowed := hyields m flow n hrun
    refine ⟨fun hbroken => ?_, fun v hreturned => ?_⟩
    · subst hbroken
      exact hloop hallowed
    · subst hreturned
      exact hallowed
  cases task with
  | stmt s =>
    obtain ⟨⟨inLoop, hbreaks, hloop⟩, hreturns⟩ := hp
    exact judged hloop (Stmt.yields (invoke k) k s hbreaks hreturns.resolve_right) h
  | stmts ss =>
    obtain ⟨⟨inLoop, hbreaks, hloop⟩, hreturns⟩ := hp
    exact judged hloop (Stmt.listYields (invoke k) k ss hbreaks hreturns.resolve_right) h
  | rounds condition body left =>
    have hround := Stmt.yields (invoke k) k body hp.2.1 hp.2.2.resolve_right
    have hloop : false = true → looped := nofun
    exact judged hloop (whileLoop_yields _ hround left) h
  | _ => exact h.elim

/-! ## Main statement -/

/-- Control flow stays inside its bounds.  In every session, and at every point that the
    work on an accepted text comes to:
    a loop does not end by `break`, nor does a body that is called; the text itself ends
    only at its end, so that a program runs all its statements; a `break` ends the
    innermost loop around it in the body that it stands in; and a `return` ends the
    innermost call, which yields its value. -/
theorem control_flow_contained {s : Session} (hs : s.Reached) (fuel : Nat) (source : String)
    (mode : SessionMode) {p : Point} (hp : s.Begins fuel source mode p) :
    (∀ k condition body m n, p.Reaches ⟨k, .stmt (.while condition body), m⟩ →
      ¬Point.Ends ⟨k, .stmt (.while condition body), m⟩ .broken n) ∧
    (∀ call f vs q n, p.Reaches call → call.task = .call f vs → call.Step q →
      ¬q.Ends .broken n) ∧
    (∀ flow n, p.Ends flow n → flow = .normal) ∧
    (∀ program, p.task = .stmts program →
      (∀ s ∈ program, ∀ m flow n, execute fuel s m = .ok flow n → flow = .normal) ∧
      interpret fuel program = forM program fun s => discard (execute fuel s)) ∧
    (∀ k keyword m, p.Reaches ⟨k, .stmt (.break keyword), m⟩ →
      ∃ loop, p.Reaches loop ∧ loop.Encloses ⟨k, .stmt (.break keyword), m⟩ ∧
        loop.Ends .normal { m with env := loop.machine.env }) ∧
    ∀ k keyword value m v n, p.Reaches ⟨k, .stmt (.return keyword value), m⟩ →
      Expr.optionEval (invoke k) value m = .ok v n →
      ∃ call f vs, p.Reaches call ∧ call.task = .call f vs ∧
        call.Calls ⟨k, .stmt (.return keyword value), m⟩ ∧
        ∀ paren, invoke call.bound f paren vs call.machine =
          .ok (f.answer call.machine n (.returned v))
            { n with env := call.machine.env, depth := call.machine.depth } := by
  obtain ⟨hof, htop⟩ := hp.stands hs
  have hstands (q : Point) (hreaches : p.Reaches q) : p.Stands q := by
    have hbegin : p.Stands p := htop.mono False.elim False.elim False.elim
    exact hbegin.reaches hof hreaches
  refine ⟨fun k condition body m n _ => whileLoop_not_broken,
    fun call f vs q n hreaches htask hstep hends => ?_, fun flow n hends => ?_,
    fun program htask => ?_, fun k keyword m hreaches => ?_,
    fun k keyword value m v n hreaches hrun => ?_⟩
  · -- A body that is called has a call around it, but no loop.
    obtain ⟨closure, hq, hdecl⟩ :=
      (hof.reaches Code.closed_placed hreaches).body Code.closed_placed htask hstep
    have hbody : q.task.Stands False False True := by
      rw [hq]
      exact ⟨⟨false, FunctionDecl.BreaksInside.body hdecl, nofun⟩, .inr trivial⟩
    exact (hends.allowed hbody).1 rfl
  · have hallowed := hends.allowed htop
    cases flow with
    | normal => rfl
    | broken => exact (hallowed.1 rfl).elim
    | returned v => exact (hallowed.2 v rfl).elim
  · rw [htask] at htop
    obtain ⟨⟨inLoop, hbreaks, hloop⟩, hreturns⟩ := htop
    obtain rfl : inLoop = false := Bool.eq_false_iff.mpr hloop
    have hreturns' := hreturns.resolve_right id
    refine ⟨fun s hmem m flow n hrun => ?_, interpret_eq_forM hbreaks hreturns' fuel⟩
    obtain ⟨before, after, rfl⟩ := List.append_of_mem hmem
    exact (Stmt.yields (invoke fuel) fuel s (Stmt.listBreaksInside_append.mp hbreaks).2.1
      (fun _ => (Stmt.listReturnless_append.mp hreturns').2.1) m flow n hrun).normal
  · obtain ⟨⟨inLoop, hbreaks, hloop⟩, -⟩ := hstands _ hreaches
    obtain ⟨loop, hloopReached, hencloses⟩ := hloop hbreaks
    exact ⟨loop, hloopReached, hencloses, hencloses.broken rfl⟩
  · obtain ⟨-, hreturns⟩ := hstands _ hreaches
    obtain ⟨call, hcallReached, hcalls⟩ := hreturns.resolve_left id
    have hends : Point.Ends ⟨k, .stmt (.return keyword value), m⟩ (.returned v) n :=
      bind_of_ok hrun _
    obtain ⟨f, vs, htask, hcalled⟩ := hcalls.returned hends
    exact ⟨call, f, vs, hcallReached, htask, hcalls, hcalled⟩

/-- The `break` in the round of a loop is reached, and ends the loop. -/
theorem control_flow_contained_break : ∃ (p loop : Point) (keyword : Lexeme) (m : Machine),
    Session.Begins 1 "while(true)break;" ⟨.start .unlimited fun _ => none, 0⟩ .interpret p ∧
      p.Reaches ⟨1, .stmt (.break keyword), m⟩ ∧
      loop.Encloses ⟨1, .stmt (.break keyword), m⟩ ∧
      loop.Ends .normal { m with env := loop.machine.env } := by
  have haccepts : Session.Accepts ⟨.start .unlimited fun _ => none, 0⟩ "while(true)break;"
      parseProgram resolveProgram [.while (.literal (.bool true)) (.break ⟨"break", 1⟩)] ∅ :=
    ⟨by cbv, by cbv, by cbv⟩
  have hbegins := @Session.Begins.interpret 1 _ _ _ _ haccepts
  have hreaches : Point.Reaches
      ⟨1, .stmts [.while (.literal (.bool true)) (.break ⟨"break", 1⟩)],
        Session.withTable ⟨.start .unlimited fun _ => none, 0⟩ ∅⟩
          ⟨1, .stmt (.break ⟨"break", 1⟩), _⟩ :=
    .head .statement <| .head .loop <| .single (.round rfl rfl)
  obtain ⟨loop, -, hencloses, hends⟩ :=
    (control_flow_contained (.start .unlimited _) 1 _ _ hbegins).2.2.2.2.1 1 _ _ hreaches
  exact ⟨_, loop, _, _, hbegins, hreaches, hencloses, hends⟩

end Lox
