/-
  Lox.Proofs.Scoping.Points

  The points of a run, and what is true at each of them.

    * `Point` — a task that is about to be done on a machine, with the bound on the
      calls and loops around it;
    * `Point.Step` — doing a task, a part of it comes up, on the machine that the
      parts before it left;
    * `Point.Fits` — the task is scoped inside the frames of the machine; steps keep
      it, so it holds at every point that a fitting one reaches;
    * `Scope.Pends`, `Point.Hands` — the names that are not ready, and how they come
      from one point to the next;
    * `Machine.Agrees` — what the frames have for an occurrence is what the table
      says.
-/
import Lox.Proofs.Scoping.Soundness
import Mathlib.Logic.Relation

namespace Lox

/-! ## Points -/

/-- What is to be done at a point of a run. -/
inductive Task where
  | expr (e : Expr)
  | exprs (es : List Expr)
  | stmt (s : Stmt)
  | stmts (ss : List Stmt)
  /-- The rounds of a loop, of which so many may still be made. -/
  | rounds (condition : Expr) (body : Stmt) (left : Nat)
  | call (callee : Value) (arguments : List Value)
  /-- An occurrence is looked up, or written. -/
  | look (use : Use)

/-- A task on a machine, inside calls of which so many more may be made. -/
structure Point where
  bound : Nat
  task : Task
  machine : Machine

/-- The machine in which the body of a block begins to run. -/
def Machine.inBlock (m : Machine) : Machine :=
  let made := m.store.child m.env
  { m with store := made.2, env := made.1 }

/-- The initializer of a new instance, and the machine with the instance. -/
def Machine.receive (m : Machine) (cls : Class) (init : Closure) : Closure × Machine :=
  let made := m.store.newInstance cls
  let bound := made.2.bindMethod init made.1
  (bound.1, { m with store := bound.2 })

/-- Doing the first task, the second one comes up.  A later part of a task comes up
    where the parts before it ended as they must for it. -/
inductive Point.Step : Point → Point → Prop
  -- Expressions.
  | grouping {k m inner} : Step ⟨k, .expr (.grouping inner), m⟩ ⟨k, .expr inner, m⟩
  | operand {k m op sign operand} :
      Step ⟨k, .expr (.unary op sign operand), m⟩ ⟨k, .expr operand, m⟩
  | left {k m op sign left right} :
      Step ⟨k, .expr (.binary op sign left right), m⟩ ⟨k, .expr left, m⟩
  | right {k m op sign left right a m'} : left.eval (invoke k) m = .ok a m' →
      Step ⟨k, .expr (.binary op sign left right), m⟩ ⟨k, .expr right, m'⟩
  | first {k m op sign left right} :
      Step ⟨k, .expr (.logical op sign left right), m⟩ ⟨k, .expr left, m⟩
  | second {k m op sign left right a m'} :
      left.eval (invoke k) m = .ok a m' → op.decidedBy a = false →
      Step ⟨k, .expr (.logical op sign left right), m⟩ ⟨k, .expr right, m'⟩
  | name {k m use} : Step ⟨k, .expr (.name use), m⟩ ⟨k, .look ⟨.read, use⟩, m⟩
  | assigned {k m target value} :
      Step ⟨k, .expr (.assign target value), m⟩ ⟨k, .expr value, m⟩
  | target {k m target value v m'} : value.eval (invoke k) m = .ok v m' →
      Step ⟨k, .expr (.assign target value), m⟩ ⟨k, .look ⟨.assign, target⟩, m'⟩
  | callee {k m callee paren arguments} :
      Step ⟨k, .expr (.call callee paren arguments), m⟩ ⟨k, .expr callee, m⟩
  | arguments {k m callee paren arguments f m'} : callee.eval (invoke k) m = .ok f m' →
      Step ⟨k, .expr (.call callee paren arguments), m⟩ ⟨k, .exprs arguments, m'⟩
  | called {k m callee paren arguments f m' vs m''} : callee.eval (invoke k) m = .ok f m' →
      Expr.listEval (invoke k) arguments m' = .ok vs m'' →
      Step ⟨k, .expr (.call callee paren arguments), m⟩ ⟨k, .call f vs, m''⟩
  | object {k m object property} :
      Step ⟨k, .expr (.get object property), m⟩ ⟨k, .expr object, m⟩
  | holder {k m object property value} :
      Step ⟨k, .expr (.set object property value), m⟩ ⟨k, .expr object, m⟩
  | stored {k m object property value i m'} : object.eval (invoke k) m = .ok (.instance i) m' →
      Step ⟨k, .expr (.set object property value), m⟩ ⟨k, .expr value, m'⟩
  | this {k m keyword} : Step ⟨k, .expr (.this keyword), m⟩ ⟨k, .look ⟨.this, keyword⟩, m⟩
  | super {k m keyword method} :
      Step ⟨k, .expr (.super keyword method), m⟩ ⟨k, .look ⟨.super, keyword⟩, m⟩
  | head {k m e es} : Step ⟨k, .exprs (e :: es), m⟩ ⟨k, .expr e, m⟩
  | tail {k m e es v m'} : e.eval (invoke k) m = .ok v m' →
      Step ⟨k, .exprs (e :: es), m⟩ ⟨k, .exprs es, m'⟩
  -- Calls.
  | function {k m closure stamp vs} : closure.arity = vs.length → m.depth < maxDepth →
      Step ⟨k + 1, .call (.function closure stamp) vs, m⟩
        ⟨k, .stmts closure.decl.body, m.enter closure vs⟩
  | initializer {k m cls init closure m' vs} : cls.findMethod "init" = some init →
      m.receive cls init = (closure, m') → closure.arity = vs.length → m.depth < maxDepth →
      Step ⟨k + 1, .call (.class cls) vs, m⟩ ⟨k, .stmts closure.decl.body, m'.enter closure vs⟩
  -- Statements.
  | expression {k m value} : Step ⟨k, .stmt (.expression value), m⟩ ⟨k, .expr value, m⟩
  | print {k m value} : Step ⟨k, .stmt (.print value), m⟩ ⟨k, .expr value, m⟩
  | var {k m name value} : Step ⟨k, .stmt (.var name (some value)), m⟩ ⟨k, .expr value, m⟩
  | block {k m body} : Step ⟨k, .stmt (.block body), m⟩ ⟨k, .stmts body, m.inBlock⟩
  | condition {k m condition yes no} :
      Step ⟨k, .stmt (.ifElse condition yes no), m⟩ ⟨k, .expr condition, m⟩
  | yes {k m condition yes no v m'} :
      condition.eval (invoke k) m = .ok v m' → v.isTruthy = true →
      Step ⟨k, .stmt (.ifElse condition yes no), m⟩ ⟨k, .stmt yes, m'⟩
  | no {k m condition yes no v m'} :
      condition.eval (invoke k) m = .ok v m' → v.isTruthy = false →
      Step ⟨k, .stmt (.ifElse condition yes (some no)), m⟩ ⟨k, .stmt no, m'⟩
  | loop {k m condition body} :
      Step ⟨k, .stmt (.while condition body), m⟩ ⟨k, .rounds condition body k, m⟩
  | return {k m keyword value} :
      Step ⟨k, .stmt (.return keyword (some value)), m⟩ ⟨k, .expr value, m⟩
  | superclass {k m name use methods} :
      Step ⟨k, .stmt (.class name (some use) methods), m⟩ ⟨k, .look ⟨.read, use⟩, m⟩
  | statement {k m s ss} : Step ⟨k, .stmts (s :: ss), m⟩ ⟨k, .stmt s, m⟩
  | statements {k m s ss m'} : s.exec (invoke k) k m = .ok .normal m' →
      Step ⟨k, .stmts (s :: ss), m⟩ ⟨k, .stmts ss, m'⟩
  -- Loops.
  | asked {k m condition body left} :
      Step ⟨k, .rounds condition body (left + 1), m⟩ ⟨k, .expr condition, m⟩
  | round {k m condition body left v m'} :
      condition.eval (invoke k) m = .ok v m' → v.isTruthy = true →
      Step ⟨k, .rounds condition body (left + 1), m⟩ ⟨k, .stmt body, m'⟩
  | again {k m condition body left v m' m''} :
      condition.eval (invoke k) m = .ok v m' → v.isTruthy = true →
      body.exec (invoke k) k m' = .ok .normal m'' →
      Step ⟨k, .rounds condition body (left + 1), m⟩ ⟨k, .rounds condition body left, m''⟩

/-- One task comes up in the course of another one. -/
abbrev Point.Reaches : Point → Point → Prop := Relation.ReflTransGen Point.Step

/-- The condition of a loop holds where it evaluates to something truthy. -/
theorem holds_of_ok {call : Invoke} {condition : Expr} {m m' : Machine} {v : Value}
    (h : condition.eval call m = .ok v m') (htruthy : v.isTruthy = true) :
    (do return (← condition.eval call).isTruthy : RunM Bool) m = .ok true m' := by
  refine (RunM.bind_of_ok h _).trans ?_
  rw [htruthy]
  rfl

/-! ## Fitting points -/

section

variable (T : Table) (n : Nat)

/-- The table is right for a use inside the scopes. -/
def Use.Scoped (scopes : List Scope) : Use → Prop
  | ⟨.read, use⟩ => T.Binds n scopes use
  | ⟨.assign, use⟩ => T.Writable n scopes use
  | ⟨.this, use⟩ => T.Binds n scopes use
  | ⟨.super, use⟩ => T.Inherits n scopes use

/-- The table is right for a task, and its values fit. -/
def Task.Fits (scopes : List Scope) (s : Store) : Task → Prop
  | .expr e => e.Scoped T n scopes
  | .exprs es => Expr.ListScoped T n scopes es
  | .stmt s => s.Scoped T n scopes
  | .stmts ss => Stmt.ListScoped T n scopes ss
  | .rounds condition body _ =>
    condition.Scoped T n scopes ∧ body.Scoped T n scopes ∧ body.Plain
  | .call f vs => f.Fits T n s ∧ ∀ v ∈ vs, v.Fits T n s
  | .look use => use.Scoped T n scopes

/-- The task fits into the frames of the machine, and everything in the store fits. -/
def Point.Fits (p : Point) : Prop :=
  p.machine.Fits T n ∧ ∃ scopes, p.machine.store.Chain p.machine.env scopes ∧
    p.task.Fits T n scopes p.machine.store

/-- The same for given scopes. -/
structure Point.FitsIn (p : Point) (scopes : List Scope) : Prop where
  machine : p.machine.Fits T n
  chain : p.machine.store.Chain p.machine.env scopes
  task : p.task.Fits T n scopes p.machine.store

end

/-- The name was put into the innermost scope, but is not ready. -/
def Scope.Pends (scopes : List Scope) (name : String) : Prop :=
  ∃ scope, scopes.head? = some scope ∧ scope.get? name = some false

/-- The parts of the task have a frame of their own. -/
def Task.Opens : Task → Prop
  | .call _ _ => True
  | .stmt (.block _) => True
  | _ => False

/-- In the scopes of a task that comes up, a name pends that did so before, in the same
    frame, or the one of the variable whose initializer the task is. -/
def Point.Hands (p q : Point) (scopes scopes' : List Scope) : Prop :=
  ∀ name, Scope.Pends scopes' name →
    Scope.Pends scopes name ∧ ¬p.task.Opens ∨
      ∃ declared value, p.task = .stmt (.var declared (some value)) ∧ declared.text = name ∧
        q = ⟨p.bound, .expr value, p.machine⟩

variable {T : Table} {n : Nat}

theorem Point.fits_iff {p : Point} : p.Fits T n ↔ ∃ scopes, p.FitsIn T n scopes :=
  ⟨fun ⟨hm, scopes, hchain, htask⟩ => ⟨scopes, hm, hchain, htask⟩,
    fun ⟨scopes, hm, hchain, htask⟩ => ⟨hm, scopes, hchain, htask⟩⟩

theorem Scope.not_pends_empty {scopes : List Scope} {name : String} :
    ¬Scope.Pends (.empty :: scopes) name := by
  rintro ⟨scope, hscope, hget⟩
  cases hscope
  cases hget

/-- A name that is put in ready leaves the names that are not ready. -/
theorem Scope.get?_of_insert_ready {scope : Scope} {own name : String}
    (h : (scope.insert own true).get? name = some false) : scope.get? name = some false := by
  by_cases hne : name = own
  · rw [hne, Bindings.get?_insert_self] at h
    cases h
  · rwa [scope.get?_insert_of_ne hne] at h

/-- What is ready pends no more. -/
theorem Scope.Pends.of_mark {scopes : List Scope} {own name : String}
    (h : Scope.Pends (Scope.mark scopes own true) name) : Scope.Pends scopes name := by
  obtain ⟨scope, hscope, hget⟩ := h
  cases scopes with
  | nil => cases hscope
  | cons innermost outer =>
    cases hscope
    exact ⟨innermost, rfl, Scope.get?_of_insert_ready hget⟩

theorem Scope.Pends.of_after {s : Stmt} {scopes : List Scope} {name : String}
    (h : Scope.Pends (s.after scopes) name) : Scope.Pends scopes name := by
  cases s with
  | var declared initializer => exact h.of_mark
  | function decl => exact h.of_mark
  | «class» declared superclass methods => exact h.of_mark
  | _ => exact h

/-- Only the variable that is declared is new among the names that pend. -/
theorem Scope.Pends.of_declare {scopes : List Scope} {own name : String}
    (h : Scope.Pends (Scope.mark scopes own false) name) :
    Scope.Pends scopes name ∨ own = name := by
  obtain ⟨scope, hscope, hget⟩ := h
  cases scopes with
  | nil => cases hscope
  | cons innermost outer =>
    cases hscope
    by_cases hne : name = own
    · exact .inr hne.symm
    · exact .inl ⟨innermost, rfl, by rwa [innermost.get?_insert_of_ne hne] at hget⟩

theorem Scope.not_pends_parameters (parameters : List Lexeme) {outer : List Scope} {name : String} :
    ¬Scope.Pends (Scope.ofParameters parameters :: outer) name := by
  rintro ⟨scope, hscope, hget⟩
  cases hscope
  -- Parameters are put into the scope one by one, all of them ready.
  suffices hfold : ∀ scope : Scope,
      (parameters.foldl (fun scope p => scope.insert p.text true) scope).get? name = some false →
        scope.get? name = some false by
    cases hfold .empty hget
  clear hget
  induction parameters with
  | nil => exact fun scope h => h
  | cons p ps ih => exact fun scope h => Scope.get?_of_insert_ready (ih _ h)

theorem Point.Hands.same {p q : Point} {scopes : List Scope} (hopens : ¬p.task.Opens) :
    p.Hands q scopes scopes :=
  fun _ hpends => .inl ⟨hpends, hopens⟩

/-- Behind a part that is scoped in the same scopes, a task goes on to fit. -/
theorem Point.FitsIn.behind {α : Type} {p : RunM α} {m m' : Machine} {Q : α → Store → Prop}
    (hp : RunM.Sound T n p m Q) {a : α} (hrun : p m = .ok a m') {scopes : List Scope}
    (hchain : m.store.Chain m.env scopes) {k : Nat} {task : Task}
    (htask : task.Fits T n scopes m'.store) : Point.FitsIn T n ⟨k, task, m'⟩ scopes :=
  ⟨(hp.ok hrun).2.1, (hp.ok hrun).1.chain hchain, htask⟩

/-- The initializer of a new instance of a fitting class fits. -/
theorem Machine.Fits.receive {m m' : Machine} (hm : m.Fits T n) {cls : Class}
    (hcls : cls.Fits T n m.store) {init closure : Closure}
    (hinit : cls.findMethod "init" = some init)
    (hreceive : m.receive cls init = (closure, m')) :
    m'.Fits T n ∧ closure.Fits T n m'.store ∧ m.store.Grows m'.store := by
  have hborn := RunM.Sound.make (Q := fun (_ : InstanceId) _ => True) hm
    (g := fun s => s.newInstance cls) (Store.grows_of_frames rfl) (hm.store.newInstance hcls)
    trivial
  obtain ⟨hgrown, hfits, -⟩ := hborn.ok rfl
  obtain ⟨hgrown', hfits', hclosure, -⟩ := (sound_bindMethod (m.store.newInstance cls).1 hfits
    ((hcls.grow hgrown.store) _ _ hinit)).ok rfl
  cases hreceive
  exact ⟨hfits', hclosure, hgrown.store.trans hgrown'.store⟩

/-- What comes up in a fitting task fits, and which names pend there. -/
theorem Point.FitsIn.step {p q : Point} {scopes : List Scope} (hp : p.FitsIn T n scopes)
    (h : p.Step q) : ∃ scopes', q.FitsIn T n scopes' ∧ p.Hands q scopes scopes' := by
  obtain ⟨hm, hchain, htask⟩ := hp
  have hcall (k : Nat) : Invoke.Sound T n (invoke k) := invoke_sound k
  cases h with
  | grouping => exact ⟨scopes, ⟨hm, hchain, htask⟩, .same id⟩
  | operand => exact ⟨scopes, ⟨hm, hchain, htask.2⟩, .same id⟩
  | left => exact ⟨scopes, ⟨hm, hchain, htask.2.1⟩, .same id⟩
  | right hrun =>
    exact ⟨scopes, .behind (Expr.sound (hcall _) _ htask.2.1 hm hchain) hrun hchain htask.2.2,
      .same id⟩
  | first => exact ⟨scopes, ⟨hm, hchain, htask.1⟩, .same id⟩
  | second hrun _ =>
    exact ⟨scopes, .behind (Expr.sound (hcall _) _ htask.1 hm hchain) hrun hchain htask.2,
      .same id⟩
  | name => exact ⟨scopes, ⟨hm, hchain, Table.Readable.binds htask⟩, .same id⟩
  | assigned => exact ⟨scopes, ⟨hm, hchain, htask.2.2⟩, .same id⟩
  | target hrun =>
    exact ⟨scopes, .behind (Expr.sound (hcall _) _ htask.2.2 hm hchain) hrun hchain htask.1,
      .same id⟩
  | callee => exact ⟨scopes, ⟨hm, hchain, htask.1⟩, .same id⟩
  | arguments hrun =>
    exact ⟨scopes, .behind (Expr.sound (hcall _) _ htask.1 hm hchain) hrun hchain htask.2,
      .same id⟩
  | @called k _ _ _ _ _ _ _ _ hrun hrun' =>
    obtain ⟨hgrown, hm', hf⟩ := (Expr.sound (hcall _) _ htask.1 hm hchain).ok hrun
    have harguments := Expr.listSound (hcall k) _ htask.2 hm' (hgrown.chain hchain)
    obtain ⟨hgrown', _, hvs⟩ := harguments.ok hrun'
    exact ⟨scopes, .behind harguments hrun' (hgrown.chain hchain) ⟨hf.grow hgrown'.store, hvs⟩,
      .same id⟩
  | object => exact ⟨scopes, ⟨hm, hchain, htask⟩, .same id⟩
  | holder => exact ⟨scopes, ⟨hm, hchain, htask.1⟩, .same id⟩
  | stored hrun =>
    exact ⟨scopes, .behind (Expr.sound (hcall _) _ htask.1 hm hchain) hrun hchain htask.2,
      .same id⟩
  | this => exact ⟨scopes, ⟨hm, hchain, htask.2.binds_this htask.1⟩, .same id⟩
  | super => exact ⟨scopes, ⟨hm, hchain, htask⟩, .same id⟩
  | head => exact ⟨scopes, ⟨hm, hchain, htask.1⟩, .same id⟩
  | tail hrun =>
    exact ⟨scopes, .behind (Expr.sound (hcall _) _ htask.1 hm hchain) hrun hchain htask.2,
      .same id⟩
  | function harity _ =>
    obtain ⟨hm', outer, hchain', hbody⟩ :=
      Closure.Fits.enter_parameters htask.1 hm harity htask.2
    exact ⟨_, ⟨hm', hchain', hbody⟩, fun _ hpends => absurd hpends (Scope.not_pends_parameters _)⟩
  | initializer hinit hreceive harity _ =>
    obtain ⟨hm', hclosure, hgrows⟩ := hm.receive htask.1 hinit hreceive
    obtain ⟨hm'', outer, hchain', hbody⟩ :=
      hclosure.enter_parameters hm' harity fun v hv => (htask.2 v hv).grow hgrows
    exact ⟨_, ⟨hm'', hchain', hbody⟩, fun _ hpends => absurd hpends (Scope.not_pends_parameters _)⟩
  | expression => exact ⟨scopes, ⟨hm, hchain, htask⟩, .same id⟩
  | print => exact ⟨scopes, ⟨hm, hchain, htask⟩, .same id⟩
  | @var k m declared value =>
    refine ⟨_, ⟨hm, hchain.declare htask.1.ordinary, htask.2⟩, fun name hpends => ?_⟩
    rcases hpends.of_declare with hpends | hname
    · exact .inl ⟨hpends, id⟩
    · exact .inr ⟨declared, value, rfl, hname, rfl⟩
  | block =>
    refine ⟨.empty :: scopes, ⟨⟨hm.table, hm.store.child _⟩,
      hchain.push fun _ h => absurd h Scope.not_needs_empty, htask⟩, fun _ hpends => ?_⟩
    exact absurd hpends Scope.not_pends_empty
  | @condition _ _ _ _ no =>
    cases no <;> exact ⟨scopes, ⟨hm, hchain, htask.1⟩, .same id⟩
  | @yes _ _ condition yes no _ _ hrun _ =>
    have hparts : condition.Scoped T n scopes ∧ yes.Scoped T n scopes := by
      cases no <;> exact ⟨htask.1, htask.2.1⟩
    exact ⟨scopes, .behind (Expr.sound (hcall _) _ hparts.1 hm hchain) hrun hchain hparts.2,
      .same id⟩
  | no hrun _ =>
    exact ⟨scopes, .behind (Expr.sound (hcall _) _ htask.1 hm hchain) hrun hchain htask.2.2.2.1,
      .same id⟩
  | loop => exact ⟨scopes, ⟨hm, hchain, htask⟩, .same id⟩
  | «return» => exact ⟨scopes, ⟨hm, hchain, htask⟩, .same id⟩
  | superclass => exact ⟨scopes, ⟨hm, hchain, Table.Readable.binds htask.2.1⟩, .same id⟩
  | statement => exact ⟨scopes, ⟨hm, hchain, htask.1⟩, .same id⟩
  | statements hrun =>
    obtain ⟨hgrown, hm', hleaves⟩ := (Stmt.sound (hcall _) _ _ htask.1 hm hchain).ok hrun
    exact ⟨_, ⟨hm', hgrown.env ▸ hleaves.2 rfl, htask.2⟩,
      fun _ hpends => .inl ⟨hpends.of_after, id⟩⟩
  | asked => exact ⟨scopes, ⟨hm, hchain, htask.1⟩, .same id⟩
  | round hrun _ =>
    exact ⟨scopes, .behind (Expr.sound (hcall _) _ htask.1 hm hchain) hrun hchain htask.2.1,
      .same id⟩
  | @again k _ _ _ _ _ _ _ hrun _ hrun' =>
    have hcondition := Expr.sound (hcall k) _ htask.1 hm hchain
    obtain ⟨hgrown, hm', _⟩ := hcondition.ok hrun
    exact ⟨scopes, .behind (Stmt.sound (hcall _) _ _ htask.2.1 hm' (hgrown.chain hchain)) hrun'
      (hgrown.chain hchain) htask, .same id⟩

/-- What comes up in a fitting task fits. -/
theorem Point.Fits.step {p q : Point} (hp : p.Fits T n) (h : p.Step q) : q.Fits T n := by
  obtain ⟨scopes, hp⟩ := Point.fits_iff.mp hp
  obtain ⟨scopes', hq, -⟩ := hp.step h
  exact Point.fits_iff.mpr ⟨scopes', hq⟩

/-- Every point that a fitting one reaches fits. -/
theorem Point.Fits.reaches {p q : Point} (hp : p.Fits T n) (h : p.Reaches q) : q.Fits T n := by
  induction h with
  | refl => exact hp
  | tail _ hstep ih => exact ih.step hstep

/-! ## Agreement -/

/-- The frames of the machine agree with the table on a use.  At a recorded distance
    there is a frame; for a name that is read it binds the name, and for `super` it
    binds the superclass while the frame one link further in binds the instance. -/
structure Machine.Agrees (m : Machine) (use : Use) : Prop where
  frame : ∀ d, m.table[use.occurrence.id]? = some d →
    ∃ g, m.store.ancestor? m.env d = some g ∧ (m.store.frames[g]?).isSome
  bound : use.kind = .read ∨ use.kind = .this → ∀ d, m.table[use.occurrence.id]? = some d →
    ∃ v, m.store.namedAt? m.env d use.occurrence.name.text = some v ∧
      m.store.getAt m.env d use.occurrence.name = .ok v
  assigned : use.kind = .assign → ∀ d v, m.table[use.occurrence.id]? = some d →
    ∃ s, m.store.assignAt m.env d use.occurrence.name v = .ok s
  super : use.kind = .super → ∃ d parent i, m.table[use.occurrence.id]? = some (d + 1) ∧
    m.store.namedAt? m.env (d + 1) "super" = some (.class parent) ∧
    m.store.namedAt? m.env d "this" = some (.instance i) ∧
    superBinding use.occurrence m = .ok (parent, i) m

theorem Store.frames_isSome_of_parent? {s : Store} {f : FrameId} (h : (s.parent? f).isSome) :
    (s.frames[f]?).isSome := by
  unfold parent? at h
  cases hframe : s.frames[f]? with
  | none => simp [hframe] at h
  | some frame => rfl

/-- Inside the frames of its scopes the machine agrees on a scoped use. -/
theorem Use.Scoped.agrees {use : Use} {scopes : List Scope} {m : Machine}
    (h : use.Scoped T n scopes) (hm : m.Fits T n) (hchain : m.store.Chain m.env scopes) :
    m.Agrees use := by
  obtain ⟨kind, use⟩ := use
  -- What holds of every use that the table places.
  have placed (hplaces : T.Places n scopes use) (d : Nat) (hd : m.table[use.id]? = some d) :
      ∃ g, m.store.ancestor? m.env d = some g ∧ (m.store.frames[g]?).isSome := by
    rw [hm.table] at hd
    obtain ⟨g, hg, hlinked⟩ := hplaces.frame hchain hd
    exact ⟨g, hg, Store.frames_isSome_of_parent? hlinked⟩
  have bound (hbinds : T.Binds n scopes use) (d : Nat) (hd : m.table[use.id]? = some d) :
      ∃ v, m.store.namedAt? m.env d use.name.text = some v ∧
        m.store.getAt m.env d use.name = .ok v := by
    rw [hm.table] at hd
    obtain ⟨g, v, hg, hv⟩ := hbinds.frame hchain hd
    have hnamed : m.store.namedAt? m.env d use.name.text = some v := by
      rw [Store.namedAt?, hg]
      exact hv
    exact ⟨v, hnamed, by rw [Store.getAt, hnamed]⟩
  cases kind with
  | read => exact ⟨placed h.places, fun _ => bound h, by simp, by simp⟩
  | this => exact ⟨placed h.places, fun _ => bound h, by simp, by simp⟩
  | assign =>
    refine ⟨placed h.1, by simp, fun _ d v hd => ?_, by simp⟩
    obtain ⟨g, hg, _⟩ := placed h.1 d hd
    exact ⟨_, by rw [Store.assignAt, hg]⟩
  | super =>
    obtain ⟨d, parent, i, hd, ⟨g, hg, hlinked⟩, hparent, hreceiver, -⟩ :=
      Table.Inherits.frames h hchain hm.store
    rw [← hm.table] at hd
    refine ⟨fun d' hd' => ?_, by simp, by simp, fun _ =>
      ⟨d, parent, i, hd, hparent, hreceiver, superBinding_eq hd hparent hreceiver⟩⟩
    rw [show m.table[use.id]? = some d' from hd', Option.some.injEq] at hd
    exact ⟨g, by rw [hd, hg], Store.frames_isSome_of_parent? hlinked⟩

end Lox
