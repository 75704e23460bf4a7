/-
  Lox.Proofs.Scoping.Writes

  What an assignment to a variable of a scope writes to.

    * `Task.uses` — the uses in what is done at a point; the parts of a task have no
      others, and are done in the same frame unless they have one of their own;
    * `Point.Initializes` — the initializer of a variable of the frame is evaluated;
    * `Point.FitsIn.reaches` — no other name is in a scope without being ready;
    * `resolved_write_finds_binding` — so the frame at a recorded distance binds the name
      that is written, or the variable is written by its own initializer;
    * `resolved_write_without_binding` — which does happen.
-/
import Lox.Proofs.Flow.Containment
import Lox.Proofs.Scoping.Agreement

namespace Lox

open RunM

variable {T : Table} {n : Nat} {p q : Point}

/-! ## Parts of tasks -/

/-- The uses in the trees of a task. -/
def Task.uses : Task → List Use
  | .expr e => e.uses
  | .exprs es => Expr.listUses es
  | .stmt s => s.uses
  | .stmts ss => Stmt.listUses ss
  | .rounds condition body _ => condition.uses ++ body.uses
  | .call _ _ => []
  | .look use => [use]

/-- The uses in what comes up are some of those in the task, in their order, unless a
    function is called. -/
theorem Point.Step.uses_sublist (h : p.Step q)
    (hcall : ∀ f vs, p.task ≠ .call f vs) : q.task.uses.Sublist p.task.uses := by
  cases h with
  | function => exact absurd rfl (hcall _ _)
  | initializer => exact absurd rfl (hcall _ _)
  | @condition _ _ _ _ no => cases no <;> simp [Task.uses, Stmt.uses]
  | @yes _ _ _ _ no => cases no <;> simp [Task.uses, Stmt.uses]
  | _ => simp [Task.uses, Expr.uses, Expr.listUses, Expr.optionUses, Stmt.uses, Stmt.listUses]

theorem Point.Step.uses (h : p.Step q) (hopens : ¬p.task.Opens) :
    q.task.uses ⊆ p.task.uses := by
  refine (h.uses_sublist fun f vs hcall => hopens ?_).subset
  rw [hcall]
  trivial

/-- What comes up does so in the frame of the task, unless it has one of its own. -/
theorem Point.Step.env (h : p.Step q) (hopens : ¬p.task.Opens) :
    q.machine.env = p.machine.env := by
  have ev := evolution_restored
  cases h with
  | right hrun => exact env_of_eval hrun
  | second hrun => exact env_of_eval hrun
  | target hrun => exact env_of_eval hrun
  | arguments hrun => exact env_of_eval hrun
  | called hrun hrun' =>
    exact ((ev.listEval (ev.invoke _) _).ok hrun').env.trans (env_of_eval hrun)
  | stored hrun => exact env_of_eval hrun
  | tail hrun => exact env_of_eval hrun
  | function => exact absurd trivial hopens
  | initializer => exact absurd trivial hopens
  | block => exact absurd trivial hopens
  | yes hrun => exact env_of_eval hrun
  | no hrun => exact env_of_eval hrun
  | statements hrun => exact ((ev.exec (ev.invoke _) _ _).ok hrun).env
  | round hrun => exact env_of_eval hrun
  | again hrun _ hrun' =>
    exact ((ev.exec (ev.invoke _) _ _).ok hrun').env.trans (env_of_eval hrun)
  | _ => rfl

/-! ## Names that are not ready -/

/-- A variable of the name is declared in the frame of the point `p`, and what is done
    at `p` belongs to its initializer. -/
def Point.Initializes (root p : Point) (name : String) : Prop :=
  ∃ k declared value m, root.Reaches ⟨k, .stmt (.var declared (some value)), m⟩ ∧
    declared.text = name ∧ m.env = p.machine.env ∧ p.task.uses ⊆ value.uses

/-- At every point that comes up, the names that are not ready are those of variables
    whose initializers are being evaluated. -/
theorem Point.FitsIn.reaches {root : Point} (hroot : root.FitsIn T n []) (h : root.Reaches p) :
    ∃ scopes, p.FitsIn T n scopes ∧
      ∀ name, Scope.Pends scopes name → root.Initializes p name := by
  -- A declaration that was met stays the one for its name, until a step hands the name on
  -- no more or declares it anew.
  induction h with
  | refl => exact ⟨[], hroot, fun _ ⟨_, hscope, _⟩ => by cases hscope⟩
  | @tail p q hreaches hstep ih =>
    obtain ⟨scopes, hp, hpending⟩ := ih
    obtain ⟨scopes', hq, hhands⟩ := hp.step hstep
    refine ⟨scopes', hq, fun name hpends => ?_⟩
    rcases hhands name hpends with ⟨hpends, hopens⟩ | ⟨declared, value, htask, hname, rfl⟩
    · obtain ⟨k, declared, value, m, hdeclared, hname, henv, huses⟩ := hpending name hpends
      exact ⟨k, declared, value, m, hdeclared, hname, henv.trans (hstep.env hopens).symm,
        List.Subset.trans (hstep.uses hopens) huses⟩
    · obtain ⟨k, task, m⟩ := p
      cases htask
      exact ⟨k, declared, value, m, hreaches, hname, rfl, List.Subset.refl _⟩

/-- A name that is written is bound in the frame at its distance, or it is one of the
    innermost scope that is not ready. -/
theorem Table.Writable.frame {scopes : List Scope} {use : Occurrence}
    (h : T.Writable n scopes use) {s : Store} {f : FrameId} (hchain : s.Chain f scopes) {d : Nat}
    (hd : T[use.id]? = some d) :
    ∃ g, s.ancestor? f d = some g ∧
      ((s.own? g use.name.text).isSome ∨ d = 0 ∧ Scope.Pends scopes use.name.text) := by
  obtain ⟨scope, hscope, hcontains⟩ := h.1.scope hd
  obtain ⟨g, hg, -, hbound⟩ := hchain.ancestor? hscope
  refine ⟨g, hg, ?_⟩
  cases hget : scope.get? use.name.text with
  | none => simp [Bindings.contains, hget] at hcontains
  | some ready =>
    cases ready with
    | true => exact .inl (hbound _ (.inl hget))
    | false =>
      cases d with
      | zero => exact .inr ⟨rfl, scope, by rwa [List.head?_eq_getElem?], hget⟩
      | succ d =>
        rw [h.2 d scope hd hscope] at hget
        cases hget

/-! ## Main statement -/

/-- In the course of the point a variable of the current frame is declared, and the
    occurrence stands in its initializer and assigns to it. -/
def Point.OwnInitializer (p : Point) (use : Occurrence) (m : Machine) : Prop :=
  ∃ k declared value m', p.Reaches ⟨k, .stmt (.var declared (some value)), m'⟩ ∧
    declared.text = use.name.text ∧ m'.env = m.env ∧ ⟨.assign, use⟩ ∈ value.uses

/-- Wherever an occurrence that is assigned to has a recorded distance, the frame at that
    distance binds the name already, so that the assignment makes no binding.  The one
    exception is an assignment to a variable of the current frame that stands in the
    initializer of this variable. -/
theorem resolved_write_finds_binding (out : Sink) (clock : Nat → Option Float)
    (texts : List (Nat × String × SessionMode)) (fuel : Nat) (source : String)
    (mode : SessionMode) {p : Point}
    (hp : (Session.afterTexts out clock texts).Begins fuel source mode p) {k : Nat}
    {use : Occurrence} {m : Machine} (hreaches : p.Reaches ⟨k, .look ⟨.assign, use⟩, m⟩) {d : Nat}
    (hd : m.table[use.id]? = some d) :
    ∃ g, m.store.ancestor? m.env d = some g ∧
      ((m.store.own? g use.name.text).isSome ∨ d = 0 ∧ p.OwnInitializer use m) := by
  obtain ⟨T, n, hfits⟩ := (Session.fits_afterTexts out clock texts).begins_outside hp
  obtain ⟨scopes, ⟨hm, hchain, hwritable⟩, hpending⟩ := hfits.reaches hreaches
  rw [hm.table] at hd
  obtain ⟨g, hg, hbound⟩ := Table.Writable.frame hwritable hchain hd
  refine ⟨g, hg, hbound.imp_right fun ⟨hzero, hpends⟩ => ⟨hzero, ?_⟩⟩
  obtain ⟨k', declared, value, m', hdeclared, hname, henv, huses⟩ := hpending _ hpends
  exact ⟨k', declared, value, m', hdeclared, hname, henv, huses List.mem_cons_self⟩

/-- A variable of a block is assigned to behind its declaration. -/
theorem resolved_write_finds_binding_block : ∃ (p : Point) (k : Nat) (use : Occurrence)
    (m : Machine),
    (Session.afterTexts .unlimited (fun _ => none) []).Begins 0 "\x7bvar a;a=true;\x7d"
        .interpret p ∧
      p.Reaches ⟨k, .look ⟨.assign, use⟩, m⟩ ∧ m.table[use.id]? = some 0 ∧
      ∃ g, m.store.ancestor? m.env 0 = some g ∧
        ((m.store.own? g use.name.text).isSome ∨ 0 = 0 ∧ p.OwnInitializer use m) := by
  have haccepts : ∃ A, (Session.afterTexts .unlimited (fun _ => none) []).Accepts
      "\x7bvar a;a=true;\x7d" parseProgram resolveProgram
      [.block [.var ⟨"a", 1⟩ none,
        .expression (.assign ⟨1, ⟨"a", 1⟩⟩ (.literal (.bool true)))]] A ∧ A[1]? = some 0 :=
    ⟨_, ⟨by cbv, by cbv, rfl⟩, by cbv⟩
  obtain ⟨A, haccepts, hA⟩ := haccepts
  have hbegins := @Session.Begins.interpret 0 _ _ _ _ haccepts
  have hreaches : Point.Reaches ⟨0, .stmts [.block [.var ⟨"a", 1⟩ none,
      .expression (.assign ⟨1, ⟨"a", 1⟩⟩ (.literal (.bool true)))]],
      (Session.afterTexts .unlimited (fun _ => none) []).withTable A⟩ _ :=
    .head .statement <| .head .block <| .head (.statements rfl) <| .head .statement <|
      .head .expression <| .single (.target rfl)
  have hd : (Table.merge ∅ (A.shift 0))[1]? = some 0 := by
    rw [Table.getElem?_merge, Table.getElem?_shift_zero, hA]
    rfl
  exact ⟨_, _, _, _, hbegins, hreaches, hd,
    resolved_write_finds_binding .unlimited (fun _ => none) [] 0 _ _ hbegins hreaches hd⟩

/-- In its own initializer a variable of a block is assigned to before the frame of the
    block binds it, and the assignment makes the binding. -/
theorem resolved_write_without_binding : ∃ (p : Point) (k : Nat) (use : Occurrence)
    (m : Machine) (g : FrameId) (s : Store),
    (Session.afterTexts .unlimited (fun _ => none) []).Begins 0 "\x7bvar a=(a=true);\x7d"
        .interpret p ∧
      p.Reaches ⟨k, .look ⟨.assign, use⟩, m⟩ ∧ m.table[use.id]? = some 0 ∧
      m.store.ancestor? m.env 0 = some g ∧ m.store.own? g use.name.text = none ∧
      m.store.assignAt m.env 0 use.name (.bool true) = .ok s ∧
      s.own? g use.name.text = some (.bool true) := by
  have haccepts : ∃ A, (Session.afterTexts .unlimited (fun _ => none) []).Accepts
      "\x7bvar a=(a=true);\x7d" parseProgram resolveProgram
      [.block [.var ⟨"a", 1⟩ (some (.grouping
        (.assign ⟨1, ⟨"a", 1⟩⟩ (.literal (.bool true)))))]] A ∧ A[1]? = some 0 :=
    ⟨_, ⟨by cbv, by cbv, rfl⟩, by cbv⟩
  obtain ⟨A, haccepts, hA⟩ := haccepts
  have hbegins := @Session.Begins.interpret 0 _ _ _ _ haccepts
  have hreaches : Point.Reaches ⟨0, .stmts [.block [.var ⟨"a", 1⟩ (some (.grouping
        (.assign ⟨1, ⟨"a", 1⟩⟩ (.literal (.bool true)))))]],
      (Session.afterTexts .unlimited (fun _ => none) []).withTable A⟩ _ :=
    .head .statement <| .head .block <| .head .statement <| .head .var <| .head .grouping <|
      .single (.target rfl)
  refine ⟨_, _, _, _, _, _, hbegins, hreaches, ?_, rfl, rfl, rfl, rfl⟩
  show (Table.merge ∅ (A.shift 0))[1]? = some 0
  rw [Table.getElem?_merge, Table.getElem?_shift_zero, hA]
  rfl

end Lox
