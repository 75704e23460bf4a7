/-
  Lox.Proofs.Scoping.Order

  The points of a run come one after the other.

    * `Store.Becomes` — the second store comes from the first one by single changes;
    * `Point.Leaves` — what is to be done at a point ends on a machine, well or not;
    * `Point.Done` — it goes well, and ends on a machine;
    * `Point.Before` — a point is done before another one comes up;
    * `Point.Reaches.leaves` — what comes up in the course of a point ends before the point
      does, well or not;
    * `Point.Reaches.order` — of two points of a run one comes up in the course of the
      other, or is done before the other comes up.
-/
import Lox.Proofs.Scoping.Calls

namespace Lox

open RunM

/-! ## Changes of a store -/

/-- A single change of a store. -/
inductive Store.Change : Store → Store → Prop
  | bound {s} (f name value) : Change s (s.define f name value)
  | framed {s} (frame) : Change s (s.newFrame frame).2
  | born {s} (cls) : Change s (s.newInstance cls).2
  | fielded {s} (i name value) : Change s (s.setField i name value)
  | stamped {s} : Change s s.newStamp.2

/-- The second store comes from the first one by single changes. -/
abbrev Store.Becomes : Store → Store → Prop := Relation.ReflTransGen Store.Change

/-- The store of the second machine comes from that of the first one. -/
def Machine.Becomes (m n : Machine) : Prop := m.store.Becomes n.store

theorem evolution_becomes : Evolution Machine.Becomes where
  refl _ := .refl
  trans := .trans
  bound _ f name value := .single (.bound f name value)
  framed _ frame := .single (.framed frame)
  born _ cls := .single (.born cls)
  fielded _ i name value := .single (.fielded i name value)
  stamped _ := .single .stamped
  printed _ _ := .refl
  ticked _ := .refl
  inFrame _ _ _ h := h
  deeper _ _ h := h

theorem Store.Change.frames {s t : Store} (h : s.Change t) : s.frames.size ≤ t.frames.size := by
  cases h with
  | bound f name value => exact Nat.le_of_eq Array.size_modify.symm
  | framed frame =>
    show s.frames.size ≤ (s.frames.push frame).size
    rw [Array.size_push]
    exact Nat.le_succ _
  | born cls => exact Nat.le_refl _
  | fielded i name value => exact Nat.le_refl _
  | stamped => exact Nat.le_refl _

/-- Frames are not lost. -/
theorem Store.Becomes.frames {s t : Store} (h : s.Becomes t) :
    s.frames.size ≤ t.frames.size := by
  induction h with
  | refl => exact Nat.le_refl _
  | tail _ hchange ih => exact Nat.le_trans ih hchange.frames

/-- The machine on which a body begins has the frame for it. -/
theorem Machine.becomes_enter (m : Machine) (closure : Closure) (vs : List Value) :
    m.Becomes (m.enter closure vs) :=
  evolution_becomes.framed m _

/-- The machine with a new instance and its initializer. -/
theorem Machine.becomes_receive (m : Machine) (cls : Class) (init : Closure) :
    m.Becomes (m.receive cls init).2 :=
  .trans (.single (.born cls)) (.single (.framed _))

section

variable {α β : Type} {x : RunM α} {f : α → RunM β} {m n : Machine} {b : β}

/-- The first part of an action that goes well has gone well before. -/
theorem bind_ok_becomes (h : (x >>= f) m = .ok b n) (hf : ∀ a, Respects Machine.Becomes (f a)) :
    ∃ m', (∃ a, x m = .ok a m') ∧ m'.Becomes n := by
  obtain ⟨a, m', hx, hrest⟩ := bind_ok h
  exact ⟨m', ⟨a, hx⟩, (hf a).ok hrest⟩

end

/-! ## What is done -/

/-- What is to be done at the point goes well, and ends on the machine. -/
def Point.Done (p : Point) (n : Machine) : Prop :=
  match p.task with
  | .expr e => ∃ v, e.eval (invoke p.bound) p.machine = .ok v n
  | .exprs es => ∃ vs, Expr.listEval (invoke p.bound) es p.machine = .ok vs n
  | .stmt s => ∃ flow, s.exec (invoke p.bound) p.bound p.machine = .ok flow n
  | .stmts ss => ∃ flow, Stmt.listExec (invoke p.bound) p.bound ss p.machine = .ok flow n
  | .rounds condition body left =>
    ∃ flow, whileLoop (do return (← condition.eval (invoke p.bound)).isTruthy)
      (body.exec (invoke p.bound) p.bound) left p.machine = .ok flow n
  | .call f vs => ∃ v paren, invoke p.bound f paren vs p.machine = .ok v n
  | .look _ => n = p.machine

/-- What is to be done at the point ends on the machine, well or not. -/
def Point.Leaves (p : Point) (n : Machine) : Prop :=
  match p.task with
  | .expr e => n = (e.eval (invoke p.bound)).after p.machine
  | .exprs es => n = (Expr.listEval (invoke p.bound) es).after p.machine
  | .stmt s => n = (s.exec (invoke p.bound) p.bound).after p.machine
  | .stmts ss => n = (Stmt.listExec (invoke p.bound) p.bound ss).after p.machine
  | .rounds condition body left =>
    n = (whileLoop (do return (← condition.eval (invoke p.bound)).isTruthy)
      (body.exec (invoke p.bound) p.bound) left).after p.machine
  | .call f vs => ∃ paren, n = (invoke p.bound f paren vs).after p.machine
  | .look _ => n = p.machine

/-- The point is done before the other one comes up. -/
def Point.Before (p q : Point) : Prop := ∃ n, p.Done n ∧ n.Becomes q.machine

variable {root p q r : Point} {n : Machine}

/-- A run of a task stays inside every relation that no single change leaves. -/
theorem Point.Leaves.respects {R : Machine → Machine → Prop} (h : p.Leaves n) (ev : Evolution R) :
    R p.machine n := by
  obtain ⟨k, task, m⟩ := p
  have hcall := ev.invoke k
  cases task with
  | expr e =>
    rw [show n = _ from h]
    exact ev.eval hcall e m
  | exprs es =>
    rw [show n = _ from h]
    exact ev.listEval hcall es m
  | stmt s =>
    rw [show n = _ from h]
    exact ev.exec hcall k s m
  | stmts ss =>
    rw [show n = _ from h]
    exact ev.listExec hcall k ss m
  | rounds condition body left =>
    rw [show n = _ from h]
    have hcondition : Respects R (do return (← condition.eval (invoke k)).isTruthy) :=
      ev.bind (ev.eval hcall condition) fun _ => ev.pure _
    exact ev.whileLoop hcondition (ev.exec hcall k body) left m
  | call f vs =>
    obtain ⟨paren, rfl⟩ := h
    exact hcall f paren vs m
  | look use =>
    rw [show n = m from h]
    exact ev.refl m

theorem Point.Done.leaves (h : p.Done n) : p.Leaves n := by
  obtain ⟨k, task, m⟩ := p
  cases task with
  | call f vs =>
    obtain ⟨v, paren, hrun⟩ := h
    exact ⟨paren, (after_of_ok hrun).symm⟩
  | look use => exact h
  | _ =>
    obtain ⟨a, hrun⟩ := h
    exact (after_of_ok hrun).symm

theorem Point.Done.becomes (h : p.Done n) : p.machine.Becomes n :=
  h.leaves.respects evolution_becomes

/-! ## What comes up -/

/-- A part of a task comes up on a machine that the task has come to. -/
theorem Point.Step.becomes (h : p.Step q) : p.machine.Becomes q.machine := by
  have ev := evolution_becomes
  cases h with
  | right hrun => exact (ev.eval (ev.invoke _) _).ok hrun
  | second hrun _ => exact (ev.eval (ev.invoke _) _).ok hrun
  | target hrun => exact (ev.eval (ev.invoke _) _).ok hrun
  | arguments hrun => exact (ev.eval (ev.invoke _) _).ok hrun
  | called hrun hrun' =>
    exact ev.trans ((ev.eval (ev.invoke _) _).ok hrun) ((ev.listEval (ev.invoke _) _).ok hrun')
  | stored hrun => exact (ev.eval (ev.invoke _) _).ok hrun
  | tail hrun => exact (ev.eval (ev.invoke _) _).ok hrun
  | function _ _ => exact Machine.becomes_enter _ _ _
  | initializer _ hreceive _ _ =>
    cases hreceive
    exact ev.trans (Machine.becomes_receive _ _ _) (Machine.becomes_enter _ _ _)
  | block => exact ev.framed _ _
  | yes hrun _ => exact (ev.eval (ev.invoke _) _).ok hrun
  | no hrun _ => exact (ev.eval (ev.invoke _) _).ok hrun
  | statements hrun => exact (ev.exec (ev.invoke _) _ _).ok hrun
  | round hrun _ => exact (ev.eval (ev.invoke _) _).ok hrun
  | again hrun _ hrun' =>
    exact ev.trans ((ev.eval (ev.invoke _) _).ok hrun) ((ev.exec (ev.invoke _) _ _).ok hrun')
  | _ => exact .refl

theorem Point.Reaches.becomes (h : p.Reaches q) : p.machine.Becomes q.machine := by
  induction h with
  | refl => exact .refl
  | tail _ hstep ih => exact .trans ih hstep.becomes

/-- A task is done only if every part that comes up in it has been done before. -/
theorem Point.Step.done (hstep : p.Step q) (h : p.Done n) : ∃ n', q.Done n' ∧ n'.Becomes n := by
  have ev := evolution_becomes
  have hcall := ev.invoke
  cases hstep with
  | grouping => exact ⟨n, h, .refl⟩
  | operand =>
    obtain ⟨v, hrun⟩ := h
    exact bind_ok_becomes hrun fun a => ev.unary _ _ a
  | left =>
    obtain ⟨v, hrun⟩ := h
    exact bind_ok_becomes hrun fun a =>
      ev.bind (ev.eval (hcall _) _) fun b => ev.binary _ _ a b
  | right hleft =>
    obtain ⟨v, hrun⟩ := h
    have hright := ok_of_bind_ok hrun hleft
    exact bind_ok_becomes hright fun b => ev.binary _ _ _ b
  | first =>
    obtain ⟨v, hrun⟩ := h
    refine bind_ok_becomes hrun fun a => ?_
    split
    · exact ev.pure _
    · exact ev.eval (hcall _) _
  | second hleft hopen =>
    obtain ⟨v, hrun⟩ := h
    have hright := ok_of_bind_ok hrun hleft
    rw [hopen, if_neg Bool.false_ne_true] at hright
    exact ⟨n, ⟨v, hright⟩, .refl⟩
  | name => exact ⟨_, rfl, h.becomes⟩
  | assigned =>
    obtain ⟨v, hrun⟩ := h
    exact bind_ok_becomes hrun fun a => ev.bind (ev.write _ a) fun _ => ev.pure _
  | target hvalue =>
    obtain ⟨v, hrun⟩ := h
    have hwrite := ok_of_bind_ok hrun hvalue
    exact ⟨_, rfl, (ev.bind (ev.write _ _) fun _ => ev.pure _).ok hwrite⟩
  | callee =>
    obtain ⟨v, hrun⟩ := h
    exact bind_ok_becomes hrun fun f =>
      ev.bind (ev.listEval (hcall _) _) fun vs => hcall _ f _ vs
  | arguments hcallee =>
    obtain ⟨v, hrun⟩ := h
    have harguments := ok_of_bind_ok hrun hcallee
    exact bind_ok_becomes harguments fun vs => hcall _ _ _ vs
  | called hcallee harguments =>
    obtain ⟨v, hrun⟩ := h
    have hrest := ok_of_bind_ok hrun hcallee
    have hcalled := ok_of_bind_ok hrest harguments
    exact ⟨n, ⟨v, _, hcalled⟩, .refl⟩
  | object =>
    obtain ⟨v, hrun⟩ := h
    exact bind_ok_becomes hrun fun o =>
      ev.bind (ev.asInstance _ _ o) fun i => ev.readProperty i _
  | holder =>
    obtain ⟨v, hrun⟩ := h
    exact bind_ok_becomes hrun fun o => ev.bind (ev.asInstance _ _ o) fun i =>
      ev.bind (ev.eval (hcall _) _) fun a => ev.bind (ev.setField i _ a) fun _ => ev.pure _
  | stored hobject =>
    obtain ⟨v, hrun⟩ := h
    have hrest := ok_of_bind_ok hrun hobject
    have hvalue := ok_of_bind_ok hrest rfl
    exact bind_ok_becomes hvalue fun a => ev.bind (ev.setField _ _ a) fun _ => ev.pure _
  | this => exact ⟨_, rfl, h.becomes⟩
  | super => exact ⟨_, rfl, h.becomes⟩
  | head =>
    obtain ⟨vs, hrun⟩ := h
    exact bind_ok_becomes hrun fun a => ev.bind (ev.listEval (hcall _) _) fun as => ev.pure _
  | tail hhead =>
    obtain ⟨vs, hrun⟩ := h
    have htail := ok_of_bind_ok hrun hhead
    exact bind_ok_becomes htail fun as => ev.pure _
  | function _ _ =>
    obtain ⟨v, paren, hrun⟩ := h
    obtain ⟨flow, n', hbody, -, rfl⟩ := callClosure_ok (invoke_function_cases hrun).2
    exact ⟨n', ⟨flow, hbody⟩, .refl⟩
  | initializer hinit hreceive _ _ =>
    obtain ⟨v, paren, hrun⟩ := h
    obtain ⟨-, -, ⟨hnone, -⟩ | ⟨init, w, hfound, hcalled⟩⟩ := invoke_class_cases hrun
    · rw [hinit] at hnone
      cases hnone
    · cases hinit.symm.trans hfound
      cases hreceive
      obtain ⟨flow, n', hbody, -, rfl⟩ := callClosure_ok hcalled
      exact ⟨n', ⟨flow, hbody⟩, .refl⟩
  | expression =>
    obtain ⟨flow, hrun⟩ := h
    exact bind_ok_becomes hrun fun _ => ev.pure _
  | print =>
    obtain ⟨flow, hrun⟩ := h
    exact bind_ok_becomes hrun fun v => ev.bind (ev.print v) fun _ => ev.pure _
  | var =>
    obtain ⟨flow, hrun⟩ := h
    exact bind_ok_becomes hrun fun v => ev.bind (ev.define _ v) fun _ => ev.pure _
  | block =>
    obtain ⟨flow, hrun⟩ := h
    have hrest := ok_of_bind_ok hrun rfl
    have hinside := ok_of_bind_ok hrest rfl
    obtain ⟨n', hbody, rfl⟩ := withFrame_ok hinside
    exact ⟨n', ⟨flow, hbody⟩, .refl⟩
  | @condition k m condition yes no =>
    obtain ⟨flow, hrun⟩ := h
    cases no with
    | none =>
      refine bind_ok_becomes hrun fun v => ?_
      split
      · exact ev.exec (hcall _) _ _
      · exact ev.pure _
    | some no =>
      refine bind_ok_becomes hrun fun v => ?_
      split
      · exact ev.exec (hcall _) _ _
      · exact ev.exec (hcall _) _ _
  | @yes k m condition yes no v m' hcondition htruthy =>
    obtain ⟨flow, hrun⟩ := h
    cases no with
    | none =>
      have hyes := ok_of_bind_ok hrun hcondition
      rw [htruthy, if_pos rfl] at hyes
      exact ⟨n, ⟨flow, hyes⟩, .refl⟩
    | some no =>
      have hyes := ok_of_bind_ok hrun hcondition
      rw [htruthy, if_pos rfl] at hyes
      exact ⟨n, ⟨flow, hyes⟩, .refl⟩
  | no hcondition hfalsy =>
    obtain ⟨flow, hrun⟩ := h
    have hno := ok_of_bind_ok hrun hcondition
    rw [hfalsy, if_neg Bool.false_ne_true] at hno
    exact ⟨n, ⟨flow, hno⟩, .refl⟩
  | loop => exact ⟨n, h, .refl⟩
  | «return» =>
    obtain ⟨flow, hrun⟩ := h
    exact bind_ok_becomes hrun fun v => ev.pure _
  | superclass => exact ⟨_, rfl, h.becomes⟩
  | statement =>
    obtain ⟨flow, hrun⟩ := h
    refine bind_ok_becomes hrun fun first => ?_
    split
    · exact ev.listExec (hcall _) _ _
    · exact ev.pure _
  | statements hfirst =>
    obtain ⟨flow, hrun⟩ := h
    have hrest := ok_of_bind_ok hrun hfirst
    exact ⟨n, ⟨flow, hrest⟩, .refl⟩
  | @asked k m condition body left =>
    obtain ⟨flow, hrun⟩ := h
    have hcondition : Respects Machine.Becomes (do return (← condition.eval (invoke k)).isTruthy) :=
      ev.bind (ev.eval (hcall k) condition) fun _ => ev.pure _
    obtain ⟨n₁, ⟨holds, hasked⟩, hrest⟩ := bind_ok_becomes hrun fun holds => by
      split
      · refine ev.bind (ev.exec (hcall k) k body) fun flow => ?_
        split
        · exact ev.whileLoop hcondition (ev.exec (hcall k) k body) left
        · exact ev.pure _
        · exact ev.pure _
      · exact ev.pure _
    obtain ⟨n₂, hdone, hpure⟩ := bind_ok_becomes hasked fun _ => ev.pure _
    exact ⟨n₂, hdone, .trans hpure hrest⟩
  | @round k m condition body left v m' hcondition htruthy =>
    obtain ⟨flow, hrun⟩ := h
    have hround := ok_of_bind_ok hrun (holds_of_ok hcondition htruthy)
    refine bind_ok_becomes hround fun flow => ?_
    split
    · exact ev.whileLoop (ev.bind (ev.eval (hcall k) condition) fun _ => ev.pure _)
        (ev.exec (hcall k) k body) left
    · exact ev.pure _
    · exact ev.pure _
  | again hcondition htruthy hround =>
    obtain ⟨flow, hrun⟩ := h
    have hrest := ok_of_bind_ok hrun (holds_of_ok hcondition htruthy)
    have hagain := ok_of_bind_ok hrest hround
    exact ⟨n, ⟨flow, hagain⟩, .refl⟩

theorem Point.Reaches.done (hreaches : p.Reaches q) (h : p.Done n) :
    ∃ n', q.Done n' ∧ n'.Becomes n := by
  induction hreaches with
  | refl => exact ⟨n, h, .refl⟩
  | tail _ hstep ih =>
    obtain ⟨n₁, hdone, hbecomes⟩ := ih
    obtain ⟨n₂, hdone', hbecomes'⟩ := hstep.done hdone
    exact ⟨n₂, hdone', .trans hbecomes' hbecomes⟩

/-! ## However it ends -/

section

variable {α β : Type} {x : RunM α} {f : α → RunM β} {m m' l : Machine} {a : α}

/-- The first part of an action has come to its end before the action has. -/
theorem becomes_bind (hf : ∀ a, Respects Machine.Becomes (f a)) :
    (x.after m).Becomes ((x >>= f).after m) := by
  cases hrun : x m with
  | ok a n =>
    rw [after_of_ok hrun, after_bind_of_ok hrun]
    exact hf a n
  | error halt n =>
    rw [after_of_error hrun, after_bind_of_error hrun]
    exact .refl

/-- Behind a first part that went well, an action ends where the rest does. -/
theorem becomes_behind (hrun : x m = .ok a m') (h : l.Becomes ((f a).after m')) :
    l.Becomes ((x >>= f).after m) := by
  rwa [after_bind_of_ok hrun]

/-- An action inside a frame has come to its end before the action around it has. -/
theorem becomes_withFrame (f : FrameId) :
    (x.after { m with env := f }).Becomes ((withFrame f x).after m) := by
  unfold RunM.after withFrame
  cases x { m with env := f } <;> exact .refl

theorem becomes_deeper :
    (x.after { m with depth := m.depth + 1 }).Becomes ((deeper x).after m) := by
  unfold RunM.after deeper
  cases x { m with depth := m.depth + 1 } <;> exact .refl

/-- The body of a call that is not too deep has come to its end before the call has. -/
theorem becomes_callClosure {run : List Stmt → RunM Flow} {closure : Closure} {paren : Lexeme}
    {vs : List Value} (hdepth : m.depth < maxDepth) :
    ((run closure.decl.body).after (m.enter closure vs)).Becomes
      ((callClosure run closure paren vs).after m) := by
  have ev := evolution_becomes
  have hshallow : ¬maxDepth ≤ m.depth := Nat.not_le.mpr hdepth
  refine becomes_behind (x := get) rfl ?_
  rw [if_neg hshallow]
  refine becomes_behind (x := make _) rfl ?_
  have hinside : ((run closure.decl.body).after (m.enter closure vs)).Becomes
      ((deeper (withFrame m.store.frames.size (run closure.decl.body))).after
        { m with store := (m.enter closure vs).store }) :=
    .trans (becomes_withFrame (x := run closure.decl.body)
      (m := { m with store := (m.enter closure vs).store, depth := m.depth + 1 })
      m.store.frames.size) (becomes_deeper (x := withFrame m.store.frames.size
        (run closure.decl.body)) (m := { m with store := (m.enter closure vs).store }))
  refine hinside.trans (becomes_bind fun flow => ?_)
  split
  · exact ev.inspect _
  · exact ev.pure _

end

/-- A task ends only behind every part that comes up in it, be it well or not. -/
theorem Point.Step.leaves (hstep : p.Step q) (h : p.Leaves n) :
    ∃ n', q.Leaves n' ∧ n'.Becomes n := by
  have ev := evolution_becomes
  have hcall := ev.invoke
  cases hstep with
  | grouping => exact ⟨n, h, .refl⟩
  | operand =>
    cases h
    exact ⟨_, rfl, becomes_bind fun a => ev.unary _ _ a⟩
  | left =>
    cases h
    exact ⟨_, rfl, becomes_bind fun a => ev.bind (ev.eval (hcall _) _) fun b => ev.binary _ _ a b⟩
  | right hleft =>
    cases h
    exact ⟨_, rfl, becomes_behind hleft (becomes_bind fun b => ev.binary _ _ _ b)⟩
  | first =>
    cases h
    refine ⟨_, rfl, becomes_bind fun a => ?_⟩
    split
    · exact ev.pure _
    · exact ev.eval (hcall _) _
  | second hleft hopen =>
    cases h
    refine ⟨_, rfl, becomes_behind hleft ?_⟩
    rw [hopen, if_neg Bool.false_ne_true]
    exact .refl
  | name => exact ⟨_, rfl, h.respects ev⟩
  | assigned =>
    cases h
    exact ⟨_, rfl, becomes_bind fun a => ev.bind (ev.write _ a) fun _ => ev.pure _⟩
  | target hvalue =>
    cases h
    exact ⟨_, rfl, becomes_behind hvalue ((ev.bind (ev.write _ _) fun _ => ev.pure _) _)⟩
  | callee =>
    cases h
    exact ⟨_, rfl, becomes_bind fun f =>
      ev.bind (ev.listEval (hcall _) _) fun vs => hcall _ f _ vs⟩
  | arguments hcallee =>
    cases h
    exact ⟨_, rfl, becomes_behind hcallee (becomes_bind fun vs => hcall _ _ _ vs)⟩
  | called hcallee harguments =>
    cases h
    exact ⟨_, ⟨_, rfl⟩, becomes_behind hcallee (becomes_behind harguments .refl)⟩
  | object =>
    cases h
    exact ⟨_, rfl, becomes_bind fun o =>
      ev.bind (ev.asInstance _ _ o) fun i => ev.readProperty i _⟩
  | holder =>
    cases h
    exact ⟨_, rfl, becomes_bind fun o => ev.bind (ev.asInstance _ _ o) fun i =>
      ev.bind (ev.eval (hcall _) _) fun a => ev.bind (ev.setField i _ a) fun _ => ev.pure _⟩
  | @stored k m object property value i m' hobject =>
    cases h
    have hi : asInstance property .fieldOfNonInstance (.instance i) m' = .ok i m' := rfl
    exact ⟨_, rfl, becomes_behind hobject (becomes_behind hi (becomes_bind fun a =>
      ev.bind (ev.setField _ _ a) fun _ => ev.pure _))⟩
  | this => exact ⟨_, rfl, h.respects ev⟩
  | super => exact ⟨_, rfl, h.respects ev⟩
  | head =>
    cases h
    exact ⟨_, rfl, becomes_bind fun a =>
      ev.bind (ev.listEval (hcall _) _) fun as => ev.pure _⟩
  | tail hhead =>
    cases h
    exact ⟨_, rfl, becomes_behind hhead (becomes_bind fun as => ev.pure _)⟩
  | function harity hdepth =>
    obtain ⟨paren, rfl⟩ := h
    exact ⟨_, rfl, becomes_behind (checkArity_of_eq paren harity _) (becomes_callClosure hdepth)⟩
  | @initializer k m cls init closure m' vs hinit hreceive harity hdepth =>
    obtain ⟨paren, rfl⟩ := h
    cases hreceive
    have hcounted : cls.arity = vs.length := by
      rw [Class.arity, hinit]
      exact harity
    refine ⟨_, rfl, becomes_behind (checkArity_of_eq paren hcounted _) ?_⟩
    show Machine.Becomes _ ((instantiate (Stmt.listExec (invoke k) k) cls paren vs).after m)
    rw [after_instantiate _ hinit]
    exact becomes_callClosure hdepth
  | expression =>
    cases h
    exact ⟨_, rfl, becomes_bind fun _ => ev.pure _⟩
  | print =>
    cases h
    exact ⟨_, rfl, becomes_bind fun v => ev.bind (ev.print v) fun _ => ev.pure _⟩
  | var =>
    cases h
    exact ⟨_, rfl, becomes_bind fun v => ev.bind (ev.define _ v) fun _ => ev.pure _⟩
  | @block k m body =>
    cases h
    have hinside : ((Stmt.listExec (invoke k) k body).after m.inBlock).Becomes
        ((withFrame m.inBlock.env (Stmt.listExec (invoke k) k body)).after
          { m with store := m.inBlock.store }) :=
      becomes_withFrame (x := Stmt.listExec (invoke k) k body)
        (m := { m with store := m.inBlock.store }) m.inBlock.env
    exact ⟨_, rfl, becomes_behind (x := get) rfl (becomes_behind (x := make _) rfl hinside)⟩
  | @condition k m condition yes no =>
    cases h
    cases no with
    | none =>
      refine ⟨_, rfl, becomes_bind fun v => ?_⟩
      split
      · exact ev.exec (hcall _) _ _
      · exact ev.pure _
    | some no =>
      refine ⟨_, rfl, becomes_bind fun v => ?_⟩
      split
      · exact ev.exec (hcall _) _ _
      · exact ev.exec (hcall _) _ _
  | @yes k m condition yes no v m' hcondition htruthy =>
    cases h
    cases no with
    | none =>
      refine ⟨_, rfl, becomes_behind hcondition ?_⟩
      rw [htruthy, if_pos rfl]
      exact .refl
    | some no =>
      refine ⟨_, rfl, becomes_behind hcondition ?_⟩
      rw [htruthy, if_pos rfl]
      exact .refl
  | no hcondition hfalsy =>
    cases h
    refine ⟨_, rfl, becomes_behind hcondition ?_⟩
    rw [hfalsy, if_neg Bool.false_ne_true]
    exact .refl
  | loop => exact ⟨n, h, .refl⟩
  | «return» =>
    cases h
    exact ⟨_, rfl, becomes_bind fun v => ev.pure _⟩
  | superclass => exact ⟨_, rfl, h.respects ev⟩
  | statement =>
    cases h
    refine ⟨_, rfl, becomes_bind fun first => ?_⟩
    split
    · exact ev.listExec (hcall _) _ _
    · exact ev.pure _
  | statements hfirst =>
    cases h
    exact ⟨_, rfl, becomes_behind hfirst .refl⟩
  | @asked k m condition body left =>
    cases h
    have hasked : ((condition.eval (invoke k)).after m).Becomes
        ((do return (← condition.eval (invoke k)).isTruthy : RunM Bool).after m) :=
      becomes_bind fun _ => ev.pure _
    refine ⟨_, rfl, hasked.trans (becomes_bind fun holds => ?_)⟩
    split
    · refine ev.bind (ev.exec (hcall k) k body) fun flow => ?_
      split
      · exact ev.whileLoop (ev.bind (ev.eval (hcall k) condition) fun _ => ev.pure _)
          (ev.exec (hcall k) k body) left
      · exact ev.pure _
      · exact ev.pure _
    · exact ev.pure _
  | @round k m condition body left v m' hcondition htruthy =>
    cases h
    refine ⟨_, rfl, becomes_behind (holds_of_ok hcondition htruthy) (becomes_bind fun flow => ?_)⟩
    split
    · exact ev.whileLoop (ev.bind (ev.eval (hcall k) condition) fun _ => ev.pure _)
        (ev.exec (hcall k) k body) left
    · exact ev.pure _
    · exact ev.pure _
  | again hcondition htruthy hround =>
    cases h
    exact ⟨_, rfl, becomes_behind (holds_of_ok hcondition htruthy) (becomes_behind hround .refl)⟩

/-- So it is for all that comes up in the course of a point. -/
theorem Point.Reaches.leaves (hreaches : p.Reaches q) (h : p.Leaves n) :
    ∃ n', q.Leaves n' ∧ n'.Becomes n := by
  induction hreaches with
  | refl => exact ⟨n, h, .refl⟩
  | tail _ hstep ih =>
    obtain ⟨n₁, hleaves, hbecomes⟩ := ih
    obtain ⟨n₂, hleaves', hbecomes'⟩ := hstep.leaves hleaves
    exact ⟨n₂, hleaves', .trans hbecomes' hbecomes⟩

/-! ## One after the other -/

/-- Two parts of a task come up one after the other. -/
theorem Point.Step.order (h : p.Step q) (h' : p.Step r) : q = r ∨ q.Before r ∨ r.Before q := by
  have ev := evolution_becomes
  -- A later part comes up where the ones before it have been done.
  cases h with
  | left => cases h' with
    | left => exact .inl rfl
    | right hleft => exact .inr (.inl ⟨_, ⟨_, hleft⟩, .refl⟩)
  | right hleft => cases h' with
    | left => exact .inr (.inr ⟨_, ⟨_, hleft⟩, .refl⟩)
    | right hleft' =>
      cases hleft.symm.trans hleft'
      exact .inl rfl
  | first => cases h' with
    | first => exact .inl rfl
    | second hleft _ => exact .inr (.inl ⟨_, ⟨_, hleft⟩, .refl⟩)
  | second hleft _ => cases h' with
    | first => exact .inr (.inr ⟨_, ⟨_, hleft⟩, .refl⟩)
    | second hleft' _ =>
      cases hleft.symm.trans hleft'
      exact .inl rfl
  | assigned => cases h' with
    | assigned => exact .inl rfl
    | target hvalue => exact .inr (.inl ⟨_, ⟨_, hvalue⟩, .refl⟩)
  | target hvalue => cases h' with
    | assigned => exact .inr (.inr ⟨_, ⟨_, hvalue⟩, .refl⟩)
    | target hvalue' =>
      cases hvalue.symm.trans hvalue'
      exact .inl rfl
  | callee => cases h' with
    | callee => exact .inl rfl
    | arguments hcallee => exact .inr (.inl ⟨_, ⟨_, hcallee⟩, .refl⟩)
    | called hcallee harguments =>
      exact .inr (.inl ⟨_, ⟨_, hcallee⟩, (ev.listEval (ev.invoke _) _).ok harguments⟩)
  | arguments hcallee => cases h' with
    | callee => exact .inr (.inr ⟨_, ⟨_, hcallee⟩, .refl⟩)
    | arguments hcallee' =>
      cases hcallee.symm.trans hcallee'
      exact .inl rfl
    | called hcallee' harguments =>
      cases hcallee.symm.trans hcallee'
      exact .inr (.inl ⟨_, ⟨_, harguments⟩, .refl⟩)
  | called hcallee harguments => cases h' with
    | callee => exact .inr (.inr ⟨_, ⟨_, hcallee⟩, (ev.listEval (ev.invoke _) _).ok harguments⟩)
    | arguments hcallee' =>
      cases hcallee.symm.trans hcallee'
      exact .inr (.inr ⟨_, ⟨_, harguments⟩, .refl⟩)
    | called hcallee' harguments' =>
      cases hcallee.symm.trans hcallee'
      cases harguments.symm.trans harguments'
      exact .inl rfl
  | holder => cases h' with
    | holder => exact .inl rfl
    | stored hobject => exact .inr (.inl ⟨_, ⟨_, hobject⟩, .refl⟩)
  | stored hobject => cases h' with
    | holder => exact .inr (.inr ⟨_, ⟨_, hobject⟩, .refl⟩)
    | stored hobject' =>
      cases hobject.symm.trans hobject'
      exact .inl rfl
  | head => cases h' with
    | head => exact .inl rfl
    | tail hhead => exact .inr (.inl ⟨_, ⟨_, hhead⟩, .refl⟩)
  | tail hhead => cases h' with
    | head => exact .inr (.inr ⟨_, ⟨_, hhead⟩, .refl⟩)
    | tail hhead' =>
      cases hhead.symm.trans hhead'
      exact .inl rfl
  | initializer hinit hreceive _ _ => cases h' with
    | initializer hinit' hreceive' _ _ =>
      cases hinit.symm.trans hinit'
      cases hreceive.symm.trans hreceive'
      exact .inl rfl
  | condition => cases h' with
    | condition => exact .inl rfl
    | yes hcondition _ => exact .inr (.inl ⟨_, ⟨_, hcondition⟩, .refl⟩)
    | no hcondition _ => exact .inr (.inl ⟨_, ⟨_, hcondition⟩, .refl⟩)
  | yes hcondition htruthy => cases h' with
    | condition => exact .inr (.inr ⟨_, ⟨_, hcondition⟩, .refl⟩)
    | yes hcondition' _ =>
      cases hcondition.symm.trans hcondition'
      exact .inl rfl
    | no hcondition' hfalsy =>
      cases hcondition.symm.trans hcondition'
      cases htruthy.symm.trans hfalsy
  | no hcondition hfalsy => cases h' with
    | condition => exact .inr (.inr ⟨_, ⟨_, hcondition⟩, .refl⟩)
    | yes hcondition' htruthy =>
      cases hcondition.symm.trans hcondition'
      cases htruthy.symm.trans hfalsy
    | no hcondition' _ =>
      cases hcondition.symm.trans hcondition'
      exact .inl rfl
  | statement => cases h' with
    | statement => exact .inl rfl
    | statements hfirst => exact .inr (.inl ⟨_, ⟨_, hfirst⟩, .refl⟩)
  | statements hfirst => cases h' with
    | statement => exact .inr (.inr ⟨_, ⟨_, hfirst⟩, .refl⟩)
    | statements hfirst' =>
      cases hfirst.symm.trans hfirst'
      exact .inl rfl
  | asked => cases h' with
    | asked => exact .inl rfl
    | round hcondition _ => exact .inr (.inl ⟨_, ⟨_, hcondition⟩, .refl⟩)
    | again hcondition _ hround =>
      exact .inr (.inl ⟨_, ⟨_, hcondition⟩, (ev.exec (ev.invoke _) _ _).ok hround⟩)
  | round hcondition _ => cases h' with
    | asked => exact .inr (.inr ⟨_, ⟨_, hcondition⟩, .refl⟩)
    | round hcondition' _ =>
      cases hcondition.symm.trans hcondition'
      exact .inl rfl
    | again hcondition' _ hround =>
      cases hcondition.symm.trans hcondition'
      exact .inr (.inl ⟨_, ⟨_, hround⟩, .refl⟩)
  | again hcondition _ hround => cases h' with
    | asked => exact .inr (.inr ⟨_, ⟨_, hcondition⟩, (ev.exec (ev.invoke _) _ _).ok hround⟩)
    | round hcondition' _ =>
      cases hcondition.symm.trans hcondition'
      exact .inr (.inr ⟨_, ⟨_, hround⟩, .refl⟩)
    | again hcondition' _ hround' =>
      cases hcondition.symm.trans hcondition'
      cases hround.symm.trans hround'
      exact .inl rfl
  | _ => cases h' with
    | _ => exact .inl rfl

/-- What comes up in a point is done before what the point is done before. -/
theorem Point.Before.inside (h : p.Before q) {p' q' : Point} (hp : p.Reaches p')
    (hq : q.Reaches q') : p'.Before q' := by
  obtain ⟨n, hdone, hbecomes⟩ := h
  obtain ⟨n', hdone', hbecomes'⟩ := hp.done hdone
  exact ⟨n', hdone', .trans hbecomes' (.trans hbecomes hq.becomes)⟩

/-- Of two points of a run one comes up in the course of the other, or is done before the
    other comes up. -/
theorem Point.Reaches.order (hp : root.Reaches p) (hq : root.Reaches q) :
    p.Reaches q ∨ q.Reaches p ∨ p.Before q ∨ q.Before p := by
  induction hp using Relation.ReflTransGen.head_induction_on with
  | refl => exact .inl hq
  | @head root first hstep hp ih =>
    rcases hq.cases_head with rfl | ⟨second, hstep', hq'⟩
    · exact .inr (.inl (.head hstep hp))
    · obtain rfl | hbefore | hbefore := hstep.order hstep'
      · exact ih hq'
      · exact .inr (.inr (.inl (hbefore.inside hp hq')))
      · exact .inr (.inr (.inr (hbefore.inside hq' hp)))

end Lox
