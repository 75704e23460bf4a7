/-
  Lox.Proofs.Region.Points

  The points of a run whose functions are all of one kind.

    * `Point.Of` — the task at a point, and all functions in the store, belong to a
      code;
    * `Point.Of.step`, `Point.Of.reaches` — then this holds of whatever comes up;
    * `Point.Of.body` — so every body that is called belongs to the code.
-/
import Lox.Proofs.Region.Whole
import Lox.Proofs.Scoping.Points

namespace Lox

open RunM

variable {C : Code} {m m' : Machine}

/-! ## Parts of a task -/

section

variable (hC : C.Closed) (hm : m.store.Of C) {k : Nat}
include hC hm

omit hm in
/-- What an action that keeps to the code leaves behind. -/
theorem of_alike {α : Type} {p : RunM α} {Q : α → Prop}
    (h : RunM.Alike (.whole C hC) p p m m Q) {a : α} (hrun : p m = .ok a m') :
    m'.store.Of C ∧ Q a := by
  obtain ⟨_, _, hn, ha⟩ := h.ok hrun
  exact ⟨hn.alike.store.of, ha⟩

theorem of_eval {e : Expr} (he : C.Uses e.uses) {v : Value}
    (hrun : e.eval (invoke k) m = .ok v m') :
    m'.store.Of C ∧ v.Of C := by
  have hcall := invoke_alike (G := .whole C hC) (d := m.depth) (Nat.le_refl k) (.inl trivial)
  obtain ⟨hm', hv⟩ :=
    of_alike hC (Expr.alike hcall e he (Machine.together_whole hC hm)) hrun
  exact ⟨hm', Value.within_ofCode_iff.mp hv⟩

theorem of_listEval {es : List Expr} (hes : C.Uses (Expr.listUses es)) {vs : List Value}
    (hrun : Expr.listEval (invoke k) es m = .ok vs m') :
    m'.store.Of C ∧ ∀ v ∈ vs, v.Of C := by
  have hcall := invoke_alike (G := .whole C hC) (d := m.depth) (Nat.le_refl k) (.inl trivial)
  obtain ⟨hm', hvs⟩ :=
    of_alike hC (Expr.listAlike hcall es hes (Machine.together_whole hC hm)) hrun
  exact ⟨hm', fun v hv => Value.within_ofCode_iff.mp (hvs v hv)⟩

theorem of_exec {s : Stmt} (hs : s.Within C) {flow : Flow}
    (hrun : s.exec (invoke k) k m = .ok flow m') : m'.store.Of C := by
  have hafter : ((s.exec (invoke k) k).after m).store.Of C := of_execute hC hm k hs
  rw [after_of_ok hrun] at hafter
  exact hafter

omit hm in
/-- A new frame of values of the code. -/
theorem Store.Of.addFrame {s : Store} (hs : s.Of C) {vars : Bindings Value}
    (hvars : ∀ name v, vars.get? name = some v → v.Of C) (parent : Option FrameId) :
    (s.newFrame ⟨vars, parent⟩).2.Of C := by
  have hframe : Frame.Within (.whole C hC) ⟨vars, parent⟩ :=
    ⟨fun _ _ => trivial, fun name v hv => Value.within_ofCode_iff.mpr (hvars name v hv)⟩
  exact (Store.Within.addFrame hs.within hframe).of

theorem of_enter (closure : Closure) {vs : List Value} (hvs : ∀ v ∈ vs, v.Of C) :
    (m.enter closure vs).store.Of C :=
  hm.addFrame hC (fun _ v hv => hvs v (parameterVars_get? hv).2) _

theorem of_receive {cls : Class} (hcls : Value.Of C (.class cls)) {init closure : Closure}
    (hinit : cls.findMethod "init" = some init) (hreceive : m.receive cls init = (closure, m')) :
    m'.store.Of C ∧ C.decl closure.decl := by
  have hborn : (m.store.newInstance cls).2.Of C :=
    (Store.Within.addInstance (G := .whole C hC) hm.within
      (Value.within_ofCode_iff.mpr hcls)).of
  cases hreceive
  refine ⟨hborn.addFrame hC (fun name v hv => ?_) _, hcls "init" init hinit⟩
  simp only [Bindings.single, Bindings.get?, Bindings.find?] at hv
  split at hv
  · cases hv
    trivial
  · cases hv

end

/-! ## Points -/

/-- What is to be done belongs to the code. -/
def Task.Of (C : Code) : Task → Prop
  | .expr e => C.Uses e.uses
  | .exprs es => C.Uses (Expr.listUses es)
  | .stmt s => s.Within C
  | .stmts ss => Stmt.ListWithin C ss
  | .rounds condition body _ => C.Uses condition.uses ∧ body.Within C
  | .call f vs => f.Of C ∧ ∀ v ∈ vs, v.Of C
  | .look use => C.use use.occurrence.id

/-- The task and all functions in the store belong to the code. -/
structure Point.Of (C : Code) (p : Point) : Prop where
  store : p.machine.store.Of C
  task : p.task.Of C

/-- What comes up in a task of the code belongs to the code. -/
theorem Point.Of.step (hC : C.Closed) {p q : Point} (hp : p.Of C) (h : p.Step q) : q.Of C := by
  obtain ⟨hm, htask⟩ := hp
  cases h with
  | grouping | operand | object | expression | print | var | «return» => exact ⟨hm, htask⟩
  | left | first | callee | head => exact ⟨hm, Code.Uses.left htask⟩
  | holder => exact ⟨hm, Code.Uses.left htask⟩
  | right hrun => exact ⟨(of_eval hC hm (Code.Uses.left htask) hrun).1, Code.Uses.right htask⟩
  | second hrun _ => exact ⟨(of_eval hC hm (Code.Uses.left htask) hrun).1, Code.Uses.right htask⟩
  | arguments hrun => exact ⟨(of_eval hC hm (Code.Uses.left htask) hrun).1, Code.Uses.right htask⟩
  | stored hrun => exact ⟨(of_eval hC hm (Code.Uses.left htask) hrun).1, Code.Uses.right htask⟩
  | tail hrun => exact ⟨(of_eval hC hm (Code.Uses.left htask) hrun).1, Code.Uses.right htask⟩
  | name | this | super => exact ⟨hm, htask _ List.mem_cons_self⟩
  | assigned => exact ⟨hm, fun use huse => htask use (List.mem_cons_of_mem _ huse)⟩
  | target hrun =>
    have hvalue := of_eval hC hm (fun use huse => htask use (List.mem_cons_of_mem _ huse)) hrun
    exact ⟨hvalue.1, htask _ List.mem_cons_self⟩
  | called hrun hrun' =>
    obtain ⟨hm', hf⟩ := of_eval hC hm (Code.Uses.left htask) hrun
    obtain ⟨hm'', hvs⟩ := of_listEval hC hm' (Code.Uses.right htask) hrun'
    exact ⟨hm'', hf, hvs⟩
  | function _ _ => exact ⟨of_enter hC hm _ htask.2, hC _ htask.1⟩
  | initializer hinit hreceive _ _ =>
    obtain ⟨hm', hclosure⟩ := of_receive hC hm htask.1 hinit hreceive
    exact ⟨of_enter hC hm' _ htask.2, hC _ hclosure⟩
  | block => exact ⟨hm.addFrame hC (fun _ _ hv => by cases hv) _, htask⟩
  | @condition _ _ _ _ no => cases no <;> exact ⟨hm, htask.1⟩
  | @yes _ _ condition yes no _ _ hrun _ =>
    have hparts : C.Uses condition.uses ∧ yes.Within C := by
      cases no with
      | none => exact htask
      | some no => exact ⟨htask.1, htask.2.1⟩
    exact ⟨(of_eval hC hm hparts.1 hrun).1, hparts.2⟩
  | no hrun _ => exact ⟨(of_eval hC hm htask.1 hrun).1, htask.2.2⟩
  | loop => exact ⟨hm, htask.2⟩
  | superclass => exact ⟨hm, htask.1 _ List.mem_cons_self⟩
  | statement => exact ⟨hm, htask.1⟩
  | statements hrun => exact ⟨of_exec hC hm htask.1 hrun, htask.2⟩
  | asked => exact ⟨hm, htask.1⟩
  | round hrun _ => exact ⟨(of_eval hC hm htask.1 hrun).1, htask.2⟩
  | again hrun _ hrun' =>
    exact ⟨of_exec hC (of_eval hC hm htask.1 hrun).1 htask.2 hrun', htask⟩

/-- A body that is called belongs to the code. -/
theorem Point.Of.body (hC : C.Closed) {p q : Point} (hp : p.Of C) {f : Value} {vs : List Value}
    (htask : p.task = .call f vs) (h : p.Step q) :
    ∃ closure : Closure, q.task = .stmts closure.decl.body ∧ C.decl closure.decl := by
  obtain ⟨hm, hcall⟩ := hp
  cases h with
  | function _ _ => exact ⟨_, rfl, hcall.1⟩
  | initializer hinit hreceive _ _ =>
    exact ⟨_, rfl, (of_receive hC hm hcall.1 hinit hreceive).2⟩
  | _ => cases htask

theorem Point.Of.reaches (hC : C.Closed) {p q : Point} (hp : p.Of C) (h : p.Reaches q) :
    q.Of C := by
  induction h with
  | refl => exact hp
  | tail _ hstep ih => exact ih.step hC hstep

end Lox
