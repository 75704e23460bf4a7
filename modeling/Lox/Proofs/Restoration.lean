/-
  Lox.Proofs.Restoration

  However a statement, an expression or a program ends, the machine is afterwards
  at the place where it was before.

    * `Machine.Restored` — the current frame, the depth of calls and the table are
      the same, and every frame is still there with the same frame around it, so
      that a frame number means the same frame before and after;
    * `Machine.Driven` — the machines that whole operations lead to, in any order
      and whether the operations failed or not.

  `evolution_restored` is the step: no single change leaves `Restored`.
-/
import Lox.Proofs.Sessions

namespace Lox

open RunM

/-! ## Frames stay -/

/-- Every frame of the first store is in the second one, inside the same frame. -/
def Store.KeepsLinks (s t : Store) : Prop :=
  ∀ (f : FrameId) (frame : Frame), s.frames[f]? = some frame →
    ∃ now : Frame, t.frames[f]? = some now ∧ now.parent = frame.parent

namespace Store

theorem KeepsLinks.refl (s : Store) : s.KeepsLinks s := fun _ frame hf => ⟨frame, hf, rfl⟩

theorem KeepsLinks.trans {s t u : Store} (hst : s.KeepsLinks t) (htu : t.KeepsLinks u) :
    s.KeepsLinks u := by
  intro f frame hf
  obtain ⟨now, hnow, hparent⟩ := hst f frame hf
  obtain ⟨later, hlater, hparent'⟩ := htu f now hnow
  exact ⟨later, hlater, hparent'.trans hparent⟩

theorem keepsLinks_define (s : Store) (g : FrameId) (name : String) (value : Value) :
    s.KeepsLinks (s.define g name value) := by
  intro f frame hf
  by_cases hg : g = f
  · exact ⟨{ frame with vars := frame.vars.insert name value },
      by simp [define, Array.getElem?_modify, hg, hf], rfl⟩
  · exact ⟨frame, by simp [define, Array.getElem?_modify, hg, hf], rfl⟩

theorem keepsLinks_newFrame (s : Store) (added : Frame) :
    s.KeepsLinks (s.newFrame added).2 := by
  intro f frame hf
  obtain ⟨hlt, -⟩ := Array.getElem?_eq_some_iff.mp hf
  exact ⟨frame, by simp [newFrame, Array.getElem?_push, Nat.ne_of_lt hlt, hf], rfl⟩

end Store

/-! ## Restored machines -/

/-- The second machine is at the place where the first one is. -/
structure Machine.Restored (m n : Machine) : Prop where
  env : n.env = m.env
  depth : n.depth = m.depth
  table : n.table = m.table
  links : m.store.KeepsLinks n.store

/-- No single change of the machine moves it. -/
theorem evolution_restored : Evolution Machine.Restored where
  refl _ := ⟨rfl, rfl, rfl, .refl _⟩
  trans hab hbc := ⟨hbc.env.trans hab.env, hbc.depth.trans hab.depth,
    hbc.table.trans hab.table, hab.links.trans hbc.links⟩
  bound m f name value := ⟨rfl, rfl, rfl, m.store.keepsLinks_define f name value⟩
  framed m frame := ⟨rfl, rfl, rfl, m.store.keepsLinks_newFrame frame⟩
  born _ _ := ⟨rfl, rfl, rfl, .refl _⟩
  fielded _ _ _ _ := ⟨rfl, rfl, rfl, .refl _⟩
  stamped _ := ⟨rfl, rfl, rfl, .refl _⟩
  printed _ _ := ⟨rfl, rfl, rfl, .refl _⟩
  ticked _ := ⟨rfl, rfl, rfl, .refl _⟩
  -- The action inside ends in its own frame; the frame around it is put back.
  inFrame _ _ _ h := ⟨rfl, h.depth, h.table, h.links⟩
  -- The action inside ends one call deeper than here; lowering the depth leads back.
  deeper _ _ h := ⟨h.env, Nat.sub_eq_of_eq_add h.depth, h.table, h.links⟩

/-! ## Driven machines -/

/-- The machines that operations on whole trees lead to from a new machine. -/
inductive Machine.Driven : Machine → Prop
  | start (out : Sink) (clock : Nat → Option Float) : Driven (.start out clock)
  | addTable {m : Machine} (table : Table) : m.Driven → Driven ((addTable table).after m)
  | interpret {m : Machine} (fuel : Nat) (program : List Stmt) :
      m.Driven → Driven ((interpret fuel program).after m)
  | execute {m : Machine} (fuel : Nat) (s : Stmt) : m.Driven → Driven ((execute fuel s).after m)
  | executeBlock {m : Machine} (fuel : Nat) (f : FrameId) (body : List Stmt) :
      m.Driven → Driven ((withFrame f (Stmt.listExec (invoke fuel) fuel body)).after m)
  | evaluate {m : Machine} (fuel : Nat) (e : Expr) : m.Driven → Driven ((evaluate fuel e).after m)

/-- A machine between two operations: in the global frame, inside no call. -/
def Machine.AtTop (m : Machine) : Prop := m.env = Store.globals ∧ m.depth = 0

theorem Machine.AtTop.restored {m n : Machine} (h : m.AtTop) (hmn : m.Restored n) : n.AtTop :=
  ⟨hmn.env.trans h.1, hmn.depth.trans h.2⟩

theorem Machine.Driven.atTop {m : Machine} (h : m.Driven) : m.AtTop := by
  have ev := evolution_restored
  induction h with
  | start out clock => exact ⟨rfl, rfl⟩
  | addTable table _ ih => exact ih
  | interpret fuel program _ ih => exact ih.restored (ev.interpret fuel program _)
  | execute fuel s _ ih => exact ih.restored (ev.exec (ev.invoke fuel) fuel s _)
  | executeBlock fuel f body _ ih =>
    exact ih.restored (ev.withFrame f (ev.listExec (ev.invoke fuel) fuel body) _)
  | evaluate fuel e _ ih => exact ih.restored (ev.eval (ev.invoke fuel) e _)

/-! ## Sessions -/

namespace Session

/-- What executing a statement by itself yields: a fault is a result. -/
theorem attempt_eq (fuel : Nat) (s : Stmt) (m : Machine) :
    attempt fuel s m =
    match execute fuel s m with
    | .ok flow n => .ok (.ok flow) n
    | .error (.error e) n => .ok (.error e) n
    | .error halt n => .error halt n := by
  show EStateM.tryCatch (EStateM.map Except.ok (execute fuel s)) _ m = _
  delta EStateM.tryCatch EStateM.map
  dsimp only
  cases execute fuel s m with
  | ok flow n => rfl
  | error halt n => cases halt <;> rfl

/-- After a statement of several, the others go on from where it left the machine,
    unless it was interrupted. -/
theorem after_executeEach_cons (fuel : Nat) (s : Stmt) (ss : List Stmt) (m : Machine) :
    (executeEach fuel (s :: ss)).after m
        = (executeEach fuel ss).after ((execute fuel s).after m) ∨
      (executeEach fuel (s :: ss)).after m = (execute fuel s).after m := by
  have goOn (ending : Except RuntimeError Flow) (n : Machine) :
      ((do return ending :: (← executeEach fuel ss)) : RunM _).after n
        = (executeEach fuel ss).after n :=
    after_bind_pure _ _ n
  have hattempt := attempt_eq fuel s m
  cases hrun : execute fuel s m with
  | ok flow n =>
    rw [hrun] at hattempt
    refine .inl ?_
    rw [after_of_ok hrun]
    exact (after_bind_of_ok hattempt).trans (goOn (.ok flow) n)
  | error halt n =>
    rw [after_of_error hrun]
    rw [hrun] at hattempt
    cases halt with
    | error e => exact .inl ((after_bind_of_ok hattempt).trans (goOn (.error e) n))
    | _ => exact .inr (after_bind_of_error hattempt)

/-- Statements that are executed one by one drive the machine, whatever becomes of
    each. -/
theorem driven_executeEach (fuel : Nat) (ss : List Stmt) {m : Machine} (h : m.Driven) :
    ((executeEach fuel ss).after m).Driven := by
  induction ss generalizing m with
  | nil => exact h
  | cons s ss ih =>
    have hs := h.execute fuel s
    rcases after_executeEach_cons fuel s ss m with heq | heq
    · rw [heq]
      exact ih hs
    · rw [heq]
      exact hs

/-- Nor do they leave a relation that no single change leaves. -/
theorem respects_executeEach {R : Machine → Machine → Prop} (ev : Evolution R) (fuel : Nat)
    (ss : List Stmt) : Respects R (executeEach fuel ss) := by
  intro m
  induction ss generalizing m with
  | nil => exact ev.refl m
  | cons s ss ih =>
    have hs : R m ((execute fuel s).after m) := ev.exec (ev.invoke fuel) fuel s m
    rcases after_executeEach_cons fuel s ss m with heq | heq
    · rw [heq]
      exact ev.trans hs (ih _)
    · rw [heq]
      exact hs

/-- A text of a session drives the machine, whatever its mode and its faults. -/
theorem driven_step (fuel : Nat) (input : SessionInput) {s : Session} (h : s.machine.Driven) :
    (s.step fuel input).2.machine.Driven := by
  have hleft := step_leaves fuel input s
  generalize (s.step fuel input).2.machine = left at hleft
  cases hleft with
  | nothing => exact h
  | @interpret program table => exact (h.addTable table).interpret fuel program
  | @execute program table => exact driven_executeEach fuel program (h.addTable table)
  | @evaluate e table => exact (h.addTable table).evaluate fuel e

/-- The session after several texts, each with a bound of its own. -/
def after (clock : Nat → Option Float) (inputs : List (Nat × SessionInput)) : Session :=
  inputs.foldl (fun s input => (s.step input.1 input.2).2) (start clock)

theorem driven_after (clock : Nat → Option Float) (inputs : List (Nat × SessionInput)) :
    (after clock inputs).machine.Driven := by
  have goOn (s : Session) (h : s.machine.Driven) :
      (inputs.foldl (fun s input => (s.step input.1 input.2).2) s).machine.Driven := by
    induction inputs generalizing s with
    | nil => exact h
    | cons input inputs ih => exact ih _ (driven_step input.1 input.2 h)
  exact goOn _ (.start _ clock)

end Session

/-! ## Main statement -/

/-- Frame, depth and table are the same after every statement, every list of
    statements in any frame, every expression and every program, from any machine and
    however they end.  So operations on whole trees and the texts of a session always
    start in the global frame and at depth 0, and so does each statement of a program
    when the ones before it are done. -/
theorem scope_and_depth_restored :
    (∀ (n bound : Nat) (s : Stmt) (m : Machine),
      m.Restored ((s.exec (invoke n) bound).after m)) ∧
    (∀ (n bound : Nat) (f : FrameId) (body : List Stmt) (m : Machine),
      m.Restored ((withFrame f (Stmt.listExec (invoke n) bound body)).after m)) ∧
    (∀ (n : Nat) (e : Expr) (m : Machine), m.Restored ((e.eval (invoke n)).after m)) ∧
    (∀ (n : Nat) (program : List Stmt) (m : Machine),
      m.Restored ((interpret n program).after m)) ∧
    (∀ m : Machine, m.Driven → m.AtTop ∧ ∀ (n bound : Nat) (done : List Stmt),
      ((Stmt.listExec (invoke n) bound done).after m).AtTop) ∧
    (∀ (clock : Nat → Option Float) (inputs : List (Nat × SessionInput)),
      (Session.after clock inputs).machine.AtTop) := by
  have ev := evolution_restored
  refine ⟨fun n bound s m => ?_, fun n bound f body m => ?_, fun n e m => ?_,
    fun n program m => ?_, fun m hm => ⟨hm.atTop, fun n bound done => ?_⟩,
    fun clock inputs => ?_⟩
  · exact ev.exec (ev.invoke n) bound s m
  · exact ev.withFrame f (ev.listExec (ev.invoke n) bound body) m
  · exact ev.eval (ev.invoke n) e m
  · exact ev.interpret n program m
  · exact hm.atTop.restored (ev.listExec (ev.invoke n) bound done m)
  · exact (Session.driven_after clock inputs).atTop

end Lox
