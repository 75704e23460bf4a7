/-
  Lox.Proofs.Occurrences.Running

  The trees that run in a session have occurrences with numbers of their own.

    * `Code.distinct` — functions whose occurrences have numbers of their own;
    * `Session.Reached.distinct` — all functions that a session made are such;
    * `Point.Distinct` — the same of what is done at a point; steps keep it;
    * `Session.Begins.distinct` — so wherever the work on a text begins, what it comes to
      has no number twice.
-/
import Lox.Proofs.Flow.Containment
import Lox.Proofs.Pieces
import Lox.Proofs.Scoping.Writes

namespace Lox

/-- No two of the uses have the same number. -/
def Use.Distinct (uses : List Use) : Prop := (uses.map (·.occurrence.id)).Nodup

theorem Use.Distinct.sublist {us vs : List Use} (h : Use.Distinct vs) (hsub : us.Sublist vs) :
    Use.Distinct us :=
  List.Nodup.sublist (hsub.map _) h

/-! ## Functions -/

/-- Functions whose occurrences have numbers of their own. -/
def Code.distinct : Code := ⟨fun d => Use.Distinct d.uses, fun _ => True, True⟩

theorem FunctionDecl.uses_sublist {d : FunctionDecl} {ds : List FunctionDecl} (h : d ∈ ds) :
    d.uses.Sublist (FunctionDecl.listUses ds) := by
  induction h with
  | head => exact List.sublist_append_left _ _
  | tail _ _ ih => exact ih.trans (List.sublist_append_right _ _)

mutual

theorem Stmt.within_distinct (s : Stmt) (h : Use.Distinct s.uses) : s.Within .distinct := by
  match s with
  | .block body => exact Stmt.listWithin_distinct body h
  | .ifElse condition yes none =>
    exact ⟨fun _ _ => trivial,
      Stmt.within_distinct yes (h.sublist (List.sublist_append_right _ _))⟩
  | .ifElse condition yes (some no) =>
    have hfront : Use.Distinct (condition.uses ++ yes.uses) :=
      h.sublist (List.sublist_append_left _ _)
    exact ⟨fun _ _ => trivial,
      Stmt.within_distinct yes (hfront.sublist (List.sublist_append_right _ _)),
      Stmt.within_distinct no (h.sublist (List.sublist_append_right _ _))⟩
  | .while condition body =>
    exact ⟨trivial, fun _ _ => trivial,
      Stmt.within_distinct body (h.sublist (List.sublist_append_right _ _))⟩
  | .function decl => exact h
  | .class _ superclass methods =>
    have hmethods : Use.Distinct (FunctionDecl.listUses methods) :=
      h.sublist (List.sublist_append_right _ _)
    exact ⟨fun _ _ => trivial, fun d hd => hmethods.sublist (FunctionDecl.uses_sublist hd)⟩
  | .break _ => trivial
  | .expression _ | .print _ | .var _ _ | .return _ _ => exact fun _ _ => trivial

theorem Stmt.listWithin_distinct (ss : List Stmt) (h : Use.Distinct (Stmt.listUses ss)) :
    Stmt.ListWithin .distinct ss := by
  match ss with
  | [] => trivial
  | s :: ss =>
    exact ⟨Stmt.within_distinct s (h.sublist (List.sublist_append_left _ _)),
      Stmt.listWithin_distinct ss (h.sublist (List.sublist_append_right _ _))⟩

end

theorem Code.closed_distinct : Code.distinct.Closed := by
  intro d h
  cases d
  exact Stmt.listWithin_distinct _ h

/-- In every function that a session made, occurrences have numbers of their own. -/
theorem Session.Reached.distinct {s : Session} (h : s.Reached) :
    s.machine.store.Of .distinct := by
  induction h with
  | start out clock => exact Store.of_start _ out clock
  | step fuel input _ ih =>
    refine Session.of_step Code.closed_distinct ih fuel ⟨fun program hparsed _ => ?_, ?_⟩
    · exact Stmt.listWithin_distinct _ (parseProgram_fresh hparsed).2.distinct
    · exact fun _ _ _ _ _ => trivial

/-! ## Points -/

/-- What is done, and every function in the store, has occurrences with numbers of their
    own. -/
structure Point.Distinct (p : Point) : Prop where
  store : p.Of .distinct
  task : Use.Distinct p.task.uses

namespace Point.Distinct

variable {p q : Point}

theorem step (hp : p.Distinct) (h : p.Step q) : q.Distinct := by
  refine ⟨hp.store.step Code.closed_distinct h, ?_⟩
  by_cases hcall : ∃ f vs, p.task = .call f vs
  · -- A body that is called is that of a function in the store.
    obtain ⟨f, vs, hcall⟩ := hcall
    obtain ⟨⟨⟨_, _, body⟩, _⟩, htask, hdecl⟩ := hp.store.body Code.closed_distinct hcall h
    rw [htask]
    exact hdecl
  · exact hp.task.sublist (h.uses_sublist fun f vs hf => hcall ⟨f, vs, hf⟩)

theorem reaches (hp : p.Distinct) (h : p.Reaches q) : q.Distinct := by
  induction h with
  | refl => exact hp
  | tail _ hstep ih => exact ih.step hstep

end Point.Distinct

/-- Wherever the work on a text begins, its tree has occurrences with numbers of their own. -/
theorem Session.Begins.distinct {s : Session} (hs : s.Reached) {fuel : Nat} {source : String}
    {mode : SessionMode} {p : Point} (hp : s.Begins fuel source mode p) : p.Distinct := by
  have hstore := hs.distinct
  cases hp with
  | interpret haccepts =>
    have hdistinct := (parseProgram_fresh haccepts.parsed).2.distinct
    exact ⟨⟨hstore, Stmt.listWithin_distinct _ hdistinct⟩, hdistinct⟩
  | @execute done rest statement A ends m haccepts hdone =>
    have hdistinct : Use.Distinct (Stmt.listUses (done ++ statement :: rest)) :=
      (parseProgram_fresh haccepts.parsed).2.distinct
    rw [Stmt.listUses_append] at hdistinct
    have hprogram := hdistinct.sublist (List.sublist_append_left _ _)
    have hstatement : Use.Distinct statement.uses :=
      (hdistinct.sublist (List.sublist_append_right _ _)).sublist (List.sublist_append_left _ _)
    have hm : ((Session.executeEach fuel done).after (s.withTable A)).store.Of .distinct :=
      of_executeEach (m := s.withTable A) Code.closed_distinct hstore fuel
        (Stmt.listWithin_distinct done hprogram)
    rw [RunM.after_of_ok hdone] at hm
    exact ⟨⟨hm, statement.within_distinct hstatement⟩, hstatement⟩
  | evaluate haccepts =>
    exact ⟨⟨hstore, fun _ _ => trivial⟩, (parseExpression_fresh haccepts.parsed).2.distinct⟩

end Lox
