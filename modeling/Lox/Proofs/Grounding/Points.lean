/-
  Lox.Proofs.Grounding.Points

  Every store that comes up in a session is grounded.

    * `Point.Grounded` — a point with a grounded machine, at which a proper tree runs or
      grounded values are called; steps lead from such points to such points, and so do the
      machines on which they end;
    * `Session.Runs` — the points at which the trees of a text begin to run, however it is
      resolved;
    * `Session.Passes` — the machines that come up while a session works on a text, whatever
      becomes of it;
    * `Session.Passes.grounded` — all of them are grounded.
-/
import Lox.Proofs.Grounding.Running
import Lox.Proofs.Region.Whole
import Lox.Proofs.Scoping.Agreement
import Lox.Proofs.Scoping.Order

namespace Lox

open RunM

/-! ## Points -/

/-- Trees are as the grammar has them, and values are grounded. -/
def Task.Grounded (s : Store) : Task → Prop
  | .expr e => e.Proper
  | .exprs es => Expr.ListProper es
  | .stmt s => s.Proper
  | .stmts ss => Stmt.ListProper ss
  | .rounds condition body _ => condition.Proper ∧ body.Proper
  | .call f vs => f.Grounded s ∧ ∀ v ∈ vs, v.Grounded s
  | .look _ => True

structure Point.Grounded (p : Point) : Prop where
  machine : p.machine.Grounded
  task : p.task.Grounded p.machine.store

namespace Point.Grounded

variable {p q : Point} {n : Machine}

/-- A part of a task that comes up where the parts before it led. -/
theorem behind {α : Type} {x : RunM α} {m m' : Machine} {Q : α → Store → Prop} {a : α}
    (hx : Grounds x m Q) (hm : m.Grounded) (hrun : x m = .ok a m') {k : Nat} {task : Task}
    (htask : Q a m'.store → task.Grounded m'.store) :
    Point.Grounded ⟨k, task, m'⟩ ∧ m.store.Goes m'.store := by
  obtain ⟨hgoes, ha⟩ := hx.ok hrun
  exact ⟨⟨hgoes.grounded hm, htask ha⟩, hgoes.store⟩

/-- What comes up in the course of a grounded point is grounded, and its store comes by
    moves. -/
theorem step (hp : p.Grounded) (h : p.Step q) :
    q.Grounded ∧ p.machine.store.Goes q.machine.store := by
  obtain ⟨hm, htask⟩ := hp
  have hcall := invoke_grounds
  -- A part comes up where the point did, behind parts that have run, or in a new frame.
  cases h with
  | operand => exact ⟨⟨hm, htask.2⟩, .refl⟩
  | left => exact ⟨⟨hm, htask.2.1⟩, .refl⟩
  | right hrun => exact behind (Expr.grounds (hcall _) _ htask.2.1 hm) hm hrun fun _ => htask.2.2
  | first => exact ⟨⟨hm, htask.1⟩, .refl⟩
  | second hrun _ => exact behind (Expr.grounds (hcall _) _ htask.1 hm) hm hrun fun _ => htask.2
  | assigned => exact ⟨⟨hm, htask.2⟩, .refl⟩
  | target hrun => exact behind (Expr.grounds (hcall _) _ htask.2 hm) hm hrun fun _ => trivial
  | callee => exact ⟨⟨hm, htask.1⟩, .refl⟩
  | arguments hrun => exact behind (Expr.grounds (hcall _) _ htask.1 hm) hm hrun fun _ => htask.2
  | called hrun hrun' =>
    obtain ⟨hgoes, hf⟩ := (Expr.grounds (hcall _) _ htask.1 hm).ok hrun
    have hm' := hgoes.grounded hm
    obtain ⟨hgoes', hvs⟩ := (Expr.listGrounds (hcall _) _ htask.2 hm').ok hrun'
    exact ⟨⟨hgoes'.grounded hm', hf.onward hgoes'.store.onward, hvs⟩,
      hgoes.store.trans hgoes'.store⟩
  | holder => exact ⟨⟨hm, htask.1⟩, .refl⟩
  | stored hrun => exact behind (Expr.grounds (hcall _) _ htask.1 hm) hm hrun fun _ => htask.2
  | name | this | super | superclass => exact ⟨⟨hm, trivial⟩, .refl⟩
  | head => exact ⟨⟨hm, htask.1⟩, .refl⟩
  | tail hrun => exact behind (Expr.grounds (hcall _) _ htask.1 hm) hm hrun fun _ => htask.2
  | function _ _ =>
    obtain ⟨hclosure, hvs⟩ := htask
    have hclosure : Closure.Grounded _ _ := hclosure
    exact ⟨⟨hm.enter hclosure hvs, hclosure.proper.body⟩, .single (hclosure.opens hvs)⟩
  | @initializer k m cls init closure m' vs hinit hreceive _ _ =>
    -- Three moves: the instance, the frame with `this`, and the frame of the call.
    obtain ⟨hcls, hvs⟩ := htask
    have hcls : cls.Grounded m.store := hcls
    have hborn : m.store.Goes (m.store.newInstance cls).2 := .single (.born hcls)
    have hmethod := (hcls.method hinit).onward hborn.onward
    have hbound : (m.store.newInstance cls).2.Goes
        ((m.store.newInstance cls).2.bindMethod init m.store.instances.size).2 :=
      .single (.received hmethod (m.store.size_lt_newInstance cls))
    cases hreceive
    have hgoes : m.Goes (m.receive cls init).2 := ⟨rfl, hborn.trans hbound⟩
    have hm' := hgoes.grounded hm
    have hclosure : (m.receive cls init).1.Grounded (m.receive cls init).2.store :=
      ⟨Store.size_lt_newFrame _ _, hmethod.proper⟩
    have hvs' : ∀ v ∈ vs, v.Grounded (m.receive cls init).2.store := fun v hv =>
      (hvs v hv).onward hgoes.store.onward
    exact ⟨⟨hm'.enter hclosure hvs', hclosure.proper.body⟩, hgoes.store.tail (hclosure.opens hvs')⟩
  | var => exact ⟨⟨hm, htask.2⟩, .refl⟩
  | @block k m body =>
    have hmoves := hm.moves_inBlock
    exact ⟨⟨⟨hmoves.grounded hm.store, m.store.size_lt_newFrame _⟩, htask⟩, .single hmoves⟩
  | @condition _ _ _ _ no => cases no <;> exact ⟨⟨hm, htask.1⟩, .refl⟩
  | @yes _ _ condition yes no _ _ hrun _ =>
    have hparts : condition.Proper ∧ yes.Proper := by
      cases no <;> exact ⟨htask.1, htask.2.1⟩
    exact behind (Expr.grounds (hcall _) _ hparts.1 hm) hm hrun fun _ => hparts.2
  | no hrun _ => exact behind (Expr.grounds (hcall _) _ htask.1 hm) hm hrun fun _ => htask.2.2.2.1
  | loop => exact ⟨⟨hm, htask.1, htask.2.1⟩, .refl⟩
  | statement => exact ⟨⟨hm, htask.1⟩, .refl⟩
  | statements hrun => exact behind (Stmt.grounds (hcall _) _ _ htask.1 hm) hm hrun fun _ => htask.2
  | asked => exact ⟨⟨hm, htask.1⟩, .refl⟩
  | round hrun _ => exact behind (Expr.grounds (hcall _) _ htask.1 hm) hm hrun fun _ => htask.2
  | again hrun _ hrun' =>
    obtain ⟨hgoes, -⟩ := (Expr.grounds (hcall _) _ htask.1 hm).ok hrun
    have hm' := hgoes.grounded hm
    obtain ⟨hgoes', -⟩ := (Stmt.grounds (hcall _) _ _ htask.2 hm').ok hrun'
    exact ⟨⟨hgoes'.grounded hm', htask⟩, hgoes.store.trans hgoes'.store⟩
  | _ => exact ⟨⟨hm, htask⟩, .refl⟩

theorem reaches (hp : p.Grounded) (h : p.Reaches q) :
    q.Grounded ∧ p.machine.store.Goes q.machine.store := by
  induction h with
  | refl => exact ⟨hp, .refl⟩
  | tail _ hstep ih =>
    obtain ⟨hq, hgoes⟩ := ih.1.step hstep
    exact ⟨hq, ih.2.trans hgoes⟩

/-- However a grounded point ends, it has made nothing but moves. -/
theorem leaves (hp : p.Grounded) (h : p.Leaves n) : p.machine.Goes n := by
  obtain ⟨k, task, m⟩ := p
  obtain ⟨hm, htask⟩ := hp
  have hcall := invoke_grounds k
  cases task with
  | expr e =>
    rw [show n = _ from h]
    exact (e.grounds hcall htask hm).1
  | exprs es =>
    rw [show n = _ from h]
    exact (Expr.listGrounds hcall es htask hm).1
  | stmt s =>
    rw [show n = _ from h]
    exact (s.grounds hcall k htask hm).1
  | stmts ss =>
    rw [show n = _ from h]
    exact (Stmt.listGrounds hcall k ss htask hm).1
  | rounds condition body left =>
    rw [show n = _ from h]
    refine (grounds_whileLoop (fun hm => ?_) (fun hm => body.grounds hcall k htask.2 hm) left hm).1
    exact (condition.grounds hcall htask.1 hm).bind hm fun _ _ _ _ _ => .pure trivial
  | call f vs =>
    obtain ⟨paren, rfl⟩ := h
    exact (hcall f paren vs m hm htask.1 htask.2).1
  | look use =>
    rw [show n = m from h]
    exact .refl m

end Point.Grounded

/-! ## Sessions -/

theorem Stmt.ListProper.mem {ss : List Stmt} (h : Stmt.ListProper ss) : ∀ s ∈ ss, s.Proper := by
  induction ss with
  | nil => nofun
  | cons s ss ih =>
    intro s' hs'
    rcases List.mem_cons.mp hs' with rfl | hmem
    · exact h.1
    · exact ih h.2 s' hmem

namespace Session

/-- A text gets through scanning, parsing and resolving, with its tree and the table that it
    adds.  It may be resolved or not, and its distances may be shifted. -/
structure Takes {α : Type} (s : Session) (input : SessionInput)
    (parse : List Token → Nat → Parser.Parsed α) (resolve : α → Except (List Diagnostic) Table)
    (tree : α) (table : Table) : Prop where
  scanned : faultsOf (scan input.source) = []
  parsed : (parse (tokensOf (scan input.source)) s.nextId).result = .ok tree
  resolved : tableOf input (resolve tree) = .ok table

/-- The points at which the trees of a text begin to run: a program, each statement of one
    behind those before it, or an expression. -/
inductive Runs (fuel : Nat) (input : SessionInput) (s : Session) : Point → Prop
  | interpret {program : List Stmt} {table : Table} : input.mode = .interpret →
      s.Takes input parseProgram resolveProgram program table →
      Runs fuel input s ⟨fuel, .stmts program, (addTable table).after s.machine⟩
  | execute {done rest : List Stmt} {statement : Stmt} {table : Table} {ends m} :
      input.mode = .execute →
      s.Takes input parseProgram resolveProgram (done ++ statement :: rest) table →
      executeEach fuel done ((addTable table).after s.machine) = .ok ends m →
      Runs fuel input s ⟨fuel, .stmt statement, m⟩
  | evaluate {e : Expr} {table : Table} : input.mode = .evaluate →
      s.Takes input parseExpression resolveExpression e table →
      Runs fuel input s ⟨fuel, .expr e, (addTable table).after s.machine⟩

/-- The machines that come up while a text is worked on: before and after it, and at each
    point of the run of its trees, where the work there begins and where it ends, well or
    not. -/
inductive Passes (fuel : Nat) (input : SessionInput) (s : Session) : Machine → Prop
  | before : Passes fuel input s s.machine
  | point {root p : Point} : s.Runs fuel input root → root.Reaches p →
      Passes fuel input s p.machine
  | ended {root p : Point} {n : Machine} : s.Runs fuel input root → root.Reaches p →
      p.Leaves n → Passes fuel input s n
  | after : Passes fuel input s (s.step fuel input).2.machine

variable {s : Session} {fuel : Nat} {input : SessionInput} {m : Machine}

/-- Statements that are executed each by itself make moves. -/
theorem goes_executeEach {ss : List Stmt} (hss : ∀ st ∈ ss, st.Proper) (hm : m.Grounded) :
    m.Goes ((executeEach fuel ss).after m) := by
  induction ss generalizing m with
  | nil => exact .refl m
  | cons st ss ih =>
    have hfirst : m.Goes ((execute fuel st).after m) :=
      (st.grounds (invoke_grounds fuel) fuel (hss st List.mem_cons_self) hm).1
    rcases after_executeEach_cons fuel st ss m with heq | heq
    · rw [heq]
      exact hfirst.trans (ih (fun st hst => hss st (List.mem_cons_of_mem _ hst))
        (hfirst.grounded hm))
    · rw [heq]
      exact hfirst

/-- A new table leaves the store as it is. -/
theorem goes_addTable (table : Table) (m : Machine) : m.Goes ((addTable table).after m) :=
  ⟨rfl, .refl⟩

/-- The trees of a text begin to run at grounded points. -/
theorem Runs.grounded {root : Point} (h : s.Runs fuel input root) (hm : s.machine.Grounded) :
    root.Grounded ∧ s.machine.store.Goes root.machine.store := by
  have hadded (table : Table) := (goes_addTable table s.machine).grounded hm
  cases h with
  | interpret _ htakes => exact ⟨⟨hadded _, (parseProgram_fresh htakes.parsed).1⟩, .refl⟩
  | @execute done rest statement table ends m _ htakes hdone =>
    have hall := (parseProgram_fresh htakes.parsed).1.mem
    have hgoes : Machine.Goes _
        ((executeEach fuel done).after ((addTable table).after s.machine)) :=
      goes_executeEach (fun st hst => hall st (List.mem_append_left _ hst)) (hadded table)
    rw [after_of_ok hdone] at hgoes
    exact ⟨⟨hgoes.grounded (hadded table),
      hall _ (List.mem_append_right _ List.mem_cons_self)⟩, hgoes.store⟩
  | evaluate _ htakes => exact ⟨⟨hadded _, (parseExpression_fresh htakes.parsed).1⟩, .refl⟩

/-- What a text leaves comes by moves. -/
theorem goes_step (fuel : Nat) (input : SessionInput) (hm : s.machine.Grounded) :
    s.machine.Goes (s.step fuel input).2.machine := by
  have hleft := step_leaves fuel input s
  have hadded (table : Table) := (goes_addTable table s.machine).grounded hm
  generalize (s.step fuel input).2.machine = left at hleft
  cases hleft with
  | nothing => exact .refl _
  | @interpret program table _ hparsed _ =>
    have hprogram := Stmt.listGrounds (invoke_grounds fuel) fuel program
      (parseProgram_fresh hparsed).1 (hadded table)
    have hrun : Grounds (Stmt.listExec (invoke fuel) fuel program >>= fun _ => pure ()) _
        fun _ _ => True := hprogram.bind (hadded table) fun _ _ _ _ _ => .pure trivial
    exact (goes_addTable _ _).trans hrun.1
  | execute _ hparsed _ =>
    exact (goes_addTable _ _).trans
      (goes_executeEach (parseProgram_fresh hparsed).1.mem (hadded _))
  | evaluate _ hparsed _ =>
    exact (goes_addTable _ _).trans
      (Expr.grounds (invoke_grounds fuel) _ (parseExpression_fresh hparsed).1 (hadded _)).1

/-- Every machine that comes up is grounded, and its store comes by moves. -/
theorem Passes.grounded (h : s.Passes fuel input m) (hm : s.machine.Grounded) :
    m.Grounded ∧ s.machine.store.Goes m.store := by
  cases h with
  | before => exact ⟨hm, .refl⟩
  | point hroot hreached =>
    obtain ⟨hgrounded, hgoes⟩ := hroot.grounded hm
    obtain ⟨hp, hgoes'⟩ := hgrounded.reaches hreached
    exact ⟨hp.machine, hgoes.trans hgoes'⟩
  | ended hroot hreached hleaves =>
    obtain ⟨hgrounded, hgoes⟩ := hroot.grounded hm
    obtain ⟨hp, hgoes'⟩ := hgrounded.reaches hreached
    have hend := hp.leaves hleaves
    exact ⟨hend.grounded hp.machine, (hgoes.trans hgoes').trans hend.store⟩
  | after =>
    have hgoes := goes_step fuel input hm
    exact ⟨hgoes.grounded hm, hgoes.store⟩

/-- So in every session, whatever its texts are. -/
theorem Reached.grounded (h : s.Reached) : s.machine.Grounded := by
  induction h with
  | start out clock => exact Machine.grounded_start out clock
  | step fuel input _ ih => exact (goes_step fuel input ih).grounded ih

end Session

end Lox
