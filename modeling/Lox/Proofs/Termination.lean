/-
  Lox.Proofs.Termination

  Programs without loops come to an end.

    * `Stmt.LoopFree` — no loop anywhere in a statement, nor in a function in it;
    * `Session.LoopFree` — sessions all of whose programs are so: then no function in
      the store has a loop (`Session.LoopFree.of`);
    * `loop_free_finishes` — on such a session every program without loops, and every
      expression, ends by itself.

  What carries the proof is the depth of calls.  A call deeper than the greatest depth
  fails; so where the bound on calls exceeds the depth that is left, no run goes out of
  fuel, and more fuel makes no difference.
-/
import Lox.Mode
import Lox.Proofs.Region.Whole

namespace Lox

/-! ## Trees without loops -/

mutual

/-- There is no loop in a statement, also not in the functions in it. -/
def Stmt.LoopFree : Stmt → Prop
  | .block body => Stmt.ListLoopFree body
  | .ifElse _ yes none => yes.LoopFree
  | .ifElse _ yes (some no) => yes.LoopFree ∧ no.LoopFree
  | .while _ _ => False
  | .function decl => decl.LoopFree
  | .class _ _ methods => FunctionDecl.ListLoopFree methods
  | .expression _ => True
  | .print _ => True
  | .var _ _ => True
  | .break _ => True
  | .return _ _ => True

def Stmt.ListLoopFree : List Stmt → Prop
  | [] => True
  | s :: ss => s.LoopFree ∧ Stmt.ListLoopFree ss

def FunctionDecl.LoopFree : FunctionDecl → Prop
  | ⟨_, _, body⟩ => Stmt.ListLoopFree body

def FunctionDecl.ListLoopFree : List FunctionDecl → Prop
  | [] => True
  | d :: ds => d.LoopFree ∧ FunctionDecl.ListLoopFree ds

end

theorem FunctionDecl.ListLoopFree.loopFree {ds : List FunctionDecl}
    (h : FunctionDecl.ListLoopFree ds) : ∀ d ∈ ds, d.LoopFree := by
  induction ds with
  | nil => nofun
  | cons d ds ih => exact List.forall_mem_cons.mpr ⟨h.1, ih h.2⟩

/-- Functions without loops. -/
def Code.loopFree : Code := ⟨FunctionDecl.LoopFree, fun _ => True, False⟩

mutual

theorem Stmt.LoopFree.within {s : Stmt} (h : s.LoopFree) : s.Within .loopFree := by
  match s with
  | .block body => exact Stmt.ListLoopFree.within h
  | .ifElse _ yes none => exact ⟨fun _ _ => trivial, Stmt.LoopFree.within (s := yes) h⟩
  | .ifElse _ yes (some no) =>
    exact ⟨fun _ _ => trivial, Stmt.LoopFree.within (s := yes) h.1,
      Stmt.LoopFree.within (s := no) h.2⟩
  | .while _ _ => exact h.elim
  | .function decl => exact h
  | .class _ _ methods => exact ⟨fun _ _ => trivial, FunctionDecl.ListLoopFree.loopFree h⟩
  | .break _ => trivial
  | .expression _ | .print _ | .var _ _ | .return _ _ => exact fun _ _ => trivial

theorem Stmt.ListLoopFree.within {ss : List Stmt} (h : Stmt.ListLoopFree ss) :
    Stmt.ListWithin .loopFree ss := by
  match ss with
  | [] => trivial
  | s :: ss =>
    have hrest : Stmt.ListWithin .loopFree ss := Stmt.ListLoopFree.within h.2
    exact ⟨Stmt.LoopFree.within (s := s) h.1, hrest⟩

end

theorem Code.closed_loopFree : Code.loopFree.Closed := by
  rintro ⟨name, parameters, body⟩ (h : Stmt.ListLoopFree body)
  exact h.within

/-! ## Ends -/

/-- A run on the machine ended by itself: with a result or a runtime error, or because a
    sink with a limit refused a text or a clock without readings was read. -/
def Machine.EndsIn {α : Type} (m : Machine) : EStateM.Result Halt Machine α → Prop
  | .ok _ _ => True
  | .error (.error _) _ => True
  | .error .closed _ => m.out.limit ≠ none
  | .error .awaitingClock _ => ∃ tick, m.clock tick = none
  | .error .outOfFuel _ => False

/-- With any fuel beyond the greatest depth of calls the run ends by itself, and always
    in the same way. -/
def Machine.Finishes {α : Type} (m : Machine) (run : Nat → RunM α) : Prop :=
  ∃ outcome, m.EndsIn outcome ∧ ∀ fuel, maxDepth < fuel → run fuel m = outcome

/-- The ways in which a run without loops may stop on the machine. -/
def Machine.stops (m : Machine) : Halt → Prop
  | .error _ => True
  | .closed => m.out.limit ≠ none
  | .awaitingClock => ∃ tick, m.clock tick = none
  | .outOfFuel => False

/-- The whole store, with functions without loops, from which no run goes out of fuel. -/
def Machine.loopFreeRegion (m : Machine) : Region :=
  .ofCode .loopFree Code.closed_loopFree m.stops (fun _ => trivial) False.elim

section

variable {m : Machine} {α : Type}

theorem Machine.together_loopFree (hm : m.store.Of .loopFree) (hdepth : m.depth = 0) :
    m.Together m.loopFreeRegion 0 m :=
  ⟨Machine.Within.alike ⟨hm.within, id, fun tick htick => ⟨tick, htick⟩⟩, rfl, trivial, hdepth⟩

/-- Fuel beyond the greatest depth suffices outside of calls. -/
theorem Machine.suffices_loopFree (m : Machine) {fuel : Nat} (hfuel : maxDepth < fuel) :
    m.loopFreeRegion.Suffices fuel 0 :=
  .inr ⟨Nat.zero_le _, hfuel⟩

/-- A run that does the same with more fuel, and goes out of it never, finishes. -/
theorem Machine.finishes_of_alike {run : Nat → RunM α} {Q : α → Prop}
    (h : ∀ {fuel fuel' : Nat}, fuel ≤ fuel' → maxDepth < fuel →
      RunM.Alike m.loopFreeRegion (run fuel) (run fuel') m m Q) : m.Finishes run := by
  have hleast := h (Nat.le_refl (maxDepth + 1)) (Nat.lt_succ_self maxDepth)
  have hends : m.EndsIn (run (maxDepth + 1) m) := by
    cases hrun : run (maxDepth + 1) m with
    | ok a n => trivial
    | error halt n =>
      have hstops : m.stops halt := (hleast.error hrun).1
      cases halt <;> exact hstops
  have hended : RunM.Ended (run (maxDepth + 1) m) := by
    cases hrun : run (maxDepth + 1) m with
    | ok a n => trivial
    | error halt n =>
      rw [hrun] at hends
      cases halt <;> trivial
  exact ⟨_, hends, fun fuel hfuel => (h hfuel (Nat.lt_succ_self maxDepth)).eq_of_ended hended⟩

variable (hm : m.store.Of .loopFree) (hdepth : m.depth = 0)
include hm hdepth

theorem finishes_evaluate (e : Expr) : m.Finishes (evaluate · e) :=
  m.finishes_of_alike fun hle hfuel =>
    alike_evaluate hle (m.suffices_loopFree hfuel) (fun _ _ => trivial)
      (m.together_loopFree hm hdepth)

theorem finishes_execute {s : Stmt} (hs : s.LoopFree) : m.Finishes (execute · s) :=
  m.finishes_of_alike fun hle hfuel =>
    alike_execute hle (m.suffices_loopFree hfuel) hs.within (m.together_loopFree hm hdepth)

theorem finishes_interpret {program : List Stmt} (hprogram : Stmt.ListLoopFree program) :
    m.Finishes (interpret · program) :=
  m.finishes_of_alike fun hle hfuel =>
    alike_interpret hle (m.suffices_loopFree hfuel) hprogram.within
      (m.together_loopFree hm hdepth)

end

/-! ## Sessions without loops -/

/-- The program that a text is parsed as has no loops. -/
def SessionInput.LoopFree (input : SessionInput) (nextId : Nat) : Prop :=
  ∀ program, (parseProgram (tokensOf (scan input.source)) nextId).result = .ok program →
    input.mode ≠ .evaluate → Stmt.ListLoopFree program

/-- The sessions in which only programs without loops, and expressions, were run, one
    after another; each with some fuel, and whatever became of it. -/
inductive Session.LoopFree : Session → Prop
  | start (out : Sink) (clock : Nat → Option Float) : LoopFree ⟨.start out clock, 0⟩
  | step {s : Session} (fuel : Nat) {input : SessionInput} :
      s.LoopFree → input.LoopFree s.nextId → LoopFree (s.step fuel input).2

namespace Session

theorem LoopFree.of {s : Session} (h : s.LoopFree) : s.machine.store.Of .loopFree := by
  induction h with
  | start out clock => exact Store.of_start _ out clock
  | step fuel _ hinput ih =>
    refine of_step Code.closed_loopFree ih fuel ⟨fun program hparsed hmode => ?_, ?_⟩
    · exact (hinput program hparsed hmode).within
    · exact fun _ _ _ _ _ => trivial

theorem LoopFree.driven {s : Session} (h : s.LoopFree) : s.machine.Driven := by
  induction h with
  | start out clock => exact .start out clock
  | step fuel _ _ ih => exact driven_step fuel _ ih

end Session

/-! ## Texts run as a whole -/

namespace Mode

variable {α β : Type} {p : Reporter α} {f : α → Reporter β} {c : Channels}

theorem bind_ne_outOfFuel (hp : ∀ c', p c ≠ .error .outOfFuel c')
    (hf : ∀ a n (c' : Channels), f a n ≠ .error .outOfFuel c') (c' : Channels) :
    (p >>= f) c ≠ .error .outOfFuel c' := by
  show EStateM.bind p f c ≠ _
  rw [EStateM.bind]
  cases hrun : p c with
  | ok a n => exact hf a n c'
  | error interruption n =>
    intro h
    cases h
    exact hp _ hrun

theorem writeErr_ne_outOfFuel (line : String) (c c' : Channels) :
    writeErr line c ≠ .error .outOfFuel c' := by
  unfold writeErr
  dsimp only
  split <;> exact nofun

/-- An action that ends by itself on a new machine does so for the sinks. -/
theorem onMachine_ne_outOfFuel {limits : Limits} {T : Table} {action : RunM α}
    (h : Machine.EndsIn { Machine.start c.out limits.clock with table := T }
      (action { Machine.start c.out limits.clock with table := T })) (c' : Channels) :
    onMachine limits T action c ≠ .error .outOfFuel c' := by
  unfold onMachine
  dsimp only
  cases hrun : action { Machine.start c.out limits.clock with table := T } with
  | ok a n => exact nofun
  | error halt n =>
    rw [hrun] at h
    cases halt with
    | outOfFuel => exact h.elim
    | _ => exact nofun

/-- A text whose program has no loops is run to an end. -/
theorem runSource_ne_outOfFuel {source : String} {program : List Stmt} {A : Table}
    {limits : Limits} (haccepted : check parseProgram resolveProgram source = .ok (program, A))
    (hprogram : Stmt.ListLoopFree program) (hfuel : maxDepth < limits.fuel) (c c' : Channels) :
    runSource limits source c ≠ .error .outOfFuel c' := by
  obtain ⟨outcome, hends, houtcome⟩ := finishes_interpret
    (m := { Machine.start c.out limits.clock with table := A })
    (Store.of_start _ c.out limits.clock) rfl hprogram
  rw [← houtcome limits.fuel hfuel] at hends
  unfold runSource
  rw [haccepted]
  refine bind_ne_outOfFuel (onMachine_ne_outOfFuel hends) (fun ended n => ?_) c'
  cases ended with
  | ok _ => exact fun _ => nofun
  | error e =>
    -- Only the message is left to be written.
    exact bind_ne_outOfFuel (writeErr_ne_outOfFuel _ n) fun _ _ _ => nofun

end Mode

/-! ## Main statement -/

/-- On a session of programs without loops, with any table that it may be given, every
    program and every statement without loops, and every expression, ends by itself: with
    success or a runtime error, unless a sink has a limit or the clock lacks a reading.
    So does the run of a text as a whole program. -/
theorem loop_free_finishes {s : Session} (hs : s.LoopFree) :
    (∀ (T : Table) (program : List Stmt), Stmt.ListLoopFree program →
      Machine.Finishes { s.machine with table := T } (interpret · program)) ∧
    (∀ (T : Table) (st : Stmt), st.LoopFree →
      Machine.Finishes { s.machine with table := T } (execute · st)) ∧
    (∀ (T : Table) (e : Expr), Machine.Finishes { s.machine with table := T } (evaluate · e)) ∧
    ∀ (source : String) (program : List Stmt) (A : Table) (limits : Limits),
      Mode.check parseProgram resolveProgram source = .ok (program, A) →
      Stmt.ListLoopFree program → maxDepth < limits.fuel →
      ∀ c c', Mode.runSource limits source c ≠ .error .outOfFuel c' := by
  have hof := hs.of
  have hdepth := hs.driven.atTop.2
  refine ⟨fun T program hprogram => ?_, fun T st hst => ?_, fun T e => ?_,
    fun source program A limits haccepted hprogram hfuel c c' hrun => ?_⟩
  · exact finishes_interpret (m := { s.machine with table := T }) hof hdepth hprogram
  · exact finishes_execute (m := { s.machine with table := T }) hof hdepth hst
  · exact finishes_evaluate (m := { s.machine with table := T }) hof hdepth e
  · -- A run as a whole begins on a new machine.
    exact Mode.runSource_ne_outOfFuel haccepted hprogram hfuel c c' hrun

/-- A function that only calls itself, and a call of it: the run ends. -/
theorem loop_free_finishes_runaway :
    Session.LoopFree (.start fun _ => none) ∧
      Machine.Finishes { (Session.start fun _ => none).machine with table := ∅ }
        (interpret · [.function ⟨⟨"f", 1⟩, [],
            [.expression (.call (.name ⟨0, ⟨"f", 1⟩⟩) ⟨")", 1⟩ [])]⟩,
          .expression (.call (.name ⟨1, ⟨"f", 1⟩⟩) ⟨")", 1⟩ [])]) := by
  have hstart : Session.LoopFree (.start fun _ => none) := .start .unlimited _
  exact ⟨hstart, (loop_free_finishes hstart).1 ∅ _ ⟨⟨trivial, trivial⟩, trivial, trivial⟩⟩

end Lox
