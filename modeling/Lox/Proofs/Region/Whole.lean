/-
  Lox.Proofs.Region.Whole

  The whole store as a region, whose functions are all of one kind.

    * `Store.Of` — all functions in a store belong to a code;
    * `Region.ofCode` — then the whole store is a region of that code;
    * `Session.of_step` — so a session whose texts belong to the code has no other
      functions in its store, whatever becomes of the texts;
    * `evaluate_mono` and its companions — with more fuel a run that came to its end
      ends in the same way.
-/
import Lox.Proofs.Region.Running

namespace Lox

open RunM

/-! ## Functions of one kind -/

/-- Bodies of the code have only functions of the code in them. -/
def Code.Closed (C : Code) : Prop := ∀ d, C.decl d → Stmt.ListWithin C d.body

theorem Code.closed_any : Code.any.Closed := fun d _ => Stmt.listWithin_any d.body

/-- All functions in a value belong to the code. -/
def Value.Of (C : Code) : Value → Prop
  | .function closure _ => C.decl closure.decl
  | .class cls => ∀ name method, cls.findMethod name = some method → C.decl method.decl
  | _ => True

/-- All functions in a store belong to the code. -/
structure Store.Of (C : Code) (s : Store) : Prop where
  var : ∀ f name v, s.own? f name = some v → v.Of C
  field : ∀ i name v, s.field? i name = some v → v.Of C
  method : ∀ i name method, s.method? i name = some method → C.decl method.decl

theorem Value.Of.mono {C C' : Code} (hle : ∀ d, C.decl d → C'.decl d) {v : Value} (h : v.Of C) :
    v.Of C' := by
  cases v with
  | function closure stamp => exact hle _ h
  | «class» cls => exact fun name method hmethod => hle _ (h name method hmethod)
  | _ => trivial

theorem Store.Of.mono {C C' : Code} (hle : ∀ d, C.decl d → C'.decl d) {s : Store} (h : s.Of C) :
    s.Of C' :=
  ⟨fun f name v hv => (h.var f name v hv).mono hle,
    fun i name v hv => (h.field i name v hv).mono hle,
    fun i name method hmethod => hle _ (h.method i name method hmethod)⟩

theorem Value.of_any (v : Value) : v.Of .any := by
  cases v with
  | «class» cls => exact fun _ _ _ => trivial
  | _ => trivial

theorem Store.of_any (s : Store) : s.Of .any :=
  ⟨fun _ _ v _ => v.of_any, fun _ _ v _ => v.of_any, fun _ _ _ _ => trivial⟩

/-- On a new machine there is no function but the clock. -/
theorem Store.of_start (C : Code) (out : Sink) (clock : Nat → Option Float) :
    (Machine.start out clock).store.Of C := by
  refine ⟨fun f name v hv => ?_, fun i name v hv => ?_, fun i name method hmethod => ?_⟩
  · rw [Machine.own?_start hv]
    trivial
  · simp [Machine.start, Store.empty, Store.define, Store.field?] at hv
  · simp [Machine.start, Store.empty, Store.define, Store.method?] at hmethod

/-! ## The region -/

/-- The whole store, with the functions of a code. -/
def Region.ofCode (C : Code) (hC : C.Closed) (stops : Halt → Prop)
    (errors : ∀ e, stops (.error e)) (bounds : C.loops → stops .outOfFuel) : Region where
  toCode := C
  frame _ := True
  object _ := True
  stops := stops
  body := hC
  globals := trivial
  errors := errors
  bounds := bounds

section

variable {C : Code} {hC : C.Closed} {stops : Halt → Prop} {errors : ∀ e, stops (.error e)}
  {bounds : C.loops → stops .outOfFuel} {m n n' : Machine} {s : Store} {v : Value}

theorem Value.within_ofCode_iff : v.Within (.ofCode C hC stops errors bounds) ↔ v.Of C := by
  cases v with
  | function closure stamp => exact iff_of_eq (true_and _)
  | «class» cls =>
    exact ⟨fun h name method hmethod => (h name method hmethod).2,
      fun h name method hmethod => ⟨trivial, h name method hmethod⟩⟩
  | _ => exact Iff.rfl

theorem Store.Of.within (h : s.Of C) : s.Within (.ofCode C hC stops errors bounds) :=
  ⟨fun _ _ _ _ => trivial, fun f name v _ hv => Value.within_ofCode_iff.mpr (h.var f name v hv),
    fun i name v _ hv => Value.within_ofCode_iff.mpr (h.field i name v hv),
    fun i name method _ hmethod => ⟨trivial, h.method i name method hmethod⟩,
    fun _ _ => trivial, fun _ _ => trivial⟩

theorem Store.Within.of (h : s.Within (.ofCode C hC stops errors bounds)) : s.Of C :=
  ⟨fun f name v hv => Value.within_ofCode_iff.mp (h.var f name v trivial hv),
    fun i name v hv => Value.within_ofCode_iff.mp (h.field i name v trivial hv),
    fun i name method hmethod => (h.method i name method trivial hmethod).2⟩

/-- Where nothing is outside, alike machines differ in frame and table only. -/
theorem Machine.Alike.eq_ofCode (h : n.Alike (.ofCode C hC stops errors bounds) n')
    (henv : n'.env = n.env) (htable : n'.table = n.table) : n' = n := by
  have hstore : n'.store = n.store :=
    h.alike.eq (fun _ hf => absurd trivial hf) fun _ hi => absurd trivial hi
  have hsame := h.eq_withEnv hstore htable
  rw [henv] at hsame
  exact hsame

end

/-- The whole store, where a run may stop in any way. -/
abbrev Region.whole (C : Code) (hC : C.Closed) : Region :=
  .ofCode C hC (fun _ => True) (fun _ => trivial) fun _ => trivial

section

variable {C : Code} {m m' : Machine} {α : Type}

theorem Machine.together_whole (hC : C.Closed) (hm : m.store.Of C) :
    m.Together (.whole C hC) m.depth m :=
  ⟨Machine.Within.alike ⟨hm.within, fun _ => trivial, fun _ _ => trivial⟩, rfl, trivial, rfl⟩

/-- An action inside a region leaves a machine that keeps to the region. -/
theorem RunM.Alike.within_after {G : Region} {p p' : RunM α} {Q : α → Prop}
    (h : RunM.Alike G p p' m m' Q) : (p.after m).Within G := by
  cases hrun : p m with
  | ok a n =>
    rw [after_of_ok hrun]
    obtain ⟨_, _, hn, _⟩ := h.ok hrun
    exact hn.alike.toWithin
  | error halt n =>
    rw [after_of_error hrun]
    exact (h.error hrun).2.2.1

variable (hC : C.Closed) (hm : m.store.Of C) (fuel : Nat)
include hC hm

theorem of_evaluate {e : Expr} (he : C.Uses e.uses) : ((evaluate fuel e).after m).store.Of C :=
  (alike_evaluate (Nat.le_refl fuel) (.inl trivial) he
    (Machine.together_whole hC hm)).within_after.store.of

theorem of_execute {s : Stmt} (hs : s.Within C) : ((execute fuel s).after m).store.Of C :=
  (alike_execute (Nat.le_refl fuel) (.inl trivial) hs
    (Machine.together_whole hC hm)).within_after.store.of

theorem of_interpret {program : List Stmt} (hprogram : Stmt.ListWithin C program) :
    ((interpret fuel program).after m).store.Of C :=
  (alike_interpret (Nat.le_refl fuel) (.inl trivial) hprogram
    (Machine.together_whole hC hm)).within_after.store.of

theorem of_executeEach {ss : List Stmt} (hss : Stmt.ListWithin C ss) :
    ((Session.executeEach fuel ss).after m).store.Of C := by
  induction ss generalizing m with
  | nil => exact hm
  | cons s ss ih =>
    have hs := of_execute hC hm fuel hss.1
    rcases Session.after_executeEach_cons fuel s ss m with heq | heq
    · rw [heq]
      exact ih hs hss.2
    · rw [heq]
      exact hs

end

/-! ## Sessions -/

/-- What the text of a session is parsed as belongs to the code. -/
structure SessionInput.Of (C : Code) (input : SessionInput) (nextId : Nat) : Prop where
  program : ∀ program, (parseProgram (tokensOf (scan input.source)) nextId).result = .ok program →
    input.mode ≠ .evaluate → Stmt.ListWithin C program
  expression : ∀ e, (parseExpression (tokensOf (scan input.source)) nextId).result = .ok e →
    input.mode = .evaluate → C.Uses e.uses

namespace Session

variable {C : Code} {s : Session}

/-- After a text of the code there are only functions of the code. -/
theorem of_step (hC : C.Closed) (hm : s.machine.store.Of C) (fuel : Nat) {input : SessionInput}
    (hinput : input.Of C s.nextId) : (s.step fuel input).2.machine.store.Of C := by
  have hleft := step_leaves fuel input s
  generalize (s.step fuel input).2.machine = left at hleft
  have hadded (table : Table) : ((addTable table).after s.machine).store.Of C := hm
  cases hleft with
  | nothing => exact hm
  | interpret hmode hparsed =>
    exact of_interpret hC (hadded _) fuel
      (hinput.program _ hparsed (by rw [hmode]; exact nofun))
  | execute hmode hparsed =>
    exact of_executeEach hC (hadded _) fuel
      (hinput.program _ hparsed (by rw [hmode]; exact nofun))
  | evaluate hmode hparsed =>
    exact of_evaluate hC (hadded _) fuel (hinput.expression _ hparsed hmode)

/-- The sessions that texts lead to, one after another; each with some fuel, and whatever
    became of it. -/
inductive Reached : Session → Prop
  | start (out : Sink) (clock : Nat → Option Float) : Reached ⟨.start out clock, 0⟩
  | step {s : Session} (fuel : Nat) (input : SessionInput) :
      s.Reached → Reached (s.step fuel input).2

end Session

/-! ## More fuel -/

/-- A run came to an end of its own. -/
def RunM.Ended {α : Type} : EStateM.Result Halt Machine α → Prop
  | .error .outOfFuel _ => False
  | _ => True

/-- A run that came to its end does the same where the second action is alike. -/
theorem RunM.Alike.eq_of_ended {C : Code} {hC : C.Closed} {stops : Halt → Prop}
    {errors : ∀ e, stops (.error e)} {bounds : C.loops → stops .outOfFuel} {α : Type}
    {p p' : RunM α} {m : Machine} {Q : α → Prop}
    (h : RunM.Alike (.ofCode C hC stops errors bounds) p p' m m Q) (hended : RunM.Ended (p m)) :
    p' m = p m := by
  have same {n n' : Machine} (hn : m.Follows (.ofCode C hC stops errors bounds) m n n') : n' = n :=
    hn.alike.eq_ofCode (hn.second.env.trans hn.first.env.symm)
      (hn.second.table.trans hn.first.table.symm)
  cases hrun : p m with
  | ok a n =>
    obtain ⟨n', hrun', hn, -⟩ := h.ok hrun
    rw [hrun', same hn]
  | error halt n =>
    have hne : halt ≠ .outOfFuel := by
      rintro rfl
      rw [hrun] at hended
      exact hended
    obtain ⟨n', hrun', hn⟩ := (h.error hrun).2.2.2 hne
    rw [hrun', same hn]

variable {fuel fuel' : Nat} (hle : fuel ≤ fuel') {m : Machine}
include hle

theorem evaluate_mono {e : Expr} (hended : RunM.Ended (evaluate fuel e m)) :
    evaluate fuel' e m = evaluate fuel e m :=
  (alike_evaluate hle (.inl trivial) (Code.uses_any _)
    (Machine.together_whole Code.closed_any m.store.of_any)).eq_of_ended hended

theorem execute_mono {s : Stmt} (hended : RunM.Ended (execute fuel s m)) :
    execute fuel' s m = execute fuel s m :=
  (alike_execute hle (.inl trivial) s.within_any
    (Machine.together_whole Code.closed_any m.store.of_any)).eq_of_ended hended

theorem interpret_mono {program : List Stmt} (hended : RunM.Ended (interpret fuel program m)) :
    interpret fuel' program m = interpret fuel program m :=
  (alike_interpret hle (.inl trivial) (Stmt.listWithin_any program)
    (Machine.together_whole Code.closed_any m.store.of_any)).eq_of_ended hended

end Lox
