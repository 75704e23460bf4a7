/-
  Lox.Proofs.Methods.Keeping

  Anchored code keeps a store rooted.

    * `RunM.Keeps` — where an action succeeds, frames are steady, everything is rooted
      again, and its answer is as told;
    * `Point.Visited` — a point that comes up from the root, at a seat where its task is
      anchored;
    * `Machine.At.super` — what an anchored `super` finds at a visited point;
    * `Expr.keeps` — with calls that keep the store rooted, expressions at visited points
      do.
-/
import Lox.Proofs.Methods.Frames
import Lox.Proofs.Operators

namespace Lox

open RunM

/-! ## Actions -/

/-- What is read stands in a frame. -/
theorem Machine.own?_of_lookUp {m : Machine} {use : Occurrence} {v : Value}
    (h : m.lookUp use = .ok v) :
    ∃ f, m.store.own? f use.name.text = some v := by
  unfold Machine.lookUp at h
  split at h
  · unfold Store.getAt Store.namedAt? at h
    split at h
    · next w hfound =>
      cases h
      obtain ⟨f, -, hf⟩ := Option.bind_eq_some_iff.mp hfound
      exact ⟨f, hf⟩
    · cases h
  · unfold Store.get at h
    split at h
    · next w hfound =>
      cases h
      obtain ⟨f, -, hf⟩ := Option.bind_eq_some_iff.mp hfound
      exact ⟨f, hf⟩
    · cases h

section

variable (root : Point) (T : Table)

/-- Where the action succeeds, it goes onward, everything is rooted, and `Q` holds of its
    answer. -/
def RunM.Keeps {α : Type} (p : RunM α) (m : Machine) (Q : α → Store → Prop) : Prop :=
  ∀ a n, p m = .ok a n → m.Steady n ∧ n.Rooted root T ∧ Q a n.store

/-- A value that a `return` carries is rooted. -/
def Flow.Rooted (s : Store) : Flow → Prop
  | .returned v => v.Rooted root T s
  | _ => True

/-- What is to be done is anchored at the seat, and its values are rooted. -/
def Task.Rooted (seat : Option Seat) (s : Store) : Task → Prop
  | .expr e => e.Anchored T seat
  | .exprs es => Expr.ListAnchored T seat es
  | .stmt s => s.Anchored T seat
  | .stmts ss => Stmt.ListAnchored T seat ss
  | .rounds condition body _ => condition.Anchored T seat ∧ body.Anchored T seat
  | .call f vs => f.Rooted root T s ∧ ∀ v ∈ vs, v.Rooted root T s
  | .look _ => True

/-- The point comes up from the root, in a rooted store and at a seat that is right for
    its task. -/
structure Point.Visited (seat : Option Seat) (p : Point) : Prop where
  reached : root.Reaches p
  rooted : p.machine.Rooted root T
  place : p.machine.At root seat
  task : p.task.Rooted root T seat p.machine.store

end

variable {root : Point} {T : Table} {m : Machine} {α β : Type}

namespace RunM.Keeps

variable {p : RunM α} {Q : α → Store → Prop} {f : α → RunM β} {after : β → Store → Prop}

theorem bind (hp : Keeps root T p m Q)
    (hf : ∀ a n, p m = .ok a n → m.Steady n → n.Rooted root T → Q a n.store →
      Keeps root T (f a) n after) :
    Keeps root T (p >>= f) m after := by
  intro b n' hrun
  obtain ⟨a, n, hfirst, hrest⟩ := bind_ok hrun
  obtain ⟨hon, hn, ha⟩ := hp a n hfirst
  obtain ⟨hon', hn', hb⟩ := hf a n hfirst hon hn ha b n' hrest
  exact ⟨hon.trans hon', hn', hb⟩

theorem pure (hm : m.Rooted root T) {a : α} (ha : Q a m.store) :
    Keeps root T (pure a : RunM α) m Q := by
  rintro _ _ ⟨⟩
  exact ⟨.refl m, hm, ha⟩

theorem throw {halt : Halt} : Keeps root T (throw halt : RunM α) m Q := nofun

theorem fail {at_ : Lexeme} {fault : RuntimeFault} :
    Keeps root T (RunM.fail at_ fault : RunM α) m Q :=
  throw

/-- An action that does not look at the machine. -/
theorem constant {P : α → Prop} (hp : p.Constant P) (hm : m.Rooted root T)
    (hQ : ∀ a, P a → Q a m.store) : Keeps root T p m Q := by
  rcases hp with ⟨a, rfl, ha⟩ | ⟨at_, fault, rfl⟩
  · exact .pure hm (hQ a ha)
  · exact .fail

theorem get {f : Machine → RunM β} (h : Keeps root T (f m) m after) :
    Keeps root T (get >>= f) m after := by
  intro b n hrun
  exact h b n hrun

theorem inspect (hm : m.Rooted root T) {g : Store → α} (hg : Q (g m.store) m.store) :
    Keeps root T (RunM.inspect g) m Q := by
  rintro _ _ ⟨⟩
  exact ⟨.refl m, hm, hg⟩

theorem make (hm : m.Rooted root T) {g : Store → α × Store}
    (hsteady : m.store.Steady (g m.store).2) (hrooted : (g m.store).2.Rooted root T)
    (ha : Q (g m.store).1 (g m.store).2) : Keeps root T (RunM.make g) m Q := by
  rintro _ _ ⟨⟩
  exact ⟨⟨rfl, rfl, hsteady⟩, ⟨hm.table, hrooted⟩, ha⟩

theorem change (hm : m.Rooted root T) {g : Store → Store} {Q : Unit → Store → Prop}
    (hsteady : m.store.Steady (g m.store)) (hrooted : (g m.store).Rooted root T)
    (ha : Q () (g m.store)) : Keeps root T (RunM.change g) m Q := by
  rintro _ _ ⟨⟩
  exact ⟨⟨rfl, rfl, hsteady⟩, ⟨hm.table, hrooted⟩, ha⟩

theorem withFrame {g : FrameId} (h : Keeps root T p { m with env := g } Q) :
    Keeps root T (RunM.withFrame g p) m Q := by
  intro a n hrun
  obtain ⟨n', hinner, rfl⟩ := withFrame_ok hrun
  obtain ⟨hon, hn, ha⟩ := h a n' hinner
  exact ⟨⟨rfl, hon.table, hon.store⟩, ⟨hn.table, hn.store⟩, ha⟩

theorem deeper (h : Keeps root T p { m with depth := m.depth + 1 } Q) :
    Keeps root T (RunM.deeper p) m Q := by
  intro a n hrun
  obtain ⟨n', hinner, rfl⟩ := deeper_ok hrun
  obtain ⟨hon, hn, ha⟩ := h a n' hinner
  exact ⟨⟨hon.env, hon.table, hon.store⟩, ⟨hn.table, hn.store⟩, ha⟩

end RunM.Keeps

open RunM (Keeps)

/-! ## Names -/

theorem keeps_read (use : Occurrence) (hm : m.Rooted root T) :
    Keeps root T (read use) m fun v s => v.Rooted root T s := by
  intro v n hrun
  obtain ⟨hv, rfl⟩ := read_ok hrun
  obtain ⟨f, hf⟩ := Machine.own?_of_lookUp hv
  exact ⟨.refl n, hm, hm.store.vars f _ v hf⟩

theorem keeps_define {name : Lexeme} (hname : name.Ordinary) {v : Value} (hm : m.Rooted root T)
    (hv : v.Rooted root T (m.store.define m.env name.text v)) :
    Keeps root T (define name.text v) m fun _ _ => True :=
  .get (.change hm (m.store.steady_define m.env hname v) (hm.store.define hname hv) trivial)

theorem keeps_write {use : Occurrence} (hname : use.name.Ordinary) {v : Value}
    (hm : m.Rooted root T) (hv : v.Rooted root T m.store) :
    Keeps root T (write use v) m fun _ _ => True := by
  intro _ n hrun
  unfold write at hrun
  cases htarget : target? m use with
  | none => simp [htarget] at hrun
  | some f =>
    simp only [htarget] at hrun
    cases hrun
    have hsteady := m.store.steady_define f hname v
    exact ⟨⟨rfl, rfl, hsteady⟩, ⟨hm.table, hm.store.define hname (hv.onward hsteady)⟩, trivial⟩

/-! ## The world -/

theorem keeps_print (v : Value) (hm : m.Rooted root T) :
    Keeps root T (print v) m fun _ _ => True := by
  intro _ n hrun
  unfold print at hrun
  dsimp only at hrun
  split at hrun
  · cases hrun
    exact ⟨⟨rfl, rfl, .refl _⟩, ⟨hm.table, hm.store⟩, trivial⟩
  · cases hrun

theorem keeps_readClock (hm : m.Rooted root T) :
    Keeps root T readClock m fun v s => v.Rooted root T s := by
  intro _ n hrun
  unfold readClock at hrun
  split at hrun
  · cases hrun
    exact ⟨⟨rfl, rfl, .refl _⟩, ⟨hm.table, hm.store⟩, trivial⟩
  · cases hrun

/-! ## Methods -/

theorem keeps_functionValue {closure : Closure} (hm : m.Rooted root T)
    (hclosure : closure.Callable root T m.store) :
    Keeps root T (make (·.functionValue closure)) m fun v s => v.Rooted root T s := by
  have hsteady : m.store.Steady m.store.newStamp.2 := Store.steady_of_frames rfl
  exact .make hm hsteady hm.store.newStamp (hclosure.onward hsteady)

/-- A method that is bound and made a value is bound to the instance. -/
theorem keeps_boundMethod {method : Closure} {i : InstanceId} (hm : m.Rooted root T)
    (hmethod : method.Method root T m.store) {p : Point} (hreached : root.Reaches p)
    (hbinds : p.Binds method i m.store.frames.size) :
    Keeps root T (boundMethod method i) m fun v s => v.Rooted root T s := by
  have hbind : Keeps root T (make (·.bindMethod method i)) m fun closure s =>
      closure.Bound root T s i :=
    .make hm (m.store.steady_newFrame _) (hm.store.bindMethod method i)
      (hmethod.bind hreached hbinds)
  exact hbind.bind fun closure n _ _ hn hbound => keeps_functionValue hn (.inr ⟨i, hbound⟩)

theorem readProperty_eq (i : InstanceId) (property : Lexeme) (m : Machine) :
    readProperty i property m =
      (match m.store.field? i property.text with
        | some v => pure v
        | none =>
          match m.store.method? i property.text with
          | some method => boundMethod method i
          | none => fail property (.undefinedProperty property.text)) m := by
  have hfield : inspect (·.field? i property.text) m = .ok (m.store.field? i property.text) m := rfl
  have hmethod : inspect (·.method? i property.text) m = .ok (m.store.method? i property.text) m :=
    rfl
  unfold readProperty
  rw [bind_of_ok hfield]
  cases m.store.field? i property.text with
  | some v => rfl
  | none => exact bind_of_ok hmethod _

/-- A property that is read is a rooted field, or a method that is bound there. -/
theorem keeps_readProperty {k : Nat} {object : Expr} {property : Lexeme} {m₀ : Machine}
    {i : InstanceId} (hreached : root.Reaches ⟨k, .expr (.get object property), m₀⟩)
    (hobject : object.eval (invoke k) m₀ = .ok (.instance i) m) (hm : m.Rooted root T) :
    Keeps root T (readProperty i property) m fun v s => v.Rooted root T s := by
  intro v n hrun
  rw [readProperty_eq] at hrun
  cases hfield : m.store.field? i property.text with
  | some w =>
    rw [hfield] at hrun
    have hw := hm.store.fields i _ w hfield
    exact Keeps.pure (Q := fun v s => Value.Rooted root T s v) hm hw v n hrun
  | none =>
    rw [hfield] at hrun
    cases hmethod : m.store.method? i property.text with
    | some method =>
      rw [hmethod] at hrun
      exact keeps_boundMethod hm (hm.store.methods i _ method hmethod).2 hreached
        (.property hobject hfield hmethod) v n hrun
    | none =>
      rw [hmethod] at hrun
      cases hrun

/-- At an anchored `super` the frames are there: that of the class, with the superclass
    that was found when it was declared, around that of `this`, around that of the body
    that runs. -/
theorem Machine.At.super {seat : Option Seat} (hat : m.At root seat) (hm : m.Rooted root T)
    {keyword : Occurrence} {property : Lexeme}
    (h : (Expr.super keyword property).Anchored T seat) :
    ∃ p decl parent call i e d,
      root.Reaches p ∧ p.Derives decl parent ∧ keyword ∈ decl.supers ∧
      root.Reaches call ∧ call.Activates decl i e ∧
      T[keyword.id]? = some (d + 2) ∧ m.store.ancestor? m.env d = some e ∧
      m.store.ancestor? m.env (d + 2) = some p.methodFrame ∧
      m.store.own? p.methodFrame "super" = some (.class parent) ∧
      superBinding keyword m = .ok (parent, i) m := by
  obtain ⟨here, rfl, hkeyword, hplace⟩ := h
  obtain ⟨e, decl, he, hsupers, call, i, f, g, hcallReached, hcall, hf, hthis, hg, hinherits⟩ :=
    hat.seated here rfl
  obtain ⟨p, parent, hreached, hderives, rfl, -, hsuper⟩ := hinherits
  -- From the frame of the body two links lead to that of the class.
  have hframe : m.store.ancestor? m.env (here.depth + 1) = some f := Store.ancestor?_succ he hf
  have hclass : m.store.ancestor? m.env (here.depth + 2) = some p.methodFrame :=
    Store.ancestor?_succ hframe hg
  rw [hsupers] at hkeyword
  refine ⟨p, decl, parent, call, i, e, here.depth, hreached, hderives, hkeyword, hcallReached,
    hcall, hplace, he, hclass, hsuper, superBinding_eq (d := here.depth + 1) ?_ ?_ ?_⟩
  · rw [hm.table]
    exact hplace
  · rw [Store.namedAt?, hclass]
    exact hsuper
  · rw [Store.namedAt?, hframe]
    exact hthis

/-- The method is looked for from the superclass on, and bound to the instance. -/
theorem superMethod_eq {keyword : Occurrence} {parent : Class} {i : InstanceId}
    (h : superBinding keyword m = .ok (parent, i) m) (property : Lexeme) :
    superMethod keyword property m =
      (match parent.findMethod property.text with
        | some method => boundMethod method i
        | none => fail property (.undefinedProperty property.text)) m :=
  bind_of_ok h _

theorem keeps_superMethod {k : Nat} {seat : Option Seat} {keyword : Occurrence}
    {property : Lexeme} (hreached : root.Reaches ⟨k, .expr (.super keyword property), m⟩)
    (hat : m.At root seat) (hm : m.Rooted root T)
    (h : (Expr.super keyword property).Anchored T seat) :
    Keeps root T (superMethod keyword property) m fun v s => v.Rooted root T s := by
  obtain ⟨p, decl, parent, call, i, e, d, -, -, -, -, -, -, -, -, hsuper, hbinding⟩ :=
    hat.super hm h
  have hparent : parent.Rooted root T m.store := hm.store.vars _ _ _ hsuper
  intro v n hrun
  rw [superMethod_eq hbinding] at hrun
  cases hfound : parent.findMethod property.text with
  | some method =>
    rw [hfound] at hrun
    exact keeps_boundMethod hm (hparent _ method hfound).2 hreached (.super hbinding hfound) v n
      hrun
  | none =>
    rw [hfound] at hrun
    cases hrun

/-! ## Visited points -/

namespace Point.Visited

variable {seat : Option Seat} {p : Point} {k : Nat} {task : Task} {n : Machine}

/-- A part of a task that comes up on a machine to which the parts before it led. -/
theorem behind (h : Point.Visited root T seat p) (hstep : p.Step ⟨k, task, n⟩)
    (hon : p.machine.Steady n) (hn : n.Rooted root T) (htask : task.Rooted root T seat n.store) :
    Point.Visited root T seat ⟨k, task, n⟩ :=
  ⟨h.reached.tail hstep, hn, h.place.onward hon, htask⟩

/-- A part of a task that comes up at once. -/
theorem part (h : Point.Visited root T seat p) (hstep : p.Step ⟨k, task, p.machine⟩)
    (htask : task.Rooted root T seat p.machine.store) :
    Point.Visited root T seat ⟨k, task, p.machine⟩ :=
  h.behind hstep (.refl _) h.rooted htask

end Point.Visited

open Point (Visited)

/-! ## Expressions -/

section

variable (root : Point) (T : Table)

/-- Calls that come up from the root keep everything rooted. -/
def CallsKeep (k : Nat) : Prop :=
  ∀ f vs paren m seat, Visited root T seat ⟨k, .call f vs, m⟩ →
    Keeps root T (invoke k f paren vs) m fun v s => v.Rooted root T s

end

variable {k : Nat} {seat : Option Seat}

theorem Value.Free.rooted {v : Value} (h : v.Free) (s : Store) : v.Rooted root T s := by
  cases v with
  | function closure stamp => exact h.elim
  | «class» cls => exact h.elim
  | _ => trivial

mutual

/-- An expression at a visited point keeps everything rooted. -/
theorem Expr.keeps (hcalls : CallsKeep root T k) (e : Expr) {m : Machine}
    (h : Visited root T seat ⟨k, .expr e, m⟩) :
    Keeps root T (e.eval (invoke k)) m fun v s => v.Rooted root T s := by
  cases e with
  | literal value => exact .pure h.rooted (Value.free_ofLiteral value |>.rooted _)
  | grouping inner => exact Expr.keeps hcalls inner (h.part .grouping h.task)
  | unary op sign operand =>
    refine (Expr.keeps hcalls operand (h.part .operand h.task)).bind fun v n _ _ hn _ => ?_
    exact .constant (op.unary_constant sign v) hn fun _ hv => hv.rooted _
  | binary op sign left right =>
    refine (Expr.keeps hcalls left (h.part .left h.task.1)).bind fun a m₁ hrun hon hm₁ _ => ?_
    have hright := h.behind (.right hrun) hon hm₁ h.task.2
    refine (Expr.keeps hcalls right hright).bind fun b m₂ _ _ hm₂ _ => ?_
    exact .constant (op.binary_constant sign a b) hm₂ fun _ hv => hv.rooted _
  | logical op sign left right =>
    refine (Expr.keeps hcalls left (h.part .first h.task.1)).bind fun a m₁ hrun hon hm₁ ha => ?_
    split
    · exact .pure hm₁ ha
    · next hundecided =>
      have hdecided : op.decidedBy a = false := Bool.eq_false_iff.mpr hundecided
      exact Expr.keeps hcalls right (h.behind (.second hrun hdecided) hon hm₁ h.task.2)
  | name use => exact keeps_read use h.rooted
  | assign target value =>
    refine (Expr.keeps hcalls value (h.part .assigned h.task.2)).bind fun v m₁ _ _ hm₁ hv => ?_
    -- What is written is rooted in the store before, and so in the one after.
    refine Keeps.bind (Q := fun _ s => v.Rooted root T s) ?_ fun _ m₂ _ _ hm₂ hv => .pure hm₂ hv
    intro _ n hrun
    obtain ⟨hon, hn, -⟩ := keeps_write h.task.1 hm₁ hv _ n hrun
    exact ⟨hon, hn, hv.onward hon.store⟩
  | call callee paren arguments =>
    refine (Expr.keeps hcalls callee (h.part .callee h.task.1)).bind
      fun f m₁ hrun hon hm₁ hf => ?_
    have harguments := h.behind (.arguments hrun) hon hm₁ h.task.2
    refine (Expr.listKeeps hcalls arguments harguments).bind fun vs m₂ hrun' hon' hm₂ hvs => ?_
    have hcall : Visited root T seat ⟨k, .call f vs, m₂⟩ :=
      h.behind (.called hrun hrun') (hon.trans hon') hm₂ ⟨hf.onward hon'.store, hvs⟩
    exact hcalls f vs paren m₂ seat hcall
  | get object property =>
    have hobject := Expr.keeps hcalls object (h.part .object h.task)
    refine hobject.bind fun v m₁ hrun _ hm₁ _ => ?_
    refine Keeps.bind (Q := fun _ _ => True)
      (.constant (asInstance_constant _ _ v) hm₁ fun _ _ => trivial) fun i m₂ hmade _ _ _ => ?_
    -- The value is the instance, so the point is one where its method is bound.
    obtain ⟨rfl, rfl⟩ := asInstance_ok hmade
    exact keeps_readProperty h.reached hrun hm₁
  | set object property value =>
    have hholder := Expr.keeps hcalls object (h.part .holder h.task.1)
    refine hholder.bind fun o m₁ hrun hon hm₁ _ => ?_
    refine Keeps.bind (Q := fun _ _ => True)
      (.constant (asInstance_constant _ _ o) hm₁ fun _ _ => trivial) fun i m₂ hmade _ hm₂ _ => ?_
    obtain ⟨rfl, rfl⟩ := asInstance_ok hmade
    have hvalue := h.behind (.stored hrun) hon hm₂ h.task.2
    refine (Expr.keeps hcalls value hvalue).bind fun v m₃ _ _ hm₃ hv => ?_
    have hsteady : m₃.store.Steady (m₃.store.setField i property.text v) :=
      Store.steady_of_frames rfl
    refine Keeps.bind (Q := fun _ s => v.Rooted root T s)
      (.change hm₃ hsteady (hm₃.store.setField hv) (hv.onward hsteady))
      fun _ m₄ _ _ hm₄ hv => .pure hm₄ hv
  | this keyword => exact keeps_read keyword h.rooted
  | super keyword property => exact keeps_superMethod h.reached h.place h.rooted h.task

theorem Expr.listKeeps (hcalls : CallsKeep root T k) (es : List Expr) {m : Machine}
    (h : Visited root T seat ⟨k, .exprs es, m⟩) :
    Keeps root T (Expr.listEval (invoke k) es) m fun vs s => ∀ v ∈ vs, v.Rooted root T s := by
  cases es with
  | nil => exact .pure h.rooted nofun
  | cons e es =>
    refine (Expr.keeps hcalls e (h.part .head h.task.1)).bind fun v m₁ hrun hon hm₁ hv => ?_
    have htail := h.behind (.tail hrun) hon hm₁ h.task.2
    refine (Expr.listKeeps hcalls es htail).bind fun vs m₂ _ hon' hm₂ hvs => ?_
    exact .pure hm₂ (List.forall_mem_cons.mpr ⟨hv.onward hon'.store, hvs⟩)

end

end Lox
