/-
  Lox.Proofs.Methods.Frames

  The frames around methods.  A class that names a superclass has a frame with `super`, in
  which its methods are; a method that is bound to an instance has a frame with `this`
  inside that one; and the body of a call has a frame inside that of `this`.

    * `Store.Steady` — frames stay where they are and keep their `this` and `super`;
    * `Store.Inherits`, `Store.Runs`, `Store.Seated` — a frame made for the methods of a
      class, one that runs the body of a method, and one so many links inside the latter;
    * `Closure.Method`, `Closure.Bound`, `Closure.Local` — the three kinds of closure;
    * `Store.Rooted` — all closures in a store are of these kinds.

  All these are told from a point on, the root: what made a frame came up from there.  They
  hold on in every steady store.
-/
import Lox.Proofs.Methods.Anchored
import Lox.Proofs.Scoping.Points
import Lox.Proofs.Stores

namespace Lox

/-! ## Steady stores -/

namespace Store

theorem lt_of_own? {s : Store} {f : FrameId} {name : String} {v : Value}
    (h : s.own? f name = some v) : f < s.frames.size := by
  unfold own? at h
  split at h
  · next frame hframe =>
    obtain ⟨hlt, _⟩ := Array.getElem?_eq_some_iff.mp hframe
    exact hlt
  · cases h

theorem lt_of_parent? {s : Store} {f g : FrameId} (h : s.parent? f = some g) :
    f < s.frames.size := by
  unfold parent? at h
  split at h
  · next frame hframe =>
    obtain ⟨hlt, _⟩ := Array.getElem?_eq_some_iff.mp hframe
    exact hlt
  · cases h

/-- Every frame is still there, inside the same frame, and has the same `this` and the
    same `super`. -/
structure Steady (s t : Store) : Prop where
  size : s.frames.size ≤ t.frames.size
  links : ∀ f, f < s.frames.size → t.parent? f = s.parent? f
  this : ∀ f, f < s.frames.size → t.own? f "this" = s.own? f "this"
  super : ∀ f, f < s.frames.size → t.own? f "super" = s.own? f "super"

variable {s t : Store}

theorem Steady.refl (s : Store) : s.Steady s :=
  ⟨Nat.le_refl _, fun _ _ => rfl, fun _ _ => rfl, fun _ _ => rfl⟩

theorem Steady.trans {u : Store} (hst : s.Steady t) (htu : t.Steady u) : s.Steady u := by
  have hlater {f : FrameId} (hf : f < s.frames.size) : f < t.frames.size :=
    Nat.lt_of_lt_of_le hf hst.size
  refine ⟨Nat.le_trans hst.size htu.size, fun f hf => ?_, fun f hf => ?_, fun f hf => ?_⟩
  · rw [htu.links f (hlater hf), hst.links f hf]
  · rw [htu.this f (hlater hf), hst.this f hf]
  · rw [htu.super f (hlater hf), hst.super f hf]

theorem steady_of_frames (h : t.frames = s.frames) : s.Steady t := by
  refine ⟨Nat.le_of_eq (by rw [h]), fun f _ => ?_, fun f _ => ?_, fun f _ => ?_⟩
  · unfold parent?
    rw [h]
  · unfold own?
    rw [h]
  · unfold own?
    rw [h]

/-- Binding an ordinary name is steady. -/
theorem steady_define (s : Store) (f : FrameId) {name : Lexeme} (hname : name.Ordinary)
    (v : Value) :
    s.Steady (s.define f name.text v) := by
  refine ⟨Nat.le_of_eq (s.size_define f _ v).symm, fun g _ => s.parent?_define f g _ v,
    fun g _ => ?_, fun g _ => ?_⟩
  · rw [own?_define_eq, if_neg fun h => hname.1 h.2.1.symm]
  · rw [own?_define_eq, if_neg fun h => hname.2 h.2.1.symm]

theorem steady_newFrame (s : Store) (frame : Frame) : s.Steady (s.newFrame frame).2 := by
  refine ⟨?_, fun f hf => ?_, fun f hf => ?_, fun f hf => ?_⟩
  · simp [newFrame]
  · exact s.parent?_newFrame_of_ne frame (Nat.ne_of_lt hf)
  · exact s.own?_newFrame_of_ne frame (Nat.ne_of_lt hf) _
  · exact s.own?_newFrame_of_ne frame (Nat.ne_of_lt hf) _

namespace Steady

variable (h : s.Steady t)
include h

theorem parent? {f g : FrameId} (hf : s.parent? f = some g) : t.parent? f = some g :=
  (h.links f (lt_of_parent? hf)).trans hf

theorem own_this {f : FrameId} {v : Value} (hf : s.own? f "this" = some v) :
    t.own? f "this" = some v :=
  (h.this f (lt_of_own? hf)).trans hf

theorem own_super {f : FrameId} {v : Value} (hf : s.own? f "super" = some v) :
    t.own? f "super" = some v :=
  (h.super f (lt_of_own? hf)).trans hf

theorem ancestor? {f g : FrameId} {d : Nat} (hf : s.ancestor? f d = some g) :
    t.ancestor? f d = some g := by
  induction d generalizing f with
  | zero => exact hf
  | succ d ih =>
    rw [Store.ancestor?] at hf ⊢
    cases hlink : s.parent? f with
    | none => simp [hlink] at hf
    | some around =>
      simp only [hlink] at hf
      simp only [h.parent? hlink]
      exact ih hf

end Steady

/-- One link further out. -/
theorem ancestor?_succ {f e g : FrameId} {d : Nat} (hf : s.ancestor? f d = some e)
    (he : s.parent? e = some g) : s.ancestor? f (d + 1) = some g := by
  induction d generalizing f with
  | zero =>
    cases hf
    rw [ancestor?, he]
    rfl
  | succ d ih =>
    rw [ancestor?] at hf ⊢
    cases hlink : s.parent? f with
    | none => simp [hlink] at hf
    | some around =>
      simp only [hlink] at hf ⊢
      exact ih hf

/-- One link further in. -/
theorem ancestor?_of_parent? {f g e : FrameId} {d : Nat} (hf : s.parent? f = some g)
    (hg : s.ancestor? g d = some e) : s.ancestor? f (d + 1) = some e := by
  rw [ancestor?, hf]
  exact hg

end Store

/-- The second machine is at the place of the first one, in a steady store. -/
structure Machine.Steady (m n : Machine) : Prop where
  env : n.env = m.env
  table : n.table = m.table
  store : m.store.Steady n.store

theorem Machine.Steady.refl (m : Machine) : m.Steady m := ⟨rfl, rfl, .refl _⟩

theorem Machine.Steady.trans {a b c : Machine} (hab : a.Steady b) (hbc : b.Steady c) :
    a.Steady c :=
  ⟨hbc.env.trans hab.env, hbc.table.trans hab.table, hab.store.trans hbc.store⟩

/-! ## Frames of methods -/

/-- The frame that is made at a point if a class is declared there that names a
    superclass. -/
def Point.methodFrame (p : Point) : FrameId := p.machine.store.frames.size

/-- At the point a class is declared that has the method, and its superclass clause
    yields `parent`. -/
def Point.Derives (p : Point) (decl : FunctionDecl) (parent : Class) : Prop :=
  ∃ name use methods, p.task = .stmt (.class name (some use) methods) ∧ decl ∈ methods ∧
    p.machine.lookUp use = .ok (.class parent)

/-- The call comes to run the body of the declaration, in a frame `e` of its own and with
    the instance under `this` in the frame around it. -/
def Point.Activates (call : Point) (decl : FunctionDecl) (i : InstanceId) (e : FrameId) : Prop :=
  (∃ f vs, call.task = .call f vs) ∧ ∃ body, call.Step body ∧ body.task = .stmts decl.body ∧
    body.machine.env = e ∧ body.machine.store.namedAt? e 1 "this" = some (.instance i)

/-- At the point a method is bound to an instance, in a frame that is made for it: where a
    property is read that is no field, at a `super`, and where an instance with an
    initializer is made. -/
inductive Point.Binds : Point → Closure → InstanceId → FrameId → Prop
  | property {k object property m i n method} : object.eval (invoke k) m = .ok (.instance i) n →
      n.store.field? i property.text = none → n.store.method? i property.text = some method →
      Binds ⟨k, .expr (.get object property), m⟩ method i n.store.frames.size
  | super {k keyword property m parent i method} : superBinding keyword m = .ok (parent, i) m →
      parent.findMethod property.text = some method →
      Binds ⟨k, .expr (.super keyword property), m⟩ method i m.store.frames.size
  | construction {k cls vs m init} : cls.findMethod "init" = some init →
      Binds ⟨k, .call (.class cls) vs, m⟩ init m.store.instances.size m.store.frames.size

section

variable (root : Point) (T : Table)

/-- The frame `g` was made where a class with the method was declared, and has under
    `super` the superclass that was found there. -/
def Store.Inherits (s : Store) (g : FrameId) (decl : FunctionDecl) : Prop :=
  ∃ p parent, root.Reaches p ∧ p.Derives decl parent ∧ g = p.methodFrame ∧
    s.parent? g = some p.machine.env ∧ s.own? g "super" = some (.class parent)

/-- The frame `e` was made where the method was called.  Around it is the frame with the
    instance under `this`, and around that one the frame of the class. -/
def Store.Runs (s : Store) (e : FrameId) (decl : FunctionDecl) : Prop :=
  ∃ call i f g, root.Reaches call ∧ call.Activates decl i e ∧
    s.parent? e = some f ∧ s.own? f "this" = some (.instance i) ∧
    s.parent? f = some g ∧ s.Inherits root g decl

/-- The frame `f` is inside the frame of a body, as the seat tells. -/
def Store.Seated (s : Store) (f : FrameId) (seat : Option Seat) : Prop :=
  ∀ here, seat = some here → ∃ e decl, s.ancestor? f here.depth = some e ∧
    here.supers = decl.supers ∧ s.Runs root e decl

/-- A method as a class has it. -/
structure Closure.Method (s : Store) (c : Closure) : Prop where
  initializer : c.isInitializer = decide (c.decl.name.text = "init")
  lt : c.frame < s.frames.size
  anchored : c.decl.Anchored T none ∨
    c.decl.Anchored T (some c.decl.seat) ∧ s.Inherits root c.frame c.decl

/-- A method that was bound to an instance, and closes over the frame that was made
    then. -/
structure Closure.Bound (s : Store) (c : Closure) (i : InstanceId) : Prop where
  this : s.own? c.frame "this" = some (.instance i)
  method : ∃ p g, root.Reaches p ∧ p.Binds { c with frame := g } i c.frame ∧
    s.parent? c.frame = some g ∧ Closure.Method root T s { c with frame := g }

/-- A function that is no method, but may be inside one. -/
structure Closure.Local (s : Store) (c : Closure) : Prop where
  plain : c.isInitializer = false
  lt : c.frame < s.frames.size
  bare : s.own? c.frame "this" = none
  seated : ∃ seat, s.Seated root c.frame seat ∧ c.decl.Anchored T (Seat.inner seat)

/-- A function as a value: it is local, or a bound method. -/
def Closure.Callable (s : Store) (c : Closure) : Prop :=
  c.Local root T s ∨ ∃ i, c.Bound root T s i

/-- The methods of a class are methods, under their names. -/
def Class.Rooted (s : Store) (cls : Class) : Prop :=
  ∀ name method, cls.findMethod name = some method →
    method.decl.name.text = name ∧ method.Method root T s

/-- Functions can be called, and the methods of classes are methods. -/
def Value.Rooted (s : Store) : Value → Prop
  | .function closure _ => closure.Callable root T s
  | .class cls => cls.Rooted root T s
  | _ => True

/-- Everything in a store is rooted. -/
def Store.Rooted (s : Store) : Prop :=
  s.All (Value.Rooted root T s) fun name method =>
    method.decl.name.text = name ∧ method.Method root T s

/-- The table is `T`, and everything in the store is rooted. -/
structure Machine.Rooted (m : Machine) : Prop where
  table : m.table = T
  store : m.store.Rooted root T

/-- The machine is at a seat: its frame is one for code, and inside the body there. -/
structure Machine.At (seat : Option Seat) (m : Machine) : Prop where
  lt : m.env < m.store.frames.size
  bare : m.store.own? m.env "this" = none
  seated : m.store.Seated root m.env seat

end

/-! ## In steady stores -/

variable {root : Point} {T : Table} {s t : Store}

section

variable (h : s.Steady t)
include h

theorem Store.Inherits.onward {g : FrameId} {decl : FunctionDecl} (hg : s.Inherits root g decl) :
    t.Inherits root g decl := by
  obtain ⟨p, parent, hreached, hderives, hframe, haround, hsuper⟩ := hg
  exact ⟨p, parent, hreached, hderives, hframe, h.parent? haround, h.own_super hsuper⟩

theorem Store.Runs.onward {e : FrameId} {decl : FunctionDecl} (he : s.Runs root e decl) :
    t.Runs root e decl := by
  obtain ⟨call, i, f, g, hreached, hcall, hf, hthis, hg, hinherits⟩ := he
  exact ⟨call, i, f, g, hreached, hcall, h.parent? hf, h.own_this hthis, h.parent? hg,
    hinherits.onward h⟩

theorem Store.Seated.onward {f : FrameId} {seat : Option Seat} (hf : s.Seated root f seat) :
    t.Seated root f seat := by
  intro here hseat
  obtain ⟨e, decl, he, hsupers, hruns⟩ := hf here hseat
  exact ⟨e, decl, h.ancestor? he, hsupers, hruns.onward h⟩

theorem Closure.Method.onward {c : Closure} (hc : c.Method root T s) : c.Method root T t :=
  ⟨hc.initializer, Nat.lt_of_lt_of_le hc.lt h.size,
    hc.anchored.imp_right fun hd => ⟨hd.1, hd.2.onward h⟩⟩

theorem Closure.Bound.onward {c : Closure} {i : InstanceId} (hc : c.Bound root T s i) :
    c.Bound root T t i := by
  obtain ⟨hthis, p, g, hreached, hbinds, hg, hmethod⟩ := hc
  exact ⟨h.own_this hthis, p, g, hreached, hbinds, h.parent? hg, hmethod.onward h⟩

theorem Closure.Local.onward {c : Closure} (hc : c.Local root T s) : c.Local root T t := by
  obtain ⟨hplain, hlt, hbare, seat, hseated, hdecl⟩ := hc
  refine ⟨hplain, Nat.lt_of_lt_of_le hlt h.size, ?_, seat, hseated.onward h, hdecl⟩
  rw [h.this _ hlt, hbare]

theorem Closure.Callable.onward {c : Closure} (hc : c.Callable root T s) :
    c.Callable root T t :=
  Or.imp (fun hlocal => hlocal.onward h) (fun ⟨i, hbound⟩ => ⟨i, hbound.onward h⟩) hc

theorem Class.Rooted.onward {cls : Class} (hcls : cls.Rooted root T s) : cls.Rooted root T t :=
  fun name method hmethod => (hcls name method hmethod).imp_right fun hm => hm.onward h

theorem Value.Rooted.onward {v : Value} (hv : v.Rooted root T s) : v.Rooted root T t := by
  cases v with
  | function closure stamp => exact Closure.Callable.onward h hv
  | «class» cls => exact Class.Rooted.onward h hv
  | _ => trivial

/-- What a change of a steady store adds is told in the new store. -/
theorem Store.All.onward {u : Store} (hu : u.All (Value.Rooted root T s) fun name method =>
    method.decl.name.text = name ∧ method.Method root T s) :
    u.All (Value.Rooted root T t) fun name method =>
      method.decl.name.text = name ∧ method.Method root T t :=
  hu.mono (fun _ hv => hv.onward h) fun _ _ hm => hm.imp_right fun hm => hm.onward h

end

theorem Machine.At.onward {seat : Option Seat} {m n : Machine} (h : m.At root seat)
    (hmn : m.Steady n) : n.At root seat := by
  obtain ⟨hlt, hbare, hseated⟩ := h
  rw [← hmn.env] at hlt hbare hseated
  refine ⟨Nat.lt_of_lt_of_le hlt hmn.store.size, ?_, hseated.onward hmn.store⟩
  rw [hmn.store.this _ hlt, hbare]

namespace Store.Rooted

variable (hs : s.Rooted root T)
include hs

/-- The value may be rooted by being bound: a function that calls itself is. -/
theorem define {f : FrameId} {name : Lexeme} (hname : name.Ordinary) {v : Value}
    (hv : v.Rooted root T (s.define f name.text v)) : (s.define f name.text v).Rooted root T :=
  Store.All.define (Store.All.onward (s.steady_define f hname v) hs) hv

theorem newFrame {frame : Frame}
    (hvars : ∀ name v, frame.vars.get? name = some v → v.Rooted root T s) :
    (s.newFrame frame).2.Rooted root T :=
  Store.All.onward (s.steady_newFrame frame) (Store.All.newFrame hs hvars)

theorem newInstance {cls : Class} (hcls : cls.Rooted root T s) :
    (s.newInstance cls).2.Rooted root T := by
  have hsteady : s.Steady (s.newInstance cls).2 := steady_of_frames rfl
  exact Store.All.onward hsteady (Store.All.newInstance hs hcls)

theorem setField {i : InstanceId} {name : String} {v : Value} (hv : v.Rooted root T s) :
    (s.setField i name v).Rooted root T := by
  have hsteady : s.Steady (s.setField i name v) := steady_of_frames rfl
  exact Store.All.onward hsteady (Store.All.setField hs hv)

theorem newStamp : s.newStamp.2.Rooted root T := by
  have hsteady : s.Steady s.newStamp.2 := steady_of_frames rfl
  exact Store.All.onward hsteady (Store.All.newStamp hs)

end Store.Rooted

/-! ## Making frames -/

/-- What a frame with a single name has. -/
theorem Bindings.get?_single_eq_some {α : Type} {own name : String} {x y : α}
    (h : (Bindings.single own x).get? name = some y) : name = own ∧ y = x := by
  have hfind : (if own = name then some x else none) = some y := h
  by_cases hname : own = name
  · rw [if_pos hname] at hfind
    exact ⟨hname.symm, (Option.some.inj hfind).symm⟩
  · rw [if_neg hname] at hfind
    cases hfind

/-- A new frame for code: it has no `this`. -/
theorem Machine.At.newFrame {seat : Option Seat} {m : Machine} {vars : Bindings Value}
    {around : FrameId} (hbare : vars.get? "this" = none)
    (hseated : (m.store.newFrame ⟨vars, some around⟩).2.Seated root m.store.frames.size seat)
    (depth : Nat) :
    Machine.At root seat { m with store := (m.store.newFrame ⟨vars, some around⟩).2,
                                  env := m.store.frames.size, depth := depth } := by
  refine ⟨?_, ?_, hseated⟩
  · show m.store.frames.size < (m.store.frames.push _).size
    rw [Array.size_push]
    omega
  · rw [Store.own?_newFrame_self]
    exact hbare

/-- One frame further in is one seat further in. -/
theorem Store.Seated.newFrame {around : FrameId} {seat : Option Seat}
    (h : s.Seated root around seat) (vars : Bindings Value) :
    (s.newFrame ⟨vars, some around⟩).2.Seated root s.frames.size (Seat.inner seat) := by
  intro here hhere
  obtain ⟨outer, houter, rfl⟩ := Option.map_eq_some_iff.mp hhere
  obtain ⟨e, decl, he, hsupers, hruns⟩ := h outer houter
  have hsteady := s.steady_newFrame ⟨vars, some around⟩
  exact ⟨e, decl, ancestor?_of_parent? (s.parent?_newFrame_self _) (hsteady.ancestor? he),
    hsupers, hruns.onward hsteady⟩

/-- What is bound at a point is bound. -/
theorem Closure.Method.bind {method : Closure} (h : method.Method root T s) {i : InstanceId}
    {p : Point} (hreached : root.Reaches p) (hbinds : p.Binds method i s.frames.size) :
    (s.bindMethod method i).1.Bound root T (s.bindMethod method i).2 i := by
  have hsteady := s.steady_newFrame ⟨.single "this" (.instance i), some method.frame⟩
  refine ⟨?_, p, method.frame, hreached, hbinds, s.parent?_newFrame_self _, h.onward hsteady⟩
  show (s.newFrame _).2.own? s.frames.size "this" = _
  rw [Store.own?_newFrame_self]
  rfl

theorem Store.Rooted.bindMethod (hs : s.Rooted root T) (method : Closure) (i : InstanceId) :
    (s.bindMethod method i).2.Rooted root T := by
  refine hs.newFrame fun name v hv => ?_
  obtain ⟨-, rfl⟩ := Bindings.get?_single_eq_some hv
  trivial

end Lox
