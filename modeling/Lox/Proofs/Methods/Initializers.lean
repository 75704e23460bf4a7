/-
  Lox.Proofs.Methods.Initializers

  Constructors and initializers yield their receiver.

    * `Point.Binds.eval` — where a method is bound, the function that is yielded has the
      instance in its frame;
    * `Point.Binds.unique` — a frame is made for a method at a single point of a run;
    * `Closure.Bound.yields` — a call of a bound initializer yields that instance, whatever
      the body does;
    * `Class.initializer_yields`, `Point.Binds.yields` — so do a construction, and a call of
      what was yielded where a method was bound;
    * `initializers_yield_receiver` — the main statement.
-/
import Lox.Proofs.Methods.Super
import Lox.Proofs.Scoping.Order

namespace Lox

open RunM
open Point (Visited)

variable {root : Point} {T : Table} {m n : Machine} {k : Nat} {seat : Option Seat}

/-! ## Instances -/

/-- Every instance is still there and has its class. -/
def Machine.KeepsClasses (m n : Machine) : Prop :=
  ∀ i cls, m.store.class? i = some cls → n.store.class? i = some cls

theorem evolution_classes : Evolution Machine.KeepsClasses where
  refl _ _ _ h := h
  trans hab hbc i cls h := hbc i cls (hab i cls h)
  bound _ _ _ _ _ _ h := h
  framed _ _ _ _ h := h
  born m cls i own h := by
    have hold : i ≠ m.store.instances.size := by
      rintro rfl
      rw [m.store.class?_size] at h
      cases h
    rw [Store.class?_newInstance, if_neg hold]
    exact h
  fielded m i name value j cls h := by
    rw [Store.class?_setField]
    exact h
  stamped _ _ _ h := h
  printed _ _ _ _ h := h
  ticked _ _ _ h := h
  inFrame _ _ _ h := h
  deeper _ _ h := h

/-- The instance that a call of a class makes is one of the class. -/
theorem invoke_class_born {cls : Class} {paren : Lexeme} {vs : List Value} {v : Value}
    (h : invoke k (.class cls) paren vs m = .ok v n) :
    v = .instance m.store.instances.size ∧
      n.store.class? m.store.instances.size = some cls := by
  have hborn : (m.store.newInstance cls).2.class? m.store.instances.size = some cls := by
    rw [Store.class?_newInstance, if_pos rfl]
  cases k with
  | zero => cases h
  | succ k =>
    obtain ⟨-, rfl, ⟨-, rfl⟩ | ⟨init, w, -, hcalled⟩⟩ := invoke_class_cases h
    · exact ⟨rfl, hborn⟩
    · -- The initializer is called when the instance is already there.
      have ev := evolution_classes
      have hkept := (ev.callClosure (ev.listExec (ev.invoke k) k) (m.receive cls init).1 paren
        vs).ok hcalled
      exact ⟨rfl, hkept _ _ hborn⟩

/-! ## Bound methods -/

/-- What is yielded where a method is bound is a function that has the instance in its
    frame. -/
theorem Point.Binds.eval {p : Point} {method : Closure} {i : InstanceId} {f : FrameId}
    (h : p.Binds method i f) {e : Expr} (htask : p.task = .expr e) :
    ∃ stamp n, e.eval (invoke p.bound) p.machine =
        .ok (.function { method with frame := f } stamp) n ∧
      n.store.own? f "this" = some (.instance i) := by
  cases h with
  | @property k object property m i m' method hobject hfield hmethod =>
    cases htask
    obtain ⟨n, hbound, hthis, -⟩ := boundMethod_eq method i m'
    refine ⟨m'.store.nextStamp, n, ?_, hthis⟩
    show (object.eval (invoke k) >>= fun v =>
      asInstance property .propertyOfNonInstance v >>= fun i => readProperty i property) m = _
    rw [bind_of_ok hobject]
    refine (bind_of_ok (p := asInstance _ _ _) rfl _).trans ?_
    rw [readProperty_eq, hfield, hmethod]
    exact hbound
  | @super k keyword property m parent i method hbinding hmethod =>
    cases htask
    obtain ⟨n, hbound, hthis, -⟩ := boundMethod_eq method i m
    refine ⟨m.store.nextStamp, n, ?_, hthis⟩
    show superMethod keyword property m = _
    rw [superMethod_eq hbinding, hmethod]
    exact hbound
  | construction => cases htask

/-- A method that is bound at a visited point is one that a class has. -/
theorem Point.Binds.method {p : Point} {method : Closure} {i : InstanceId} {f : FrameId}
    (h : p.Binds method i f) (hp : Visited root T seat p) :
    ∃ s, method.Method root T s := by
  cases h with
  | @property k object property m i m' method hobject hfield hmethod =>
    have hkeeps := Expr.keeps (callsKeep root T k) object (hp.part .object hp.task)
    obtain ⟨-, hn, -⟩ := hkeeps _ _ hobject
    exact ⟨_, (hn.store.methods i _ method hmethod).2⟩
  | @super k keyword property m parent i method hbinding hmethod =>
    have hanchored : (Expr.super keyword property).Anchored T seat := hp.task
    obtain ⟨_, _, parent', _, i', _, _, -, -, -, -, -, -, -, -, hsuper, hbinding'⟩ :=
      hp.place.super hp.rooted hanchored
    cases hbinding.symm.trans hbinding'
    have hparent : parent.Rooted root T m.store := hp.rooted.store.vars _ _ _ hsuper
    exact ⟨_, (hparent _ method hmethod).2⟩
  | construction hinit =>
    have hcls : Class.Rooted root T _ _ := hp.task.1
    exact ⟨_, (hcls _ _ hinit).2⟩

/-! ## Frames of bound methods -/

section

variable {p q r : Point} {method method' : Closure} {i i' : InstanceId} {f f' : FrameId}

/-- The frame for the initializer of a new instance is the next one. -/
theorem Machine.receive_frames (m : Machine) (cls : Class) (init : Closure) :
    (m.receive cls init).2.store.frames.size = m.store.frames.size + 1 :=
  Array.size_push _

/-- A method is bound in a frame that is not there before. -/
theorem Point.Binds.le (h : p.Binds method i f) : p.machine.store.frames.size ≤ f := by
  cases h with
  | @property k object property m i m' method hobject _ _ =>
    exact ((evolution_becomes.eval (evolution_becomes.invoke k) object).ok hobject).frames
  | super _ _ => exact Nat.le_refl _
  | construction _ => exact Nat.le_refl _

/-- Where the point is done, the frame is there. -/
theorem Point.Binds.lt (h : p.Binds method i f) (hdone : p.Done n) : f < n.store.frames.size := by
  have ofExpr {e : Expr} (htask : p.task = .expr e)
      (hdone : ∃ v, e.eval (invoke p.bound) p.machine = .ok v n) : f < n.store.frames.size := by
    obtain ⟨v, hrun⟩ := hdone
    obtain ⟨stamp, n', hrun', hthis⟩ := h.eval htask
    cases hrun.symm.trans hrun'
    exact Store.lt_of_own? hthis
  cases h with
  | property _ _ _ => exact ofExpr rfl hdone
  | super _ _ => exact ofExpr rfl hdone
  | @construction k cls vs m init hinit =>
    obtain ⟨v, paren, hrun⟩ := hdone
    cases k with
    | zero => cases hrun
    | succ k =>
      obtain ⟨-, -, ⟨hnone, -⟩ | ⟨found, w, hfound, hcalled⟩⟩ := invoke_class_cases hrun
      · rw [hinit] at hnone
        cases hnone
      · cases hfound.symm.trans hinit
        have ev := evolution_becomes
        have hframes := ((ev.callClosure (ev.listExec (ev.invoke k) k) _ paren vs).ok
          hcalled).frames
        rw [m.receive_frames] at hframes
        exact hframes

/-- What comes up behind the parts of a point comes up in another frame: either the frame
    is not there yet when the parts have been done, or it is there before they come up. -/
theorem Point.Binds.not_inside (h : p.Binds method i f) (hstep : p.Step q) (hq : q.Reaches r) :
    ¬ r.Binds method' i' f := by
  intro h'
  cases h with
  | property hobject _ _ =>
    cases hstep with
    | object =>
      obtain ⟨n, hdone, hbecomes⟩ := hq.done ⟨_, hobject⟩
      exact absurd (h'.lt hdone) (Nat.not_lt.mpr hbecomes.frames)
  | super _ _ =>
    cases hstep with
    | super =>
      -- The look-up of the keyword has no parts, and binds nothing.
      rcases hq.cases_head with rfl | ⟨_, hlook, -⟩
      · cases h'
      · cases hlook
  | @construction k cls vs m method hinit =>
    cases hstep with
    | initializer hinit' hreceive _ _ =>
      cases hinit'.symm.trans hinit
      cases hreceive
      have hentered := (Machine.becomes_enter _ _ vs).frames.trans hq.becomes.frames
      have hreceived := Nat.le_of_eq (m.receive_frames cls method).symm
      exact absurd h'.le (Nat.not_le.mpr (hreceived.trans hentered))

/-- At a point a single method is bound, to a single instance. -/
theorem Point.Binds.functional (h : p.Binds method i f) (h' : p.Binds method' i' f') :
    method = method' ∧ i = i' := by
  cases h with
  | property hobject _ hmethod =>
    cases h' with
    | property hobject' _ hmethod' =>
      cases hobject.symm.trans hobject'
      cases hmethod.symm.trans hmethod'
      exact ⟨rfl, rfl⟩
  | super hbinding hmethod =>
    cases h' with
    | super hbinding' hmethod' =>
      cases hbinding.symm.trans hbinding'
      cases hmethod.symm.trans hmethod'
      exact ⟨rfl, rfl⟩
  | construction hinit =>
    cases h' with
    | construction hinit' =>
      cases hinit.symm.trans hinit'
      exact ⟨rfl, rfl⟩

theorem Point.Binds.not_before (h : p.Binds method i f) (hbefore : p.Before q) :
    ¬ q.Binds method' i' f := by
  intro h'
  obtain ⟨n, hdone, hbecomes⟩ := hbefore
  exact absurd h'.le (Nat.not_le.mpr (Nat.lt_of_lt_of_le (h.lt hdone) hbecomes.frames))

/-- A frame is made for a method once in a run: it tells the method and the instance. -/
theorem Point.Binds.unique (hp : root.Reaches p) (hq : root.Reaches q)
    (h : p.Binds method i f) (h' : q.Binds method' i' f) : method = method' ∧ i = i' := by
  rcases hp.order hq with hinside | hinside | hbefore | hbefore
  · rcases hinside.cases_head with rfl | ⟨_, hstep, hreaches⟩
    · exact h.functional h'
    · exact absurd h' (h.not_inside hstep hreaches)
  · rcases hinside.cases_head with rfl | ⟨_, hstep, hreaches⟩
    · exact h.functional h'
    · exact absurd h (h'.not_inside hstep hreaches)
  · exact absurd h' (h.not_before hbefore)
  · exact absurd h (h'.not_before hbefore)

end

/-! ## Calls -/

/-- A call of a bound initializer that goes well yields the instance, which is still in its
    frame. -/
theorem Closure.Bound.yields {closure : Closure} {i : InstanceId}
    (hbound : closure.Bound root T m.store i) (hinit : closure.isInitializer = true)
    (hm : m.Rooted root T) {vs : List Value} (hvs : ∀ v ∈ vs, v.Rooted root T m.store)
    {call : Point} (htask : ∃ f vs, call.task = .call f vs) (hreached : root.Reaches call)
    (hstep : m.depth < maxDepth → call.Step ⟨k, .stmts closure.decl.body, m.enter closure vs⟩)
    {paren : Lexeme} {v : Value}
    (h : callClosure (Stmt.listExec (invoke k) k) closure paren vs m = .ok v n) :
    v = .instance i ∧ n.store.own? closure.frame "this" = some (.instance i) := by
  have hkeeps := keeps_callClosure (callsKeep root T k) paren (.inr ⟨i, hbound⟩) hm hvs htask
    hreached hstep
  obtain ⟨hon, -, -⟩ := hkeeps v n h
  have hthis := hon.store.own_this hbound.this
  obtain ⟨flow, n', -, hv, rfl⟩ := callClosure_ok h
  have hthis' : n'.store.own? closure.frame "this" = some (.instance i) := hthis
  rw [if_pos hinit, hthis'] at hv
  exact ⟨hv, hthis⟩

/-- The initializer that runs when a class is called yields the new instance. -/
theorem Class.initializer_yields {cls : Class} {init closure : Closure} {vs : List Value}
    {m' : Machine} (hcall : Visited root T seat ⟨k + 1, .call (.class cls) vs, m⟩)
    (hreached : root.Reaches ⟨k + 1, .call (.class cls) vs, m⟩)
    (hinit : cls.findMethod "init" = some init) (hreceive : m.receive cls init = (closure, m'))
    {paren : Lexeme} {v : Value} (h : invoke (k + 1) (.class cls) paren vs m = .ok v n) :
    callClosure (Stmt.listExec (invoke k) k) closure paren vs m' = .ok v n ∧
      n.store.own? closure.frame "this" = some v := by
  obtain ⟨hcls, hvs⟩ := hcall.task
  obtain ⟨hon, hm', hbound⟩ := hcall.rooted.receive hcls hreached hinit hreceive
  have hinitializer : closure.isInitializer = true := by
    obtain ⟨hname, hmethod⟩ := hcls _ _ hinit
    cases hreceive
    exact hmethod.initializer.trans (decide_eq_true hname)
  obtain ⟨harity, rfl, ⟨hnone, -⟩ | ⟨found, w, hfound, hcalled⟩⟩ := invoke_class_cases h
  · rw [hinit] at hnone
    cases hnone
  · cases hinit.symm.trans hfound
    cases hreceive
    obtain ⟨rfl, hthis⟩ := hbound.yields hinitializer hm'
      (fun v hv => (hvs v hv).onward hon.store) ⟨_, _, rfl⟩ hreached (.receive hinit harity)
      hcalled
    exact ⟨hcalled, hthis⟩

/-- An initializer that was bound at a point is called: the instance is in its frame, and is
    yielded. -/
theorem Point.Binds.yields {p : Point} {method : Closure} {i : InstanceId} {f : FrameId}
    (h : p.Binds method i f) (hp : root.Reaches p) (hinit : method.isInitializer = true)
    {stamp : Nat} {vs : List Value}
    (hcall : Visited root T seat ⟨k, .call (.function { method with frame := f } stamp) vs, m⟩)
    (hreached : root.Reaches ⟨k, .call (.function { method with frame := f } stamp) vs, m⟩) :
    m.store.own? f "this" = some (.instance i) ∧ ∀ paren v n,
      invoke k (.function { method with frame := f } stamp) paren vs m = .ok v n →
        v = .instance i ∧ n.store.own? f "this" = some v := by
  obtain ⟨hclosure, hvs⟩ := hcall.task
  rcases hclosure with ⟨hplain, -⟩ | ⟨i', hbound⟩
  · rw [hinit] at hplain
    cases hplain
  · -- The frame was made at the point, and at no other one.
    obtain ⟨hthis, p', g, hp', h', -⟩ := id hbound
    obtain ⟨-, rfl⟩ := h.unique hp hp' h'
    refine ⟨hthis, fun paren v n hrun => ?_⟩
    cases k with
    | zero => cases hrun
    | succ k =>
      obtain ⟨harity, hrun⟩ := invoke_function_cases hrun
      obtain ⟨rfl, hkept⟩ := hbound.yields hinit hcall.rooted hvs ⟨_, _, rfl⟩ hreached
        (fun hdepth => .function harity hdepth) hrun
      exact ⟨rfl, hkept⟩

/-! ## Main statement -/

/-- In every run of an accepted program:
    a call of a class that goes well yields an instance of the class that was not there
    before;
    the initializer that runs then yields that instance;
    where a method is bound to an instance, it is an initializer if it is named `init`, the
    function that is yielded has the instance in its frame, and if it is an initializer
    every call of the function, anywhere in the run, finds the instance there and yields it
    if the call goes well;
    no statement changes what a frame has under `this`;
    and every function that is called as an initializer is named `init` and was bound in one
    of these ways. -/
theorem initializers_yield_receiver {source : String} {program : List Stmt} {A : Table}
    (haccepted : Mode.check parseProgram resolveProgram source = .ok (program, A))
    (out : Sink) (clock : Nat → Option Float) (fuel : Nat) :
    (∀ k cls vs m, (Point.start out clock fuel program A).Reaches ⟨k, .call (.class cls) vs, m⟩ →
      ∀ paren v n, invoke k (.class cls) paren vs m = .ok v n →
        ∃ i, v = .instance i ∧ m.store.class? i = none ∧ n.store.class? i = some cls) ∧
    (∀ k cls vs m init closure m',
      (Point.start out clock fuel program A).Reaches ⟨k + 1, .call (.class cls) vs, m⟩ →
      cls.findMethod "init" = some init → m.receive cls init = (closure, m') →
      ∀ paren v n, invoke (k + 1) (.class cls) paren vs m = .ok v n →
        callClosure (Stmt.listExec (invoke k) k) closure paren vs m' = .ok v n ∧
          n.store.own? closure.frame "this" = some v) ∧
    (∀ p method i f, (Point.start out clock fuel program A).Reaches p → p.Binds method i f →
      method.isInitializer = decide (method.decl.name.text = "init") ∧
      (∀ e, p.task = .expr e → ∃ stamp n, e.eval (invoke p.bound) p.machine =
          .ok (.function { method with frame := f } stamp) n ∧
        n.store.own? f "this" = some (.instance i)) ∧
      (method.decl.name.text = "init" → ∀ k stamp vs m,
        (Point.start out clock fuel program A).Reaches
          ⟨k, .call (.function { method with frame := f } stamp) vs, m⟩ →
        m.store.own? f "this" = some (.instance i) ∧
        ∀ paren v n, invoke k (.function { method with frame := f } stamp) paren vs m = .ok v n →
          v = .instance i ∧ n.store.own? f "this" = some v)) ∧
    (∀ k s m, (Point.start out clock fuel program A).Reaches ⟨k, .stmt s, m⟩ →
      ∀ flow n, s.exec (invoke k) k m = .ok flow n →
        ∀ f v, m.store.own? f "this" = some v → n.store.own? f "this" = some v) ∧
    ∀ k closure stamp vs m,
      (Point.start out clock fuel program A).Reaches ⟨k, .call (.function closure stamp) vs, m⟩ →
      closure.isInitializer = true → closure.decl.name.text = "init" ∧
        ∃ p g i, (Point.start out clock fuel program A).Reaches p ∧
          p.Binds { closure with frame := g } i closure.frame := by
  have hvisited (p : Point) (hreached : (Point.start out clock fuel program A).Reaches p) :=
    Point.visited_of_accepted haccepted out clock fuel hreached
  refine ⟨fun k cls vs m _ paren v n hrun => ?_,
    fun k cls vs m init closure m' hreached hinit hreceive paren v n hrun => ?_,
    fun p method i f hreached hbinds => ?_,
    fun k s m hreached flow n hrun f v hthis => ?_,
    fun k closure stamp vs m hreached hinit => ?_⟩
  · obtain ⟨rfl, hclass⟩ := invoke_class_born hrun
    exact ⟨_, rfl, m.store.class?_size, hclass⟩
  · obtain ⟨seat, hcall⟩ := hvisited _ hreached
    exact cls.initializer_yields hcall hreached hinit hreceive hrun
  · obtain ⟨seat, hp⟩ := hvisited _ hreached
    obtain ⟨s, hmethod⟩ := hbinds.method hp
    refine ⟨hmethod.initializer, fun e htask => hbinds.eval htask,
      fun hname k stamp vs m hcalled => ?_⟩
    obtain ⟨seat', hcall⟩ := hvisited _ hcalled
    have hinit := hmethod.initializer.trans (decide_eq_true hname)
    exact hbinds.yields hreached hinit hcall hcalled
  · obtain ⟨seat, hstmt⟩ := hvisited _ hreached
    obtain ⟨hon, -, -⟩ := Stmt.keeps (callsKeep _ A k) s hstmt flow n hrun
    exact hon.store.own_this hthis
  · obtain ⟨seat, hcall⟩ := hvisited _ hreached
    obtain ⟨hclosure, hvs⟩ := hcall.task
    rcases hclosure with ⟨hplain, -⟩ | ⟨i, hbound⟩
    · rw [hinit] at hplain
      cases hplain
    · obtain ⟨-, p, g, hbinder, hbinds, -, hmethod⟩ := hbound
      have hname := hmethod.initializer.symm.trans hinit
      exact ⟨of_decide_eq_true hname, p, g, i, hbinder, hbinds⟩

/-- The initializer of an instance is stored, and called once more. -/
def reinitializing : List Stmt :=
  [.class ⟨"A", 1⟩ none [⟨⟨"init", 1⟩, [],
      [.while (.literal (.bool true)) (.return ⟨"return", 1⟩ none)]⟩],
    .var ⟨"f", 1⟩ (some (.get (.call (.name ⟨0, ⟨"A", 1⟩⟩) ⟨")", 1⟩ []) ⟨"init", 1⟩)),
    .expression (.call (.name ⟨1, ⟨"f", 1⟩⟩) ⟨")", 1⟩ [])]

/-- It returns from inside a loop, and yields the instance. -/
theorem initializers_yield_receiver_stored : ∃ (closure : Closure) (m n : Machine),
    Mode.check parseProgram resolveProgram
        "class A\x7binit()\x7bwhile(true)return;\x7d\x7dvar f=A().init;f();" =
      .ok (reinitializing, ∅) ∧
      (Point.start .unlimited (fun _ => none) 2 reinitializing ∅).Reaches
        ⟨2, .call (.function closure 1) [], m⟩ ∧
      closure.isInitializer = true ∧
      invoke 2 (.function closure 1) ⟨")", 1⟩ [] m = .ok (.instance 0) n ∧
      n.store.own? closure.frame "this" = some (.instance 0) := by
  obtain ⟨m, hreached, n, hrun⟩ :
      ∃ m, (Point.start .unlimited (fun _ => none) 2 reinitializing ∅).Reaches
          ⟨2, .call (.function ⟨⟨⟨"init", 1⟩, [],
            [.while (.literal (.bool true)) (.return ⟨"return", 1⟩ none)]⟩, 3, true⟩ 1) [], m⟩ ∧
        ∃ n, invoke 2 (.function ⟨⟨⟨"init", 1⟩, [],
            [.while (.literal (.bool true)) (.return ⟨"return", 1⟩ none)]⟩, 3, true⟩ 1)
          ⟨")", 1⟩ [] m = .ok (.instance 0) n := by
    apply Exists.intro
    apply And.intro
    · refine .head (.statements (ok_of_answer? (by cbv))) ?_
      refine .head (.statements (ok_of_answer? (by cbv))) ?_
      refine .head .statement (.head .expression ?_)
      exact .single (.called (ok_of_answer? (by cbv)) rfl)
    · exact ⟨_, ok_of_answer? (by cbv)⟩
  have haccepted : Mode.check parseProgram resolveProgram
      "class A\x7binit()\x7bwhile(true)return;\x7d\x7dvar f=A().init;f();" =
        .ok (reinitializing, ∅) :=
    Mode.check_eq_ok.mpr ⟨by cbv, by cbv, by cbv⟩
  obtain ⟨-, -, hbinds, -, hcalls⟩ :=
    initializers_yield_receiver haccepted .unlimited (fun _ => none) 2
  obtain ⟨hname, p, g, i, hbinder, hbound⟩ := hcalls 2 _ 1 [] m hreached rfl
  obtain ⟨-, -, hyields⟩ := hbinds p _ i _ hbinder hbound
  obtain ⟨-, hthis⟩ := (hyields hname 2 1 [] m hreached).2 ⟨")", 1⟩ _ n hrun
  exact ⟨_, m, n, haccepted, hreached, rfl, hrun, hthis⟩

end Lox
