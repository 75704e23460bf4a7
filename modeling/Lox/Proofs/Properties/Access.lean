/-
  Lox.Proofs.Properties.Access

  What reading and setting a property does, in every run.

    * `Point.eval_get` — reading a property of an instance, case by case;
    * `Point.Binds.called`, `Point.Binds.this_inside` — a method that was bound is still
      bound to the instance wherever it is called, and a `this` that belongs to the call is
      that instance;
    * `invoke_class_counted` — a class takes as many arguments as the initializer that is
      found in its lineage;
    * `properties_follow_one_order` — the main statement.
-/
import Lox.Proofs.Grounding.Frames
import Lox.Proofs.Properties.Origins
import Lox.Proofs.Properties.Sets

namespace Lox

open RunM
open Point (Visited)

variable {root p q : Point} {T : Table} {m n : Machine} {k : Nat} {seat : Option Seat}

/-! ## Reading -/

/-- An instance that is there has a class. -/
theorem Store.exists_class? {s : Store} {i : InstanceId} (hi : i < s.instances.size) :
    ∃ cls, s.class? i = some cls := by
  unfold Store.class?
  rw [Array.getElem?_eq_getElem hi]
  exact ⟨_, rfl⟩

/-- What an instance has of a name besides its fields is what its class has. -/
theorem Store.method?_of_class? {s : Store} {i : InstanceId} {cls : Class}
    (h : s.class? i = some cls) (name : String) :
    s.method? i name = cls.lineage.findSome? (·.methods.get? name) := by
  obtain ⟨object, hobject, rfl⟩ := Option.map_eq_some_iff.mp h
  rw [← Class.findMethod_eq]
  unfold Store.method?
  rw [hobject]

/-- Behind its object, a property is read where the object has led. -/
theorem Expr.eval_get {object : Expr} {i : InstanceId} (property : Lexeme)
    (hobject : object.eval (invoke k) m = .ok (.instance i) n) :
    (Expr.get object property).eval (invoke k) m = readProperty i property n :=
  bind_of_ok hobject _

/-- A field is set behind the instance and the value, and the value is yielded. -/
theorem Expr.eval_set {object value : Expr} {i : InstanceId} {v : Value} {l : Machine}
    (property : Lexeme) (hobject : object.eval (invoke k) m = .ok (.instance i) n)
    (hvalue : value.eval (invoke k) n = .ok v l) :
    (Expr.set object property value).eval (invoke k) m =
      .ok v { l with store := l.store.setField i property.text v } :=
  (bind_of_ok hobject _).trans (bind_of_ok hvalue _)

/-- What is set in the course of it. -/
theorem Expr.sets_set {object value : Expr} {i : InstanceId} {v : Value} {l : Machine}
    (property : Lexeme) (hobject : object.eval (invoke k) m = .ok (.instance i) n)
    (hvalue : value.eval (invoke k) n = .ok v l) :
    Point.sets ⟨k, .expr (.set object property value), m⟩ =
      Point.sets ⟨k, .expr object, m⟩ ++ Point.sets ⟨k, .expr value, n⟩ ++
        [⟨i, property.text, v⟩] := by
  rw [Point.sets_eq]
  simp [Point.parts, Expr.parts, Point.own, behind_of_ok hobject, behind_of_ok hvalue]

/-! ## Bound methods -/

/-- A function with the frame of a bound method is that method, bound to the instance. -/
theorem Point.Binds.bound {method : Closure} {i : InstanceId} {f : FrameId}
    (h : p.Binds method i f) {e : Expr} (htask : p.task = .expr e) (hp : root.Reaches p)
    {stamp : Nat} {vs : List Value}
    (hcall : Visited root T seat ⟨k, .call (.function { method with frame := f } stamp) vs, m⟩) :
    Closure.Bound root T m.store { method with frame := f } i := by
  rcases hcall.task.1 with ⟨-, hlt, hbare, -⟩ | ⟨i', hbound⟩
  · -- The frame of a local function has no `this`, and this one has it wherever it is there.
    have horder := (hp.order hcall.reached).imp id
      (Or.imp id (Or.imp Before.precedes Before.precedes))
    have hequipped := (Point.Equips.of_expr h htask).equipped (.inl rfl) horder hlt
    rw [hbare] at hequipped
    cases hequipped
  · obtain ⟨p', g, hp', h', -⟩ := hbound.method
    obtain ⟨-, rfl⟩ := h.unique hp hp' h'
    exact hbound

/-- The body of a bound method runs in a frame inside that of the instance. -/
theorem Closure.Bound.enter {closure : Closure} {i : InstanceId}
    (h : closure.Bound root T m.store i) (vs : List Value) :
    (m.enter closure vs).store.parent? (m.enter closure vs).env = some closure.frame ∧
      (m.enter closure vs).store.own? closure.frame "this" = some (.instance i) :=
  ⟨m.store.parent?_newFrame_self _, (m.store.steady_newFrame _).own_this h.this⟩

/-- A `this` is what the frame has to which its distance leads. -/
theorem Expr.eval_this {keyword : Occurrence} {d : Nat} {e f : FrameId} {v : Value}
    (hname : keyword.name.text = "this") (hplace : m.table[keyword.id]? = some (d + 1))
    (he : m.store.ancestor? m.env d = some e) (hf : m.store.parent? e = some f)
    (hthis : m.store.own? f "this" = some v) :
    (Expr.this keyword).eval (invoke k) m = .ok v m := by
  have hnamed : m.store.namedAt? m.env (d + 1) keyword.name.text = some v := by
    rw [Store.namedAt?, Store.ancestor?_succ he hf, hname]
    exact hthis
  show read keyword m = _
  rw [read_eq, Machine.lookUp, hplace]
  dsimp only
  rw [Store.getAt, hnamed]
  rfl

/-! ## Calls of classes -/

/-- The number of arguments that a class takes is that of the initializer in its lineage. -/
theorem Class.arity_eq (cls : Class) :
    cls.arity = (cls.lineage.findSome? (·.methods.get? "init")).elim 0 Closure.arity := by
  rw [← Class.findMethod_eq, Class.arity]
  cases cls.findMethod "init" <;> rfl

/-- A class that is called with as many arguments as it takes makes an instance, and with
    others the call fails. -/
theorem invoke_class_eq (k : Nat) (cls : Class) (paren : Lexeme) (vs : List Value) (m : Machine) :
    invoke (k + 1) (.class cls) paren vs m =
      if cls.arity = vs.length then
        instantiate (Stmt.listExec (invoke k) k) cls paren vs m
      else .error (.error ⟨paren.line, .wrongArity cls.arity vs.length⟩) m := by
  show (checkArity paren cls.arity vs.length >>= fun _ => _) m = _
  by_cases harity : cls.arity = vs.length
  · rw [if_pos harity]
    exact bind_of_ok (checkArity_of_eq paren harity m) _
  · rw [if_neg harity, checkArity, if_neg harity]
    rfl

/-! ## Runs of accepted programs -/

/-- A run begins on a grounded machine, with a tree as the grammar has it. -/
theorem Point.grounded_start {source : String} {program : List Stmt} {A : Table}
    (h : Mode.check parseProgram resolveProgram source = .ok (program, A)) (out : Sink)
    (clock : Nat → Option Float) (fuel : Nat) :
    (Point.start out clock fuel program A).Grounded := by
  obtain ⟨-, hparsed, -⟩ := Mode.check_eq_ok.mp h
  have hmachine := Machine.grounded_start out clock
  exact ⟨⟨hmachine.store, hmachine.env⟩, (parseProgram_fresh hparsed).1⟩

/-- In a run that began without instances, the field of an instance is what was set last. -/
theorem Point.Comes.field? {log : List FieldSet} {object : Expr} {property : Lexeme} {v : Value}
    (hroot : root.Grounded) (hnone : ∀ i name, root.machine.store.field? i name = none)
    (h : root.Comes log ⟨k, .expr (.get object property), m⟩)
    (hobject : object.eval (invoke k) m = .ok v n) (i : InstanceId) (name : String) :
    n.store.field? i name =
      FieldSet.last? (log ++ Point.sets ⟨k, .expr object, m⟩) i name := by
  have hread := (hroot.reaches h.reaches).1
  have hleaves : Point.Leaves ⟨k, .expr object, m⟩ n := (after_of_ok hobject).symm
  have hwrote := (h.wrote hroot).trans (hleaves.wrote (hread.step .object).1)
  rw [hwrote i name, hnone i name, Option.or_none]

/-! ## Main statement -/

/-- In every run of an accepted program:
    every point comes up behind a log of what was set so far;
    a property that is read is the value that was given last to the field of that name of
    that very instance, if there was one, and else the method of that name of the first class
    in the lineage of its class that has one, bound to the instance, and else an undefined
    property;
    the function that is yielded where a method is bound runs its body, wherever it is called,
    in a frame inside that of the instance, and a `this` that leads one link out of the frame
    of the body is the instance;
    setting a property gives a value to that field of that instance, and to no other one, and
    leaves classes and frames as they are;
    a class takes as many arguments as the `init` that is found in its lineage, or none, and
    makes an instance of its own;
    and all these classes were made where they are declared, with the last one of the
    methods of a name. -/
theorem properties_follow_one_order {source : String} {program : List Stmt} {A : Table}
    (haccepted : Mode.check parseProgram resolveProgram source = .ok (program, A))
    (out : Sink) (clock : Nat → Option Float) (fuel : Nat) {root : Point}
    (hroot : root = .start out clock fuel program A) :
    (∀ q, root.Reaches q ↔ ∃ log, root.Comes log q) ∧
    (∀ log k object property m i n, root.Comes log ⟨k, .expr (.get object property), m⟩ →
      object.eval (invoke k) m = .ok (.instance i) n →
      ∃ cls written, n.store.class? i = some cls ∧
        written = log ++ Point.sets ⟨k, .expr object, m⟩ ∧
        (∀ c ∈ cls.lineage, ∃ declared, root.Reaches declared ∧ declared.Declares c) ∧
        (∀ v, FieldSet.last? written i property.text = some v →
          (Expr.get object property).eval (invoke k) m = .ok v n) ∧
        (FieldSet.last? written i property.text = none →
          (∀ method, cls.lineage.findSome? (·.methods.get? property.text) = some method →
            ∃ f stamp l, Point.Binds ⟨k, .expr (.get object property), m⟩ method i f ∧
              (Expr.get object property).eval (invoke k) m =
                .ok (.function { method with frame := f } stamp) l) ∧
          ((∀ c ∈ cls.lineage, c.methods.get? property.text = none) →
            ∃ fault, (Expr.get object property).eval (invoke k) m =
                .error (.error ⟨property.line, fault⟩) n ∧
              fault.message = "Undefined property '" ++ property.text ++ "'."))) ∧
    (∀ p e method i f, root.Reaches p → p.task = .expr e → p.Binds method i f →
      ∀ k stamp vs m,
        root.Reaches ⟨k, .call (.function { method with frame := f } stamp) vs, m⟩ →
        m.store.own? f "this" = some (.instance i) ∧
        ∀ body, Point.Step ⟨k, .call (.function { method with frame := f } stamp) vs, m⟩ body →
          body.task = .stmts method.decl.body ∧
          body.machine.store.parent? body.machine.env = some f ∧
          ∀ j keyword n d, body.Reaches ⟨j, .expr (.this keyword), n⟩ →
            A[keyword.id]? = some (d + 1) →
            n.store.ancestor? n.env d = some body.machine.env →
            (Expr.this keyword).eval (invoke j) n = .ok (.instance i) n) ∧
    (∀ k object property value m i n v l,
      root.Reaches ⟨k, .expr (.set object property value), m⟩ →
      object.eval (invoke k) m = .ok (.instance i) n → value.eval (invoke k) n = .ok v l →
      Point.sets ⟨k, .expr (.set object property value), m⟩ =
        Point.sets ⟨k, .expr object, m⟩ ++ Point.sets ⟨k, .expr value, n⟩ ++
          [⟨i, property.text, v⟩] ∧
      ∃ instances, (Expr.set object property value).eval (invoke k) m =
          .ok v { l with store := { l.store with instances } } ∧
        ∀ j, Store.class? { l.store with instances } j = l.store.class? j ∧
          ∀ name, Store.field? { l.store with instances } j name =
            if j = i ∧ name = property.text then some v else l.store.field? j name) ∧
    ∀ k cls vs m paren, root.Reaches ⟨k + 1, .call (.class cls) vs, m⟩ →
      (∀ c ∈ cls.lineage, ∃ declared, root.Reaches declared ∧ declared.Declares c) ∧
      ∃ takes, takes = (cls.lineage.findSome? (·.methods.get? "init")).elim 0 Closure.arity ∧
        invoke (k + 1) (.class cls) paren vs m =
          (if takes = vs.length then instantiate (Stmt.listExec (invoke k) k) cls paren vs m
          else .error (.error ⟨paren.line, .wrongArity takes vs.length⟩) m) ∧
        ∀ v n, invoke (k + 1) (.class cls) paren vs m = .ok v n →
          v = .instance m.store.instances.size ∧
            n.store.class? m.store.instances.size = some cls := by
  have hgrounded : root.Grounded := by
    rw [hroot]
    exact Point.grounded_start haccepted out clock fuel
  have hready : Point.Ready root root := by
    rw [hroot]
    exact Point.ready_start out clock fuel program A
  have hvisited (p : Point) (hp : root.Reaches p) : ∃ seat, Visited root A seat p := by
    subst hroot
    exact Point.visited_of_accepted haccepted out clock fuel hp
  have hnone (i : InstanceId) (name : String) : root.machine.store.field? i name = none := by
    rw [hroot]
    rfl
  refine ⟨fun q => Point.reaches_iff_comes,
    fun log k object property m i n hcomes hobject => ?_,
    fun p e method i f hp htask hbinds k stamp vs m hcalled => ?_,
    fun k object property value m i n v l hreached hobject hvalue => ?_,
    fun k cls vs m paren hreached => ?_⟩
  · have hfield := hcomes.field? hgrounded hnone hobject i property.text
    have hread := (hgrounded.reaches hcomes.reaches).1
    obtain ⟨-, hi⟩ := (object.grounds (invoke_grounds k) hread.task hread.machine).ok hobject
    obtain ⟨cls, hcls⟩ := Store.exists_class? hi
    have hmethod := Store.method?_of_class? hcls property.text
    have hheld := ((hready.reaches hcomes.reaches).reaches (.single .object)).kept _ _ hobject
    have hdeclared : cls.Declared root := hheld.1.classes i cls hcls
    refine ⟨cls, _, hcls, rfl, hdeclared, fun v hlast => ?_, fun hlast => ⟨fun method hfound => ?_,
      fun hnowhere => ?_⟩⟩
    · rw [Expr.eval_get property hobject, readProperty_eq, hfield, hlast]
      rfl
    · have hbinds : Point.Binds ⟨k, .expr (.get object property), m⟩ method i
          n.store.frames.size :=
        .property hobject (hfield.trans hlast) (hmethod.trans hfound)
      obtain ⟨stamp, l, hrun, -⟩ := hbinds.eval rfl
      exact ⟨_, stamp, l, hbinds, hrun⟩
    · refine ⟨.undefinedProperty property.text, ?_, rfl⟩
      rw [Expr.eval_get property hobject, readProperty_eq, hfield, hlast, hmethod,
        List.findSome?_eq_none_iff.mpr hnowhere]
      rfl
  · obtain ⟨seat, hcall⟩ := hvisited _ hcalled
    have hbound := hbinds.bound htask hp hcall
    refine ⟨hbound.this, fun body hbody => ?_⟩
    have hgroundedBody := (hgrounded.reaches (hcalled.tail hbody)).1
    cases hbody with
    | function harity hdepth =>
      obtain ⟨haround, hthis⟩ := hbound.enter vs
      refine ⟨rfl, haround, fun j keyword n d hreaches hplace he => ?_⟩
      obtain ⟨seat', hn⟩ := hvisited _ ((hcalled.tail (.function harity hdepth)).trans hreaches)
      obtain ⟨hkeyword, hgoes⟩ := hgroundedBody.reaches hreaches
      -- The run of the body keeps its frame and the receiver in the frame around it.
      have hsteady := hgoes.onward.toSteady
      refine Expr.eval_this hkeyword.task ?_ he (hsteady.parent? haround) (hsteady.own_this hthis)
      rw [hn.rooted.table]
      exact hplace
  · refine ⟨Expr.sets_set property hobject hvalue, _, Expr.eval_set property hobject hvalue,
      fun j => ⟨l.store.class?_setField i j property.text v, fun name => ?_⟩⟩
    have hset := (hgrounded.reaches hreached).1
    obtain ⟨hgoes, hi⟩ :=
      (object.grounds (invoke_grounds k) hset.task.1 hset.machine).ok hobject
    obtain ⟨hgoes', -⟩ :=
      (value.grounds (invoke_grounds k) hset.task.2 (hgoes.grounded hset.machine)).ok hvalue
    have hthere := Nat.lt_of_lt_of_le hi hgoes'.store.onward.instances
    have hfield := l.store.field?_setField i j property.text name v
    simp only [hthere, and_true] at hfield
    exact hfield
  · have hcall : Point.Ready root _ := hready.reaches hreached
    exact ⟨hcall.task.1, cls.arity, cls.arity_eq, invoke_class_eq k cls paren vs m,
      fun v n hrun => invoke_class_born hrun⟩

/-- A class inherits a method that was declared twice, and a field of an instance gets the
    name of the method behind the back of a function that was made of it. -/
def shadowing : List Stmt :=
  [.class ⟨"A", 1⟩ none [⟨⟨"m", 1⟩, [], [.return ⟨"return", 1⟩ (some (.literal .nil))]⟩,
      ⟨⟨"m", 1⟩, [], [.return ⟨"return", 1⟩ (some (.this ⟨0, ⟨"this", 1⟩⟩))]⟩],
    .class ⟨"B", 1⟩ (some ⟨1, ⟨"A", 1⟩⟩) [],
    .var ⟨"b", 1⟩ (some (.call (.name ⟨2, ⟨"B", 1⟩⟩) ⟨")", 1⟩ [])),
    .var ⟨"f", 1⟩ (some (.get (.name ⟨3, ⟨"b", 1⟩⟩) ⟨"m", 1⟩)),
    .expression (.set (.name ⟨4, ⟨"b", 1⟩⟩) ⟨"m", 1⟩ (.literal (.bool true))),
    .print (.get (.name ⟨5, ⟨"b", 1⟩⟩) ⟨"m", 1⟩),
    .expression (.call (.name ⟨6, ⟨"f", 1⟩⟩) ⟨")", 1⟩ [])]

/-- The distance of the `this` in `shadowing`. -/
def shadowingTable : Table := Std.TreeMap.insert ∅ 0 1

/-- The property is the field from then on, and the function has the second method and still
    the instance. -/
theorem properties_follow_one_order_shadowing : ∃ (log : List FieldSet) (m n m' : Machine)
    (closure : Closure),
    Mode.check parseProgram resolveProgram
        ("class A\x7bm()\x7breturn nil;\x7dm()\x7breturn this;\x7d\x7dclass B<A\x7b\x7d" ++
          "var b=B();var f=b.m;b.m=true;print b.m;f();") = .ok (shadowing, shadowingTable) ∧
      (Point.start .unlimited (fun _ => none) 1 shadowing shadowingTable).Comes log
        ⟨1, .expr (.get (.name ⟨5, ⟨"b", 1⟩⟩) ⟨"m", 1⟩), m⟩ ∧
      (Expr.get (.name ⟨5, ⟨"b", 1⟩⟩) ⟨"m", 1⟩).eval (invoke 1) m = .ok (.bool true) n ∧
      (Point.start .unlimited (fun _ => none) 1 shadowing shadowingTable).Reaches
        ⟨1, .call (.function closure 2) [], m'⟩ ∧
      closure.decl.body = [.return ⟨"return", 1⟩ (some (.this ⟨0, ⟨"this", 1⟩⟩))] ∧
      m'.store.own? closure.frame "this" = some (.instance 0) := by
  -- The field has been set where the property is printed.
  obtain ⟨log, m, n, hcomes, hobject, hlast⟩ : ∃ (log : List FieldSet) (m n : Machine),
      (Point.start .unlimited (fun _ => none) 1 shadowing shadowingTable).Comes log
          ⟨1, .expr (.get (.name ⟨5, ⟨"b", 1⟩⟩) ⟨"m", 1⟩), m⟩ ∧
        (Expr.name ⟨5, ⟨"b", 1⟩⟩).eval (invoke 1) m = .ok (.instance 0) n ∧
        FieldSet.last? (log ++ Point.sets ⟨1, .expr (.name ⟨5, ⟨"b", 1⟩⟩), m⟩) 0 "m" =
          some (.bool true) := by
    apply Exists.intro
    apply Exists.intro
    apply Exists.intro
    apply And.intro
    · apply Point.Comes.statements (ok_of_answer? (by cbv))
      apply Point.Comes.statements (ok_of_answer? (by cbv))
      apply Point.Comes.statements (ok_of_answer? (by cbv))
      apply Point.Comes.statements (ok_of_answer? (by cbv))
      apply Point.Comes.statements (ok_of_answer? (by cbv))
      exact .first rfl (.first rfl .here)
    · exact ⟨ok_of_answer? (by cbv), by cbv⟩
  -- The method was bound before that, and is called behind it.
  obtain ⟨m₁, l, m', hread, hheld, hfield, hmethod, hsize, hcalled⟩ : ∃ m₁ l m',
      (Point.start .unlimited (fun _ => none) 1 shadowing shadowingTable).Reaches
          ⟨1, .expr (.get (.name ⟨3, ⟨"b", 1⟩⟩) ⟨"m", 1⟩), m₁⟩ ∧
        (Expr.name ⟨3, ⟨"b", 1⟩⟩).eval (invoke 1) m₁ = .ok (.instance 0) l ∧
        l.store.field? 0 "m" = none ∧
        l.store.method? 0 "m" = some ⟨⟨⟨"m", 1⟩, [],
          [.return ⟨"return", 1⟩ (some (.this ⟨0, ⟨"this", 1⟩⟩))]⟩, Store.globals, false⟩ ∧
        l.store.frames.size = 2 ∧
        (Point.start .unlimited (fun _ => none) 1 shadowing shadowingTable).Reaches
          ⟨1, .call (.function ⟨⟨⟨"m", 1⟩, [],
            [.return ⟨"return", 1⟩ (some (.this ⟨0, ⟨"this", 1⟩⟩))]⟩, 2, false⟩ 2) [], m'⟩ := by
    apply Exists.intro
    apply Exists.intro
    apply Exists.intro
    apply And.intro
    · refine .head (.statements (ok_of_answer? (by cbv))) ?_
      refine .head (.statements (ok_of_answer? (by cbv))) ?_
      refine .head (.statements (ok_of_answer? (by cbv))) ?_
      exact .head .statement (.single .var)
    · refine ⟨ok_of_answer? (by cbv), by cbv, by cbv, by cbv, ?_⟩
      refine .head (.statements (ok_of_answer? (by cbv))) ?_
      refine .head (.statements (ok_of_answer? (by cbv))) ?_
      refine .head (.statements (ok_of_answer? (by cbv))) ?_
      refine .head (.statements (ok_of_answer? (by cbv))) ?_
      refine .head (.statements (ok_of_answer? (by cbv))) ?_
      refine .head (.statements (ok_of_answer? (by cbv))) ?_
      refine .head .statement (.head .expression ?_)
      exact .single (.called (ok_of_answer? (by cbv)) rfl)
  have hbinds := @Point.Binds.property 1 _ ⟨"m", 1⟩ m₁ 0 l _ hheld hfield hmethod
  rw [hsize] at hbinds
  have haccepted : Mode.check parseProgram resolveProgram
      ("class A\x7bm()\x7breturn nil;\x7dm()\x7breturn this;\x7d\x7dclass B<A\x7b\x7d" ++
        "var b=B();var f=b.m;b.m=true;print b.m;f();") = .ok (shadowing, shadowingTable) :=
    Mode.check_eq_ok.mpr ⟨by cbv, by cbv, by cbv⟩
  obtain ⟨-, hreads, hcalls, -⟩ :=
    properties_follow_one_order haccepted .unlimited (fun _ => none) 1 rfl
  obtain ⟨cls, written, -, rfl, -, hset, -⟩ := hreads log 1 _ _ m 0 n hcomes hobject
  obtain ⟨hthis, -⟩ := hcalls _ _ _ 0 2 hread rfl hbinds 1 2 [] m' hcalled
  exact ⟨log, m, n, m', _, haccepted, hcomes, hset _ hlast, hcalled, rfl, hthis⟩

end Lox
