/-
  Lox.Proofs.Methods.Super

  A `super` means what it meant where its class was declared.

    * `Class.lineage` — a class and the classes it inherits from, in the order in which
      they are asked for a method;
    * `super_dispatches_statically` — the look-up behind a `super` begins at the
      superclass that the declaration around it found when it was run, and what it finds
      is bound to the instance of the method around it.
-/
import Lox.Proofs.Methods.Visited

namespace Lox

open RunM

/-! ## Looking for methods -/

/-- A class and the classes it inherits from. -/
def Class.lineage : Class → List Class
  | ⟨stamp, name, methods, superclass⟩ =>
    ⟨stamp, name, methods, superclass⟩ ::
      match superclass with
      | some parent => lineage parent
      | none => []

/-- The method of a class is that of the first one in its lineage that declares it. -/
theorem Class.findMethod_eq (name : String) (cls : Class) :
    cls.findMethod name = cls.lineage.findSome? (·.methods.get? name) := by
  match cls with
  | ⟨stamp, own, methods, superclass⟩ =>
    rw [Class.findMethod.eq_def, Class.lineage.eq_def]
    dsimp only
    rw [List.findSome?_cons]
    cases methods.get? name with
    | some method => rfl
    | none =>
      cases superclass with
      | none => rfl
      | some parent => exact Class.findMethod_eq name parent

/-- A method that is bound is a function of its own, whose frame has nothing but `this`. -/
theorem boundMethod_eq (method : Closure) (i : InstanceId) (m : Machine) :
    ∃ n, boundMethod method i m =
        .ok (.function { method with frame := m.store.frames.size } m.store.nextStamp) n ∧
      n.store.own? m.store.frames.size "this" = some (.instance i) ∧
      n.store.parent? m.store.frames.size = some method.frame := by
  have hown : (m.store.bindMethod method i).2.own? m.store.frames.size "this" =
      some (.instance i) :=
    m.store.own?_newFrame_self ⟨.single "this" (.instance i), some method.frame⟩ "this"
  exact ⟨_, rfl, hown, m.store.parent?_newFrame_self _⟩

/-! ## Main statement -/

/-- At every `super` that the run of an accepted program comes to, there are the point
    `declared` at which the class around it was declared and the point `call` at which the
    method around it was called:
    the frame of that call is `d` links out, as far as the table tells of the occurrence,
    and two links further is the frame that was made for the methods at `declared`, which
    has the class under `super` that the superclass clause yielded there;
    the method is looked for in the lineage of that class and bound to the `this` of the
    call; and if nobody in the lineage declares it, that is a fault at its name. -/
theorem super_dispatches_statically {source : String} {program : List Stmt} {A : Table}
    (haccepted : Mode.check parseProgram resolveProgram source = .ok (program, A))
    (out : Sink) (clock : Nat → Option Float) (fuel : Nat) {k : Nat} {keyword : Occurrence}
    {property : Lexeme} {m : Machine}
    (hreached : (Point.start out clock fuel program A).Reaches
      ⟨k, .expr (.super keyword property), m⟩) :
    ∃ declared call decl parent i e d,
      (Point.start out clock fuel program A).Reaches declared ∧
      declared.Derives decl parent ∧ keyword ∈ decl.supers ∧
      (Point.start out clock fuel program A).Reaches call ∧ call.Activates decl i e ∧
      A[keyword.id]? = some (d + 2) ∧ m.store.ancestor? m.env d = some e ∧
      m.store.ancestor? m.env (d + 2) = some declared.methodFrame ∧
      m.store.own? declared.methodFrame "super" = some (.class parent) ∧
      (∀ method, parent.lineage.findSome? (·.methods.get? property.text) = some method →
        ∃ g stamp n, (Expr.super keyword property).eval (invoke k) m =
            .ok (.function { method with frame := g } stamp) n ∧
          n.store.own? g "this" = some (.instance i) ∧
          n.store.parent? g = some method.frame) ∧
      ((∀ cls ∈ parent.lineage, cls.methods.get? property.text = none) →
        ∃ fault, (Expr.super keyword property).eval (invoke k) m =
            .error (.error ⟨property.line, fault⟩) m ∧
          fault.message = "Undefined property '" ++ property.text ++ "'.") := by
  obtain ⟨seat, hvisited⟩ := Point.visited_of_accepted haccepted out clock fuel hreached
  have hanchored : (Expr.super keyword property).Anchored A seat := hvisited.task
  obtain ⟨declared, decl, parent, call, i, e, d, hdeclared, hderives, hkeyword, hcallReached,
    hcall, htable, he, hframe, hsuper, hbinding⟩ := hvisited.place.super hvisited.rooted hanchored
  refine ⟨declared, call, decl, parent, i, e, d, hdeclared, hderives, hkeyword, hcallReached,
    hcall, htable, he, hframe, hsuper, fun method hmethod => ?_, fun hnowhere => ?_⟩
  · rw [← Class.findMethod_eq] at hmethod
    obtain ⟨n, hbound, hthis, haround⟩ := boundMethod_eq method i m
    refine ⟨m.store.frames.size, m.store.nextStamp, n, ?_, hthis, haround⟩
    show superMethod keyword property m = _
    rw [superMethod_eq hbinding, hmethod]
    exact hbound
  · have hmissing : parent.findMethod property.text = none := by
      rw [Class.findMethod_eq, List.findSome?_eq_none_iff]
      exact hnowhere
    refine ⟨.undefinedProperty property.text, ?_, rfl⟩
    show superMethod keyword property m = _
    rw [superMethod_eq hbinding, hmissing]
    rfl

/-- A function escapes from a method, and the name of the superclass is assigned before
    the function is called. -/
def escaping : List Stmt :=
  [.class ⟨"A", 1⟩ none [⟨⟨"m", 1⟩, [], []⟩],
    .class ⟨"B", 1⟩ (some ⟨0, ⟨"A", 1⟩⟩) [⟨⟨"n", 1⟩, [],
      [.function ⟨⟨"f", 1⟩, [], [.expression (.super ⟨1, ⟨"super", 1⟩⟩ ⟨"m", 1⟩)]⟩,
        .return ⟨"return", 1⟩ (some (.name ⟨2, ⟨"f", 1⟩⟩))]⟩],
    .var ⟨"g", 1⟩ (some (.call (.get (.call (.name ⟨3, ⟨"B", 1⟩⟩) ⟨")", 1⟩ []) ⟨"n", 1⟩)
      ⟨")", 1⟩ [])),
    .expression (.assign ⟨5, ⟨"A", 1⟩⟩ (.literal .nil)),
    .expression (.call (.name ⟨6, ⟨"g", 1⟩⟩) ⟨")", 1⟩ [])]

/-- The distances of the local names of `escaping`. -/
def escapingTable : Table := Std.TreeMap.insert (Std.TreeMap.insert ∅ 1 3) 2 0

/-- The `super` in the function means the class that had the name. -/
theorem super_dispatches_statically_escaping : ∃ (m : Machine),
    Mode.check parseProgram resolveProgram
        ("class A\x7bm()\x7b\x7d\x7dclass B<A\x7bn()\x7bfun f()\x7bsuper.m;\x7dreturn f;\x7d\x7d" ++
          "var g=B().n();A=nil;g();") = .ok (escaping, escapingTable) ∧
      (Point.start .unlimited (fun _ => none) 1 escaping escapingTable).Reaches
        ⟨0, .expr (.super ⟨1, ⟨"super", 1⟩⟩ ⟨"m", 1⟩), m⟩ ∧
      m.store.own? Store.globals "A" = some .nil ∧
      ∃ (declared : Point) (decl : FunctionDecl) (parent : Class),
        declared.Derives decl parent ∧ parent.name = "A" ∧
        ∃ method stamp n, (Expr.super ⟨1, ⟨"super", 1⟩⟩ ⟨"m", 1⟩).eval (invoke 0) m =
            .ok (.function method stamp) n ∧
          method.decl.name.text = "m" := by
  have htable : escapingTable[1]? = some 3 := by cbv
  have hdeclares : (Class.lineage ⟨0, "A", methodTable Store.globals [⟨⟨"m", 1⟩, [], []⟩], none⟩
      ).findSome? (·.methods.get? "m") = some ⟨⟨⟨"m", 1⟩, [], []⟩, Store.globals, false⟩ := by cbv
  obtain ⟨m, hreached, hnil, hclass⟩ :
      ∃ m, (Point.start .unlimited (fun _ => none) 1 escaping escapingTable).Reaches
          ⟨0, .expr (.super ⟨1, ⟨"super", 1⟩⟩ ⟨"m", 1⟩), m⟩ ∧
        m.store.own? Store.globals "A" = some .nil ∧
        m.store.namedAt? m.env 3 "super" =
          some (.class ⟨0, "A", methodTable Store.globals [⟨⟨"m", 1⟩, [], []⟩], none⟩) := by
    apply Exists.intro
    apply And.intro
    · -- Behind the declarations, the call and the assignment, `g` is called.
      refine .head (.statements (ok_of_answer? (by cbv))) ?_
      refine .head (.statements (ok_of_answer? (by cbv))) ?_
      refine .head (.statements (ok_of_answer? (by cbv))) ?_
      refine .head (.statements (ok_of_answer? (by cbv))) ?_
      refine .head .statement (.head .expression ?_)
      refine .head (.called (ok_of_answer? (a := .function ⟨_, 3, false⟩ 3) (by cbv)) rfl) ?_
      refine .head (.function rfl (by cbv)) ?_
      exact .head .statement (.single .expression)
    · exact ⟨by cbv, by cbv⟩
  have haccepted : Mode.check parseProgram resolveProgram
      ("class A\x7bm()\x7b\x7d\x7dclass B<A\x7bn()\x7bfun f()\x7bsuper.m;\x7dreturn f;\x7d\x7d" ++
        "var g=B().n();A=nil;g();") = .ok (escaping, escapingTable) :=
    Mode.check_eq_ok.mpr ⟨by cbv, by cbv, by cbv⟩
  obtain ⟨declared, call, decl, parent, i, e, d, -, hderives, -, -, -, hplace, -, hframe, hsuper,
    hfound, -⟩ := super_dispatches_statically haccepted .unlimited (fun _ => none) 1 hreached
  cases htable.symm.trans hplace
  rw [Store.namedAt?, hframe] at hclass
  cases hsuper.symm.trans hclass
  obtain ⟨g, stamp, n, hbound, -⟩ := hfound _ hdeclares
  exact ⟨m, haccepted, hreached, hnil, declared, decl, _, hderives, rfl, _, stamp, n, hbound, rfl⟩

end Lox
