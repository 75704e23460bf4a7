/-
  Lox.Proofs.Properties.Declared

  Where the classes of a run come from.

    * `methodTable_get?_eq` — of the declarations of a name in a class the last one counts;
    * `Point.Declares` — a class as it is made where it is declared;
    * `Class.Declared`, `Store.Declared` — a class and all its ancestors were made so at
      points of the run; all classes in a store were;
    * `RunM.KeepsDeclared` — an action that leaves only declared classes, and yields no
      others; all single actions are such, and so are class statements.
-/
import Lox.Proofs.Grounding.Stores
import Lox.Proofs.Methods.Visited

namespace Lox

open RunM

/-! ## Declarations of a class -/

/-- Of several methods of a name the last one is in the table. -/
theorem methodTable_get?_eq (frame : FrameId) (methods : List FunctionDecl) (called : String) :
    (methodTable frame methods).get? called =
      (methods.reverse.find? (·.name.text = called)).map
        (⟨·, frame, decide (called = "init")⟩) := by
  induction methods using List.reverseRecOn with
  | nil => rfl
  | append_singleton methods decl ih =>
    have htable : methodTable frame (methods ++ [decl]) =
        (methodTable frame methods).insert decl.name.text
          ⟨decl, frame, decide (decl.name.text = "init")⟩ :=
      List.foldl_concat _ _ _ _
    rw [htable, List.reverse_append, List.reverse_singleton, List.singleton_append,
      List.find?_cons]
    by_cases hname : decl.name.text = called
    · subst hname
      simp
    · rw [(methodTable frame methods).get?_insert_of_ne (Ne.symm hname), ih]
      simp [hname]

/-- The class is the one that is made at the point: it has the name, the superclass that the
    clause yields there, the next stamp, and of the methods of a name the one that was
    declared last. -/
def Point.Declares (p : Point) (cls : Class) : Prop :=
  ∃ name superclass methods frame n, p.task = .stmt (.class name superclass methods) ∧
    cls.name = name.text ∧ cls.stamp = p.machine.store.nextStamp ∧
    superclassOf superclass p.machine = .ok cls.superclass p.machine ∧
    Lox.methodFrame cls.superclass p.machine = .ok frame n ∧
    ∀ called, cls.methods.get? called =
      (methods.reverse.find? (·.name.text = called)).map
        (⟨·, frame, decide (called = "init")⟩)

section

variable (root : Point)

/-- The class and those that it inherits from were made where they are declared. -/
def Class.Declared (cls : Class) : Prop :=
  ∀ c ∈ cls.lineage, ∃ p, root.Reaches p ∧ p.Declares c

/-- A value that is a class is declared. -/
def Value.Declared : Value → Prop
  | .class cls => cls.Declared root
  | _ => True

/-- A value that a `return` carries is declared. -/
def Flow.Declared : Flow → Prop
  | .returned v => v.Declared root
  | _ => True

/-- All classes in the store are declared, those of instances too. -/
structure Store.Declared (s : Store) : Prop where
  values : s.All (Value.Declared root) fun _ _ => True
  classes : ∀ i cls, s.class? i = some cls → cls.Declared root

end

variable {root p q : Point} {m n : Machine} {s : Store} {α β : Type}

namespace Store.Declared

variable (hs : s.Declared root)
include hs

theorem define {f : FrameId} {name : String} {v : Value} (hv : v.Declared root) :
    (s.define f name v).Declared root :=
  ⟨hs.values.define hv, hs.classes⟩

theorem newFrame {frame : Frame}
    (hvars : ∀ name v, frame.vars.get? name = some v → v.Declared root) :
    (s.newFrame frame).2.Declared root :=
  ⟨hs.values.newFrame hvars, hs.classes⟩

theorem newInstance {cls : Class} (hcls : cls.Declared root) :
    (s.newInstance cls).2.Declared root := by
  refine ⟨hs.values.newInstance fun _ _ _ => trivial, fun i c hc => ?_⟩
  rw [Store.class?_newInstance] at hc
  split at hc
  · cases hc
    exact hcls
  · exact hs.classes i c hc

theorem setField {i : InstanceId} {name : String} {v : Value} (hv : v.Declared root) :
    (s.setField i name v).Declared root := by
  refine ⟨hs.values.setField hv, fun j c hc => ?_⟩
  rw [Store.class?_setField] at hc
  exact hs.classes j c hc

theorem newStamp : s.newStamp.2.Declared root := ⟨hs.values.newStamp, hs.classes⟩

/-- The frame of a bound method has an instance in it, and no class. -/
theorem bindMethod (method : Closure) (i : InstanceId) :
    (s.bindMethod method i).2.Declared root := by
  refine hs.newFrame fun name v hv => ?_
  obtain ⟨-, rfl⟩ := Bindings.get?_single_eq_some hv
  trivial

end Store.Declared

theorem Value.Free.declared {v : Value} (h : v.Free) : v.Declared root := by
  cases v with
  | «class» cls => exact h.elim
  | _ => trivial

/-! ## Actions -/

section

variable (root : Point)

/-- Where the action succeeds, all classes are declared, and its answer is as told. -/
def RunM.KeepsDeclared (x : RunM α) (m : Machine) (Q : α → Prop) : Prop :=
  ∀ a n, x m = .ok a n → n.store.Declared root ∧ Q a

end

namespace RunM.KeepsDeclared

variable {x : RunM α} {f : α → RunM β} {P Q : α → Prop} {R : β → Prop}

theorem bind (hx : KeepsDeclared root x m Q)
    (hf : ∀ a n, x m = .ok a n → n.store.Declared root → Q a → KeepsDeclared root (f a) n R) :
    KeepsDeclared root (x >>= f) m R := by
  intro b n' hrun
  obtain ⟨a, n, hfirst, hrest⟩ := bind_ok hrun
  obtain ⟨hn, ha⟩ := hx a n hfirst
  exact hf a n hfirst hn ha b n' hrest

theorem pure (hm : m.store.Declared root) {a : α} (ha : Q a) :
    KeepsDeclared root (pure a : RunM α) m Q := by
  rintro _ _ ⟨⟩
  exact ⟨hm, ha⟩

theorem throw {halt : Halt} : KeepsDeclared root (throw halt : RunM α) m Q :=
  fun _ _ h => by cases h

theorem constant (hx : x.Constant P) (hm : m.store.Declared root) (hQ : ∀ a, P a → Q a) :
    KeepsDeclared root x m Q := by
  rcases hx with ⟨a, rfl, ha⟩ | ⟨at_, fault, rfl⟩
  · exact .pure hm (hQ a ha)
  · exact .throw

theorem get {f : Machine → RunM β} (h : KeepsDeclared root (f m) m R) :
    KeepsDeclared root (get >>= f) m R :=
  h

theorem make {g : Store → α × Store} (hstore : (g m.store).2.Declared root)
    (ha : Q (g m.store).1) : KeepsDeclared root (RunM.make g) m Q := by
  rintro _ _ ⟨⟩
  exact ⟨hstore, ha⟩

theorem withFrame {g : FrameId} (h : KeepsDeclared root x { m with env := g } Q) :
    KeepsDeclared root (RunM.withFrame g x) m Q := by
  intro a n hrun
  obtain ⟨n', hinner, rfl⟩ := withFrame_ok hrun
  exact h a n' hinner

theorem deeper (h : KeepsDeclared root x { m with depth := m.depth + 1 } Q) :
    KeepsDeclared root (RunM.deeper x) m Q := by
  intro a n hrun
  obtain ⟨n', hinner, rfl⟩ := deeper_ok hrun
  exact h a n' hinner

/-! ### Names -/

theorem read (use : Occurrence) (hm : m.store.Declared root) :
    KeepsDeclared root (RunM.read use) m (Value.Declared root) := by
  intro v n hrun
  obtain ⟨hv, rfl⟩ := read_ok hrun
  obtain ⟨f, hf⟩ := Machine.own?_of_lookUp hv
  exact ⟨hm, hm.values.vars f _ v hf⟩

theorem define (name : String) {v : Value} (hm : m.store.Declared root) (hv : v.Declared root) :
    KeepsDeclared root (RunM.define name v) m fun _ => True := by
  rintro _ _ ⟨⟩
  exact ⟨hm.define hv, trivial⟩

theorem write (use : Occurrence) {v : Value} (hm : m.store.Declared root)
    (hv : v.Declared root) : KeepsDeclared root (RunM.write use v) m fun _ => True := by
  intro _ n hrun
  unfold RunM.write at hrun
  cases htarget : target? m use with
  | none => simp [htarget] at hrun
  | some f =>
    simp only [htarget] at hrun
    cases hrun
    exact ⟨hm.define hv, trivial⟩

/-! ### The world -/

theorem print (v : Value) (hm : m.store.Declared root) :
    KeepsDeclared root (RunM.print v) m fun _ => True := by
  intro _ n hrun
  unfold RunM.print at hrun
  dsimp only at hrun
  split at hrun
  · cases hrun
    exact ⟨hm, trivial⟩
  · cases hrun

theorem readClock (hm : m.store.Declared root) :
    KeepsDeclared root RunM.readClock m (Value.Declared root) := by
  intro _ n hrun
  unfold RunM.readClock at hrun
  split at hrun
  · cases hrun
    exact ⟨hm, trivial⟩
  · cases hrun

/-! ### Methods -/

theorem boundMethod (method : Closure) (i : InstanceId) (hm : m.store.Declared root) :
    KeepsDeclared root (Lox.boundMethod method i) m (Value.Declared root) := by
  have hbind : KeepsDeclared root (RunM.make (·.bindMethod method i)) m fun _ => True :=
    .make (hm.bindMethod method i) trivial
  exact hbind.bind fun closure n _ hn _ => .make hn.newStamp trivial

theorem readProperty (i : InstanceId) (property : Lexeme) (hm : m.store.Declared root) :
    KeepsDeclared root (Lox.readProperty i property) m (Value.Declared root) := by
  intro v n hrun
  rw [readProperty_eq] at hrun
  cases hfield : m.store.field? i property.text with
  | some w =>
    rw [hfield] at hrun
    cases hrun
    exact ⟨hm, hm.values.fields i _ _ hfield⟩
  | none =>
    rw [hfield] at hrun
    cases hmethod : m.store.method? i property.text with
    | some method =>
      rw [hmethod] at hrun
      exact boundMethod method i hm v n hrun
    | none =>
      rw [hmethod] at hrun
      cases hrun

theorem superMethod (keyword : Occurrence) (property : Lexeme) (hm : m.store.Declared root) :
    KeepsDeclared root (Lox.superMethod keyword property) m (Value.Declared root) := by
  have hbinding : KeepsDeclared root (superBinding keyword) m fun _ => True := by
    refine .get ?_
    split
    · exact .throw
    · dsimp only
      split
      · exact .pure hm trivial
      · exact .throw
  refine hbinding.bind ?_
  rintro ⟨parent, i⟩ n - hn -
  dsimp only
  split
  · exact .boundMethod _ i hn
  · exact .throw

/-! ### Declarations -/

theorem defineFunction (decl : FunctionDecl) (hm : m.store.Declared root) :
    KeepsDeclared root (Lox.defineFunction decl) m fun _ => True := by
  have hvalue : KeepsDeclared root (RunM.make (·.functionValue ⟨decl, m.env, false⟩)) m
      (Value.Declared root) := .make hm.newStamp trivial
  exact .get (hvalue.bind fun v n _ hn hv => .define _ hn hv)

end RunM.KeepsDeclared

open RunM (KeepsDeclared)

/-- A superclass clause changes nothing, and the class that it yields is declared: it was in a
    frame. -/
theorem declared_of_superclassOf {superclass : Option Occurrence} {parent : Option Class}
    (h : superclassOf superclass m = .ok parent n) (hm : m.store.Declared root) :
    n = m ∧ ∀ cls, parent = some cls → cls.Declared root := by
  cases superclass with
  | none =>
    cases h
    exact ⟨rfl, fun cls hcls => by cases hcls⟩
  | some use =>
    obtain ⟨found, rfl, hlookUp, rfl⟩ := superclassOf_ok h
    obtain ⟨f, hown⟩ := Machine.own?_of_lookUp hlookUp
    refine ⟨rfl, fun cls hcls => ?_⟩
    cases hcls
    exact hm.values.vars f _ _ hown

/-- The class that is made where it is declared, and its ancestors: they were made before. -/
theorem Point.Declares.declared {cls : Class} (h : p.Declares cls) (hp : root.Reaches p)
    (hm : p.machine.store.Declared root) : cls.Declared root := by
  intro c hc
  rw [Class.lineage_eq] at hc
  rcases List.mem_cons.mp hc with rfl | hc
  · exact ⟨p, hp, h⟩
  · -- The ancestors are the lineage of the superclass, which a frame held already.
    obtain ⟨name, superclass, methods, frame, n, -, -, -, hclause, -⟩ := h
    obtain ⟨-, hparent⟩ := declared_of_superclassOf hclause hm
    cases hsuper : cls.superclass with
    | none =>
      rw [hsuper] at hc
      cases hc
    | some parent =>
      rw [hsuper] at hc
      exact hparent parent hsuper c hc

/-- A class statement makes the class that it declares. -/
theorem keepsDeclared_defineClass {k : Nat} {name : Lexeme} {superclass : Option Occurrence}
    {methods : List FunctionDecl}
    (hp : root.Reaches ⟨k, .stmt (.class name superclass methods), m⟩)
    (hm : m.store.Declared root) :
    KeepsDeclared root (defineClass name superclass methods) m fun _ => True := by
  intro _ n hrun
  obtain ⟨parent, m₁, hclause, hrest⟩ := bind_ok hrun
  obtain ⟨rfl, hparent⟩ := declared_of_superclassOf hclause hm
  obtain ⟨frame, m₂, hframe, hbound⟩ := bind_ok hrest
  -- The frame around the methods holds `super` at most, and takes no stamp.
  obtain ⟨hstore, hstamp⟩ : m₂.store.Declared root ∧
      m₂.store.nextStamp = m₁.store.nextStamp := by
    cases parent with
    | none =>
      cases hframe
      exact ⟨hm, rfl⟩
    | some parent =>
      cases hframe
      refine ⟨hm.newFrame fun called v hv => ?_, rfl⟩
      obtain ⟨-, rfl⟩ := Bindings.get?_single_eq_some hv
      exact hparent parent rfl
  have hmade : Point.Declares ⟨k, .stmt (.class name superclass methods), m₁⟩
      ⟨m₂.store.nextStamp, name.text, methodTable frame methods, parent⟩ :=
    ⟨name, superclass, methods, frame, m₂, rfl, rfl, hstamp, hclause, hframe,
      methodTable_get?_eq frame methods⟩
  cases hbound
  exact ⟨hstore.newStamp.define (hmade.declared hp hm), trivial⟩

end Lox
