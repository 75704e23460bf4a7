/-
  Lox.Proofs.Properties.Logs

  The fields that a run sets, one after the other.

    * `Point.sets` — what is set in the course of a point: in its parts, one after the
      other, and then by the point itself if it is a set expression;
    * `Point.Comes` — a point comes up in the course of another one, behind what was set
      there so far;
    * `Machine.Wrote` — the fields are those of the first machine, with the values that
      were set last;
    * `RunM.SetsNothing` — actions that set no field.
-/
import Lox.Proofs.Evolution
import Lox.Proofs.Operators
import Lox.Proofs.Scoping.Parts
import Lox.Proofs.Stores

namespace Lox

open RunM

/-! ## Logs -/

/-- A field of an instance is given a value. -/
structure FieldSet where
  object : InstanceId
  name : String
  value : Value

/-- The value that was given last to the field of a name. -/
def FieldSet.last? (log : List FieldSet) (i : InstanceId) (name : String) : Option Value :=
  (log.reverse.find? fun set => set.object = i ∧ set.name = name).map (·.value)

/-- What the point itself sets, behind its parts. -/
def Point.own (p : Point) : List FieldSet :=
  match p.task with
  | .expr (.set object property value) =>
    (object.eval (invoke p.bound)).behind p.machine fun o m =>
      match o with
      | .instance i => (value.eval (invoke p.bound)).behind m fun v _ => [⟨i, property.text, v⟩]
      | _ => []
  | _ => []

/-- What is set in the course of a point, one after the other. -/
def Point.sets (p : Point) : List FieldSet :=
  p.parts.attach.flatMap (fun q => sets q.1) ++ p.own
termination_by p.rank
decreasing_by exact (Point.mem_parts.mp q.2).rank_lt

theorem Point.sets_eq (p : Point) : p.sets = p.parts.flatMap Point.sets ++ p.own := by
  rw [Point.sets]
  simp

/-- The second point comes up in the course of the first one, behind what is in the log. -/
inductive Point.Comes : Point → List FieldSet → Point → Prop
  | here {p} : Comes p [] p
  | inside {p q r before later log} : p.parts = before ++ q :: later → Comes q log r →
      Comes p (before.flatMap Point.sets ++ log) r

variable {p q r : Point} {m n l : Machine} {log rest : List FieldSet}

theorem Point.Comes.reaches (h : p.Comes log q) : p.Reaches q := by
  induction h with
  | here => exact .refl
  | @inside p q r before later log hparts _ ih =>
    have hmem : q ∈ p.parts := by
      rw [hparts]
      exact List.mem_append_right _ List.mem_cons_self
    exact .head (Point.mem_parts.mp hmem) ih

/-- Whatever comes up comes up behind some log. -/
theorem Point.reaches_iff_comes : p.Reaches q ↔ ∃ log, p.Comes log q := by
  refine ⟨fun h => ?_, fun ⟨log, h⟩ => h.reaches⟩
  induction h using Relation.ReflTransGen.head_induction_on with
  | refl => exact ⟨[], .here⟩
  | head hstep _ ih =>
    obtain ⟨log, hcomes⟩ := ih
    obtain ⟨before, later, hparts⟩ := List.append_of_mem (Point.mem_parts.mpr hstep)
    exact ⟨_, .inside hparts hcomes⟩

/-- The first part of a point comes up at once. -/
theorem Point.Comes.first {later : List Point} (hparts : p.parts = q :: later)
    (h : q.Comes log r) : p.Comes log r :=
  @Point.Comes.inside p q r [] later log hparts h

/-- Later statements come up behind what the first one set. -/
theorem Point.Comes.statements {k : Nat} {s : Stmt} {ss : List Stmt}
    (hfirst : s.exec (invoke k) k m = .ok .normal n) (h : Point.Comes ⟨k, .stmts ss, n⟩ log r) :
    Point.Comes ⟨k, .stmts (s :: ss), m⟩ (Point.sets ⟨k, .stmt s, m⟩ ++ log) r := by
  have hparts : Point.parts ⟨k, .stmts (s :: ss), m⟩ =
      [⟨k, .stmt s, m⟩] ++ ⟨k, .stmts ss, n⟩ :: [] := by
    simp only [Point.parts, behind_of_ok hfirst, List.singleton_append]
  have hcomes := Point.Comes.inside hparts h
  rwa [List.flatMap_singleton] at hcomes

/-! ## The last one counts -/

theorem FieldSet.last?_append (log rest : List FieldSet) (i : InstanceId) (name : String) :
    last? (log ++ rest) i name = (last? rest i name).or (last? log i name) := by
  unfold last?
  rw [List.reverse_append, List.find?_append, Option.map_or]

/-- The fields of the second machine are those of the first one, with the values that were
    given last. -/
def Machine.Wrote (m : Machine) (log : List FieldSet) (n : Machine) : Prop :=
  ∀ i name, n.store.field? i name = (FieldSet.last? log i name).or (m.store.field? i name)

/-- No field was set. -/
abbrev Machine.SameFields (m n : Machine) : Prop := m.Wrote [] n

theorem Machine.SameFields.of_fields
    (h : ∀ i name, n.store.field? i name = m.store.field? i name) : m.SameFields n := h

theorem Machine.SameFields.refl (m : Machine) : m.SameFields m := fun _ _ => rfl

theorem Machine.Wrote.trans (hml : m.Wrote log l) (hln : l.Wrote rest n) :
    m.Wrote (log ++ rest) n := by
  intro i name
  rw [hln i name, hml i name, FieldSet.last?_append, Option.or_assoc]

theorem Machine.Wrote.same (hml : m.Wrote log l) (hln : l.SameFields n) : m.Wrote log n := by
  have h := hml.trans hln
  rwa [List.append_nil] at h

/-- A new instance has no fields, as it had none before. -/
theorem Store.sameFields_newInstance (s : Store) (cls : Class) (i : InstanceId) (name : String) :
    (s.newInstance cls).2.field? i name = s.field? i name := by
  rw [Store.field?_newInstance]
  split
  · next hi =>
    subst hi
    simp [Store.field?]
  · rfl

/-- A field of an instance that is there is set. -/
theorem Machine.wrote_setField {i : InstanceId} (hi : i < m.store.instances.size) (name : String)
    (v : Value) : m.Wrote [⟨i, name, v⟩] { m with store := m.store.setField i name v } := by
  intro j other
  show (m.store.setField i name v).field? j other = _
  rw [Store.field?_setField]
  by_cases hset : j = i ∧ other = name
  · obtain ⟨rfl, rfl⟩ := hset
    simp [FieldSet.last?, hi]
  · rw [if_neg fun h => hset ⟨h.1, h.2.1⟩]
    have hother : ¬(i = j ∧ name = other) := fun h => hset ⟨h.1.symm, h.2.symm⟩
    simp [FieldSet.last?, hother]

/-! ## Actions that set no field -/

/-- However the action ends, it has set no field. -/
abbrev RunM.SetsNothing {α : Type} (x : RunM α) : Prop := Respects Machine.SameFields x

namespace RunM.SetsNothing

variable {α β : Type} {x : RunM α} {f : α → RunM β}

theorem pure (a : α) : SetsNothing (pure a : RunM α) := fun m => .refl m

theorem throw (halt : Halt) : SetsNothing (throw halt : RunM α) := fun m => .refl m

/-- Behind a first action no field is set. -/
theorem behind (hf : ∀ a, SetsNothing (f a)) (m : Machine) :
    (x.after m).SameFields ((x >>= f).after m) := by
  cases hrun : x m with
  | ok a n =>
    rw [after_of_ok hrun, after_bind_of_ok hrun]
    exact hf a n
  | error halt n =>
    rw [after_of_error hrun, after_bind_of_error hrun]
    exact .refl n

theorem bind (hx : SetsNothing x) (hf : ∀ a, SetsNothing (f a)) : SetsNothing (x >>= f) :=
  fun m => (hx m).same (behind hf m)

theorem get {f : Machine → RunM β} (hf : ∀ m, SetsNothing (f m)) : SetsNothing (get >>= f) :=
  fun m => hf m m

theorem constant {P : α → Prop} (h : x.Constant P) : SetsNothing x := by
  rcases h with ⟨a, rfl, -⟩ | ⟨at_, fault, rfl⟩
  · exact .pure a
  · exact .throw _

theorem ofExcept (answer : Except RuntimeError α) : SetsNothing (RunM.ofExcept answer) := by
  cases answer with
  | ok a => exact .pure a
  | error e => exact .throw _

theorem read (use : Occurrence) : SetsNothing (RunM.read use) := by
  intro m
  unfold RunM.after
  rw [read_eq]
  exact ofExcept _ m

theorem define (name : String) (v : Value) : SetsNothing (RunM.define name v) :=
  .get fun _ _ => .of_fields fun _ _ => rfl

theorem write (use : Occurrence) (v : Value) : SetsNothing (RunM.write use v) := by
  intro m
  unfold RunM.after RunM.write
  cases target? m use with
  | none => exact .refl m
  | some f => exact .of_fields fun _ _ => rfl

theorem print (v : Value) : SetsNothing (RunM.print v) := by
  intro m
  unfold RunM.after RunM.print
  by_cases hwritten : (m.out.write (v.text m.store ++ "\n")).1 = true
  · rw [if_pos hwritten]
    exact .of_fields fun _ _ => rfl
  · rw [if_neg hwritten]
    exact .of_fields fun _ _ => rfl

theorem readClock : SetsNothing RunM.readClock := by
  intro m
  unfold RunM.after RunM.readClock
  cases m.clock m.ticks with
  | none => exact .refl m
  | some reading => exact .of_fields fun _ _ => rfl

theorem functionValue (closure : Closure) : SetsNothing (make (·.functionValue closure)) :=
  fun _ => .of_fields fun _ _ => rfl

theorem boundMethod (method : Closure) (i : InstanceId) : SetsNothing (Lox.boundMethod method i) :=
  .bind (fun _ => .of_fields fun _ _ => rfl) fun closure => .functionValue closure

theorem readProperty (i : InstanceId) (property : Lexeme) :
    SetsNothing (Lox.readProperty i property) := by
  refine .bind (fun m => .refl m) fun field => ?_
  cases field with
  | some v => exact .pure v
  | none =>
    refine .bind (fun m => .refl m) fun method => ?_
    cases method with
    | some method => exact .boundMethod method i
    | none => exact .throw _

theorem superMethod (keyword : Occurrence) (property : Lexeme) :
    SetsNothing (Lox.superMethod keyword property) := by
  have hbinding : SetsNothing (superBinding keyword) := by
    refine .get fun m => ?_
    split
    · exact .throw _
    · dsimp only
      split
      · exact .pure _
      · exact .throw _
  refine .bind hbinding ?_
  rintro ⟨parent, i⟩
  dsimp only
  split
  · exact .boundMethod _ i
  · exact .throw _

theorem defineFunction (decl : FunctionDecl) : SetsNothing (Lox.defineFunction decl) :=
  .get fun _ => .bind (.functionValue _) fun v => .define _ v

theorem defineClass (name : Lexeme) (superclass : Option Occurrence)
    (methods : List FunctionDecl) : SetsNothing (Lox.defineClass name superclass methods) := by
  have hclause : SetsNothing (superclassOf superclass) := by
    cases superclass with
    | none => exact .pure _
    | some use =>
      refine .bind (.read use) fun v => ?_
      split
      · exact .pure _
      · exact .throw _
  have hframe (parent : Option Class) : SetsNothing (methodFrame parent) := by
    cases parent with
    | none => exact .get fun _ => .pure _
    | some parent => exact .get fun _ _ => .of_fields fun _ _ => rfl
  refine .bind hclause fun parent => .bind (hframe parent) fun frame => ?_
  exact .bind (fun _ => .of_fields fun _ _ => rfl) fun stamp => .define _ _

end RunM.SetsNothing

end Lox
