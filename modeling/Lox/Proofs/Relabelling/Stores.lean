/-
  Lox.Proofs.Relabelling.Stores

  Values and stores with relabelled bodies.

  Relabelling a store changes nothing but the bodies of the closures in it, so every
  operation on stores can be done before or after it: `Store.relabel_define` and its
  companions say so, one for each operation.
-/
import Lox.Evaluation
import Lox.Proofs.Relabelling.Trees

namespace Lox

/-! ## Finite maps -/

namespace Bindings

variable {α β : Type}

/-- The map with changed values. -/
def map (f : α → β) (b : Bindings α) : Bindings β :=
  ⟨b.entries.map fun entry => (entry.1, f entry.2)⟩

@[simp] theorem map_empty (f : α → β) : (empty : Bindings α).map f = empty := rfl

@[simp] theorem map_single (f : α → β) (name : String) (value : α) :
    (single name value).map f = single name (f value) := rfl

@[simp] theorem get?_map (f : α → β) (b : Bindings α) (name : String) :
    (b.map f).get? name = (b.get? name).map f := by
  obtain ⟨entries⟩ := b
  show find? name (entries.map _) = (find? name entries).map f
  induction entries with
  | nil => rfl
  | cons entry rest ih =>
    rw [List.map_cons, find?, find?]
    split
    · rfl
    · exact ih

@[simp] theorem map_insert (f : α → β) (b : Bindings α) (name : String) (value : α) :
    (b.insert name value).map f = (b.map f).insert name (f value) := by
  obtain ⟨entries⟩ := b
  show Bindings.mk ((put name value entries).map _) = ⟨put name (f value) (entries.map _)⟩
  congr 1
  induction entries with
  | nil => rfl
  | cons entry rest ih =>
    rw [List.map_cons, put, put]
    split
    · rfl
    · rw [List.map_cons, ih]

theorem map_same {f : α → α} (h : ∀ a, f a = a) (b : Bindings α) : b.map f = b := by
  obtain ⟨entries⟩ := b
  show Bindings.mk (entries.map _) = _
  rw [List.map_id'' fun entry => by rw [h]]

end Bindings

/-! ## Values -/

section

variable (r : Relabelling)

def Closure.relabel (c : Closure) : Closure := { c with decl := c.decl.relabel r }

def Class.relabel : Class → Class
  | ⟨stamp, name, methods, none⟩ => ⟨stamp, name, methods.map (Closure.relabel r), none⟩
  | ⟨stamp, name, methods, some parent⟩ =>
    ⟨stamp, name, methods.map (Closure.relabel r), some parent.relabel⟩

def Value.relabel : Value → Value
  | .function closure stamp => .function (closure.relabel r) stamp
  | .class cls => .class (cls.relabel r)
  | v => v

def Flow.relabel : Flow → Flow
  | .returned v => .returned (v.relabel r)
  | flow => flow

def Halt.relabel : Halt → Halt
  | .error e => .error (e.relabel r)
  | halt => halt

def Frame.relabel (frame : Frame) : Frame := { frame with vars := frame.vars.map (Value.relabel r) }

def Instance.relabel (object : Instance) : Instance :=
  ⟨object.cls.relabel r, object.fields.map (Value.relabel r)⟩

def Store.relabel (s : Store) : Store :=
  { s with frames := s.frames.map (Frame.relabel r)
           instances := s.instances.map (Instance.relabel r) }

end

variable {r : Relabelling}

@[simp] theorem Closure.relabel_arity (c : Closure) : (c.relabel r).arity = c.arity := by
  rw [Closure.arity, Closure.arity, Closure.relabel, FunctionDecl.relabel_parameters,
    List.length_map]

@[simp] theorem Class.relabel_stamp (cls : Class) : (cls.relabel r).stamp = cls.stamp := by
  obtain ⟨stamp, name, methods, parent⟩ := cls
  cases parent <;> rfl

@[simp] theorem Class.relabel_name (cls : Class) : (cls.relabel r).name = cls.name := by
  obtain ⟨stamp, name, methods, parent⟩ := cls
  cases parent <;> rfl

/-- The parts of a class, relabelled one by one. -/
theorem Class.relabel_mk (stamp : Nat) (name : String) (methods : Bindings Closure)
    (parent : Option Class) :
    Class.relabel r ⟨stamp, name, methods, parent⟩ =
      ⟨stamp, name, methods.map (Closure.relabel r), parent.map (Class.relabel r)⟩ := by
  cases parent <;> rfl

@[simp] theorem Class.findMethod_relabel (name : String) (cls : Class) :
    (cls.relabel r).findMethod name = (cls.findMethod name).map (Closure.relabel r) := by
  match cls with
  | ⟨stamp, own, methods, none⟩ =>
    rw [Class.relabel, findMethod, findMethod, Bindings.get?_map]
    cases methods.get? name <;> rfl
  | ⟨stamp, own, methods, some parent⟩ =>
    rw [Class.relabel, findMethod, findMethod, Bindings.get?_map]
    cases methods.get? name with
    | none => exact findMethod_relabel name parent
    | some method => rfl

@[simp] theorem Class.relabel_arity (cls : Class) : (cls.relabel r).arity = cls.arity := by
  rw [Class.arity, Class.arity, findMethod_relabel]
  cases cls.findMethod "init" with
  | none => rfl
  | some init => exact init.relabel_arity

namespace Value

@[simp] theorem relabel_ofLiteral (value : Literal) :
    (ofLiteral value).relabel r = ofLiteral value := by
  cases value <;> rfl

@[simp] theorem isTruthy_relabel (v : Value) : (v.relabel r).isTruthy = v.isTruthy := by
  cases v <;> rfl

@[simp] theorem equals_relabel (v w : Value) : (v.relabel r).equals (w.relabel r) = v.equals w := by
  cases v <;> cases w <;> simp [relabel, equals]

end Value

@[simp] theorem Flow.result_relabel (flow : Flow) :
    (flow.relabel r).result = flow.result.relabel r := by
  cases flow <;> rfl

/-! ## Stores -/

/-- A change at one place, made before or after all elements are changed. -/
theorem array_map_modify {α β : Type} {f : α → β} {g : α → α} (k : β → β)
    (h : ∀ a, f (g a) = k (f a)) (xs : Array α) (i : Nat) :
    (xs.modify i g).map f = (xs.map f).modify i k := by
  apply Array.ext_getElem?
  intro j
  rw [Array.getElem?_map, Array.getElem?_modify, Array.getElem?_modify, Array.getElem?_map]
  split
  · cases xs[j]? <;> simp [h]
  · rfl

namespace Store

variable (s : Store)

@[simp] theorem size_relabel : (s.relabel r).frames.size = s.frames.size := Array.size_map

@[simp] theorem own?_relabel (f : FrameId) (name : String) :
    (s.relabel r).own? f name = (s.own? f name).map (Value.relabel r) := by
  unfold own? relabel
  rw [Array.getElem?_map]
  cases s.frames[f]? with
  | none => rfl
  | some frame => exact frame.vars.get?_map _ name

@[simp] theorem parent?_relabel (f : FrameId) : (s.relabel r).parent? f = s.parent? f := by
  unfold parent? relabel
  rw [Array.getElem?_map]
  cases s.frames[f]? <;> rfl

@[simp] theorem ancestor?_relabel (f : FrameId) (d : Nat) :
    (s.relabel r).ancestor? f d = s.ancestor? f d := by
  induction d generalizing f with
  | zero => rfl
  | succ d ih =>
    rw [ancestor?, ancestor?, parent?_relabel]
    cases s.parent? f with
    | none => rfl
    | some g => exact ih g

@[simp] theorem namedAt?_relabel (f : FrameId) (d : Nat) (name : String) :
    (s.relabel r).namedAt? f d name = (s.namedAt? f d name).map (Value.relabel r) := by
  rw [namedAt?, namedAt?, ancestor?_relabel]
  cases s.ancestor? f d with
  | none => rfl
  | some g => exact s.own?_relabel g name

@[simp] theorem owner?_relabel (name : String) (f : FrameId) :
    (s.relabel r).owner? name f = s.owner? name f := by
  induction f using Nat.strongRecOn with
  | ind f ih =>
    rw [owner?, owner?, own?_relabel, parent?_relabel, Option.isSome_map]
    split
    · rfl
    · cases s.parent? f with
      | none => rfl
      | some g =>
        dsimp only
        split
        · next hlt => exact ih g hlt
        · rfl

@[simp] theorem relabel_define (f : FrameId) (name : String) (v : Value) :
    (s.define f name v).relabel r = (s.relabel r).define f name (v.relabel r) := by
  unfold define relabel
  rw [array_map_modify (fun frame => { frame with vars := frame.vars.insert name (v.relabel r) })
    fun frame => by simp [Frame.relabel]]

@[simp] theorem relabel_newFrame (frame : Frame) :
    (s.newFrame frame).2.relabel r = ((s.relabel r).newFrame (frame.relabel r)).2 := by
  unfold newFrame relabel
  rw [Array.map_push]

@[simp] theorem relabel_newInstance (cls : Class) :
    (s.newInstance cls).2.relabel r = ((s.relabel r).newInstance (cls.relabel r)).2 := by
  unfold newInstance relabel
  rw [Array.map_push]
  rfl

@[simp] theorem relabel_newStamp : s.newStamp.2.relabel r = (s.relabel r).newStamp.2 := rfl

@[simp] theorem field?_relabel (i : InstanceId) (name : String) :
    (s.relabel r).field? i name = (s.field? i name).map (Value.relabel r) := by
  unfold field? relabel
  rw [Array.getElem?_map]
  cases s.instances[i]? with
  | none => rfl
  | some object => exact object.fields.get?_map _ name

@[simp] theorem method?_relabel (i : InstanceId) (name : String) :
    (s.relabel r).method? i name = (s.method? i name).map (Closure.relabel r) := by
  unfold method? relabel
  rw [Array.getElem?_map]
  cases s.instances[i]? with
  | none => rfl
  | some object => exact object.cls.findMethod_relabel name

@[simp] theorem relabel_setField (i : InstanceId) (name : String) (v : Value) :
    (s.setField i name v).relabel r = (s.relabel r).setField i name (v.relabel r) := by
  unfold setField relabel
  rw [array_map_modify
    (fun object => { object with fields := object.fields.insert name (v.relabel r) })
    fun object => by simp [Instance.relabel]]

end Store

@[simp] theorem Value.text_relabel (s : Store) (v : Value) :
    (v.relabel r).text (s.relabel r) = v.text s := by
  cases v with
  | function closure stamp => simp [Value.text, Value.relabel, Closure.relabel]
  | «class» cls => simp [Value.text, Value.relabel]
  | «instance» i =>
    simp only [Value.relabel, Value.text, Store.relabel, Array.getElem?_map]
    cases s.instances[i]? <;> simp [Instance.relabel]
  | _ => rfl

/-! ## Everything as it is -/

theorem Closure.relabel_same (c : Closure) : c.relabel .same = c := by
  rw [Closure.relabel, FunctionDecl.relabel_same]

theorem Class.relabel_same (cls : Class) : cls.relabel .same = cls := by
  match cls with
  | ⟨stamp, name, methods, none⟩ => rw [Class.relabel, Bindings.map_same Closure.relabel_same]
  | ⟨stamp, name, methods, some parent⟩ =>
    rw [Class.relabel, Bindings.map_same Closure.relabel_same, relabel_same parent]

theorem Value.relabel_same (v : Value) : v.relabel .same = v := by
  cases v with
  | function closure stamp => rw [Value.relabel, Closure.relabel_same]
  | «class» cls => rw [Value.relabel, Class.relabel_same]
  | _ => rfl

theorem Halt.relabel_same (halt : Halt) : halt.relabel .same = halt := by
  cases halt <;> rfl

theorem Store.relabel_same (s : Store) : s.relabel .same = s := by
  have hframe (frame : Frame) : frame.relabel .same = frame := by
    rw [Frame.relabel, Bindings.map_same Value.relabel_same]
  have hobject (object : Instance) : object.relabel .same = object := by
    rw [Instance.relabel, Class.relabel_same, Bindings.map_same Value.relabel_same]
  rw [Store.relabel, Array.map_id'' hframe, Array.map_id'' hobject]

end Lox
