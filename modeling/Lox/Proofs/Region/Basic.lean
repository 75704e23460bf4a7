/-
  Lox.Proofs.Region.Basic

  Parts of a store that nothing inside them leads out of.

    * `Code` — a kind of functions; `Stmt.Within` — a statement that makes functions
      of the kind only;
    * `Region` — some frames and instances, with the kind of functions that the values
      in them are made of;
    * `Store.Within` — what is inside refers to what is inside, and so will everything
      that is made later;
    * `Store.Alike` — two stores that are the same inside;
    * `Store.Spares` — a store in which everything outside is as it was.

  A change of the store inside the region leaves it a region, and made in two alike
  stores it leaves them alike.
-/
import Lox.Proofs.Scoping.Soundness
import Lox.Proofs.Stores

namespace Lox

/-! ## Kinds of functions -/

/-- A kind of functions: which declarations belong to it, which occurrences their
    bodies may use, and whether there may be loops. -/
structure Code where
  decl : FunctionDecl → Prop
  use : Nat → Prop
  loops : Prop

section

variable (C : Code)

/-- The code may use all of the occurrences. -/
def Code.Uses (uses : List Use) : Prop := ∀ use ∈ uses, C.use use.occurrence.id

mutual

/-- All functions that a statement makes, and all that it uses, belong to the code. -/
def Stmt.Within : Stmt → Prop
  | .expression value => C.Uses value.uses
  | .print value => C.Uses value.uses
  | .var _ initializer => C.Uses (Expr.optionUses initializer)
  | .block body => Stmt.ListWithin body
  | .ifElse condition yes none => C.Uses condition.uses ∧ yes.Within
  | .ifElse condition yes (some no) => C.Uses condition.uses ∧ yes.Within ∧ no.Within
  | .while condition body => C.loops ∧ C.Uses condition.uses ∧ body.Within
  | .break _ => True
  | .function decl => C.decl decl
  | .return _ value => C.Uses (Expr.optionUses value)
  | .class _ superclass methods =>
    C.Uses (superclass.map (Use.mk .read)).toList ∧ ∀ d ∈ methods, C.decl d

def Stmt.ListWithin : List Stmt → Prop
  | [] => True
  | s :: ss => s.Within ∧ Stmt.ListWithin ss

end

end

/-- Functions of any kind. -/
def Code.any : Code := ⟨fun _ => True, fun _ => True, True⟩

theorem Code.uses_any (uses : List Use) : Code.any.Uses uses := fun _ _ => trivial

mutual

theorem Stmt.within_any (s : Stmt) : s.Within .any := by
  match s with
  | .block body => exact Stmt.listWithin_any body
  | .ifElse condition yes none => exact ⟨Code.uses_any _, yes.within_any⟩
  | .ifElse condition yes (some no) => exact ⟨Code.uses_any _, yes.within_any, no.within_any⟩
  | .while condition body => exact ⟨trivial, Code.uses_any _, body.within_any⟩
  | .break _ | .function _ => trivial
  | .class _ superclass methods => exact ⟨Code.uses_any _, fun _ _ => trivial⟩
  | .expression _ | .print _ | .var _ _ | .return _ _ => exact Code.uses_any _

theorem Stmt.listWithin_any (ss : List Stmt) : Stmt.ListWithin .any ss := by
  match ss with
  | [] => trivial
  | s :: ss => exact ⟨s.within_any, Stmt.listWithin_any ss⟩

end

/-! ## Regions -/

/-- Frames and instances, the functions that values in them are made of, and the ways
    in which runs on them may stop.  The global frame belongs to every region. -/
structure Region extends Code where
  frame : FrameId → Prop
  object : InstanceId → Prop
  stops : Halt → Prop
  body : ∀ d, decl d → Stmt.ListWithin toCode d.body
  globals : frame Store.globals
  errors : ∀ e, stops (.error e)
  bounds : loops → stops .outOfFuel

section

variable (G : Region)

def Closure.Within (c : Closure) : Prop := G.frame c.frame ∧ G.decl c.decl

/-- All methods that a class has, also those of its superclass, are inside. -/
def Class.Within (cls : Class) : Prop :=
  ∀ name method, cls.findMethod name = some method → method.Within G

/-- What a value refers to is inside. -/
def Value.Within : Value → Prop
  | .function closure _ => closure.Within G
  | .class cls => cls.Within G
  | .instance i => G.object i
  | _ => True

/-- What a frame holds is inside. -/
structure Frame.Within (frame : Frame) : Prop where
  parent : ∀ g, frame.parent = some g → G.frame g
  vars : ∀ name v, frame.vars.get? name = some v → v.Within G

/-- Nothing inside leads out; frames and instances that are not made yet are inside. -/
structure Store.Within (s : Store) : Prop where
  parent : ∀ f g, G.frame f → s.parent? f = some g → G.frame g
  var : ∀ f name v, G.frame f → s.own? f name = some v → v.Within G
  field : ∀ i name v, G.object i → s.field? i name = some v → v.Within G
  method : ∀ i name method, G.object i → s.method? i name = some method → method.Within G
  newFrame : ∀ f, s.frames.size ≤ f → G.frame f
  newObject : ∀ i, s.instances.size ≤ i → G.object i

/-- The same frames and instances inside, and as many outside. -/
structure Store.Alike (s t : Store) : Prop where
  frames : t.frames.size = s.frames.size
  instances : t.instances.size = s.instances.size
  stamp : t.nextStamp = s.nextStamp
  frame : ∀ f, G.frame f → t.frames[f]? = s.frames[f]?
  object : ∀ i, G.object i → t.instances[i]? = s.instances[i]?

/-- The same frames and instances outside. -/
structure Store.Spares (s t : Store) : Prop where
  frame : ∀ f, ¬G.frame f → t.frames[f]? = s.frames[f]?
  object : ∀ i, ¬G.object i → t.instances[i]? = s.instances[i]?

end

variable {G : Region} {s t u : Store} {f : FrameId} {i : InstanceId} {name : String} {v : Value}

namespace Store

theorem Alike.refl (s : Store) : s.Alike G s := ⟨rfl, rfl, rfl, fun _ _ => rfl, fun _ _ => rfl⟩

/-- Alike stores that have the same outside are the same. -/
theorem Alike.eq (h : s.Alike G t) (hframe : ∀ f, ¬G.frame f → t.frames[f]? = s.frames[f]?)
    (hobject : ∀ i, ¬G.object i → t.instances[i]? = s.instances[i]?) : t = s := by
  have hframes : t.frames = s.frames := Array.ext_getElem? fun f => by
    by_cases hf : G.frame f
    · exact h.frame f hf
    · exact hframe f hf
  have hinstances : t.instances = s.instances := Array.ext_getElem? fun i => by
    by_cases hi : G.object i
    · exact h.object i hi
    · exact hobject i hi
  cases s
  cases t
  cases hframes
  cases hinstances
  cases h.stamp
  rfl

theorem Spares.refl (s : Store) : s.Spares G s := ⟨fun _ _ => rfl, fun _ _ => rfl⟩

theorem Spares.trans (hst : s.Spares G t) (htu : t.Spares G u) : s.Spares G u :=
  ⟨fun f hf => (htu.frame f hf).trans (hst.frame f hf),
    fun i hi => (htu.object i hi).trans (hst.object i hi)⟩

/-! ## Looking inside -/

namespace Alike

variable (h : s.Alike G t)
include h

theorem own? (hf : G.frame f) (name : String) : t.own? f name = s.own? f name := by
  unfold Store.own?
  rw [h.frame f hf]

theorem parent? (hf : G.frame f) : t.parent? f = s.parent? f := by
  unfold Store.parent?
  rw [h.frame f hf]

theorem field? (hi : G.object i) (name : String) : t.field? i name = s.field? i name := by
  unfold Store.field?
  rw [h.object i hi]

theorem method? (hi : G.object i) (name : String) : t.method? i name = s.method? i name := by
  unfold Store.method?
  rw [h.object i hi]

/-- A value inside is shown in the same way. -/
theorem text (hv : v.Within G) : v.text t = v.text s := by
  cases v with
  | «instance» i =>
    have hobject : t.instances[i]? = s.instances[i]? := h.object i hv
    simp only [Value.text, hobject]
  | _ => rfl

end Alike

/-- From a frame inside, links lead to the same frames inside. -/
theorem Within.ancestor? (hs : s.Within G) (h : s.Alike G t) (hf : G.frame f) (d : Nat) :
    t.ancestor? f d = s.ancestor? f d ∧ ∀ g, s.ancestor? f d = some g → G.frame g := by
  induction d generalizing f with
  | zero =>
    refine ⟨rfl, fun g hg => ?_⟩
    cases hg
    exact hf
  | succ d ih =>
    rw [Store.ancestor?, Store.ancestor?, h.parent? hf]
    cases hparent : s.parent? f with
    | none => exact ⟨rfl, fun g hg => by cases hg⟩
    | some g => exact ih (hs.parent f g hf hparent)

/-- So the nearest frame that has a name is the same one, and inside. -/
theorem Within.owner? (hs : s.Within G) (h : s.Alike G t) (hf : G.frame f) (name : String) :
    t.owner? name f = s.owner? name f ∧ ∀ g, s.owner? name f = some g → G.frame g := by
  induction f using Nat.strongRecOn with
  | ind f ih =>
    rw [Store.owner?, Store.owner?, h.own? hf, h.parent? hf]
    split
    · refine ⟨rfl, fun g hg => ?_⟩
      cases hg
      exact hf
    · cases hparent : s.parent? f with
      | none => exact ⟨rfl, fun g hg => by cases hg⟩
      | some g =>
        dsimp only
        split
        · next hlt => exact ih g hlt (hs.parent f g hf hparent)
        · exact ⟨rfl, fun g hg => by cases hg⟩

theorem Within.namedAt? (hs : s.Within G) (h : s.Alike G t) (hf : G.frame f) (d : Nat)
    (name : String) :
    t.namedAt? f d name = s.namedAt? f d name ∧
      ∀ v, s.namedAt? f d name = some v → v.Within G := by
  obtain ⟨hsame, hinside⟩ := hs.ancestor? h hf d
  unfold Store.namedAt?
  rw [hsame]
  cases hg : s.ancestor? f d with
  | none => exact ⟨rfl, nofun⟩
  | some g =>
    have hframe := hinside g hg
    exact ⟨h.own? hframe name, fun v hv => hs.var g name v hframe hv⟩

theorem Within.getAt (hs : s.Within G) (h : s.Alike G t) (hf : G.frame f) (d : Nat)
    (name : Lexeme) :
    t.getAt f d name = s.getAt f d name ∧ ∀ v, s.getAt f d name = .ok v → v.Within G := by
  obtain ⟨hsame, hinside⟩ := hs.namedAt? h hf d name.text
  unfold Store.getAt
  rw [hsame]
  refine ⟨rfl, fun v hv => ?_⟩
  split at hv
  · next w hw =>
    cases hv
    exact hinside _ hw
  · cases hv

theorem Within.get (hs : s.Within G) (h : s.Alike G t) (hf : G.frame f) (name : Lexeme) :
    t.get f name = s.get f name ∧ ∀ v, s.get f name = .ok v → v.Within G := by
  obtain ⟨hsame, hinside⟩ := hs.owner? h hf name.text
  unfold Store.get
  rw [hsame]
  cases hg : s.owner? name.text f with
  | none => exact ⟨rfl, nofun⟩
  | some g =>
    have hframe := hinside g hg
    rw [Option.bind_some, Option.bind_some, h.own? hframe]
    refine ⟨rfl, fun v hv => ?_⟩
    split at hv
    · next w hw =>
      cases hv
      exact hs.var g name.text _ hframe hw
    · cases hv

/-! ## Changes inside -/

theorem Within.define (hs : s.Within G) (hv : v.Within G) (f : FrameId) (name : String) :
    (s.define f name v).Within G := by
  refine ⟨fun g p hg hp => ?_, fun g other w hg hw => ?_, hs.field, hs.method, fun g hg => ?_,
    hs.newObject⟩
  · rw [parent?_define] at hp
    exact hs.parent g p hg hp
  · rcases own?_define hw with ⟨_, _, rfl⟩ | hold
    · exact hv
    · exact hs.var g other w hg hold
  · rw [size_define] at hg
    exact hs.newFrame g hg

theorem Alike.define (h : s.Alike G t) (f : FrameId) (name : String) (v : Value) :
    (s.define f name v).Alike G (t.define f name v) := by
  refine ⟨?_, h.instances, h.stamp, fun g hg => ?_, h.object⟩
  · rw [size_define, size_define, h.frames]
  · unfold Store.define
    simp only [Array.getElem?_modify, h.frame g hg]

theorem spares_define (s : Store) (hf : G.frame f) (name : String) (v : Value) :
    s.Spares G (s.define f name v) := by
  refine ⟨fun g hg => ?_, fun _ _ => rfl⟩
  have hne : f ≠ g := by
    rintro rfl
    exact hg hf
  simp [Store.define, Array.getElem?_modify, hne]

theorem Within.addFrame (hs : s.Within G) {frame : Frame} (hframe : frame.Within G) :
    (s.newFrame frame).2.Within G := by
  refine ⟨fun f g hf hg => ?_, fun f name v hf hv => ?_, hs.field, hs.method, fun f hf => ?_,
    hs.newObject⟩
  · by_cases hnew : f = s.frames.size
    · rw [hnew, parent?_newFrame_self] at hg
      exact hframe.parent g hg
    · rw [s.parent?_newFrame_of_ne frame hnew] at hg
      exact hs.parent f g hf hg
  · by_cases hnew : f = s.frames.size
    · rw [hnew, own?_newFrame_self] at hv
      exact hframe.vars name v hv
    · rw [s.own?_newFrame_of_ne frame hnew] at hv
      exact hs.var f name v hf hv
  · have hsize : (s.newFrame frame).2.frames.size = s.frames.size + 1 := Array.size_push _
    exact hs.newFrame f (by omega)

theorem Alike.addFrame (h : s.Alike G t) (frame : Frame) :
    (s.newFrame frame).2.Alike G (t.newFrame frame).2 := by
  refine ⟨?_, h.instances, h.stamp, fun f hf => ?_, h.object⟩
  · simp [Store.newFrame, h.frames]
  · unfold Store.newFrame
    simp only [Array.getElem?_push, h.frames, h.frame f hf]

theorem Within.spares_addFrame (hs : s.Within G) (frame : Frame) :
    s.Spares G (s.newFrame frame).2 := by
  refine ⟨fun f hf => ?_, fun _ _ => rfl⟩
  have hne : f ≠ s.frames.size := by
    rintro rfl
    exact hf (hs.newFrame _ (Nat.le_refl _))
  simp [Store.newFrame, Array.getElem?_push, hne]

theorem Within.addInstance (hs : s.Within G) {cls : Class} (hcls : cls.Within G) :
    (s.newInstance cls).2.Within G := by
  refine ⟨hs.parent, hs.var, fun i name v hi hv => ?_, fun i name method hi hmethod => ?_,
    hs.newFrame, fun i hi => ?_⟩
  · rw [field?_newInstance] at hv
    split at hv
    · cases hv
    · exact hs.field i name v hi hv
  · rw [method?_newInstance] at hmethod
    split at hmethod
    · exact hcls name method hmethod
    · exact hs.method i name method hi hmethod
  · have hsize : (s.newInstance cls).2.instances.size = s.instances.size + 1 := Array.size_push _
    exact hs.newObject i (by omega)

theorem Alike.addInstance (h : s.Alike G t) (cls : Class) :
    (s.newInstance cls).2.Alike G (t.newInstance cls).2 := by
  refine ⟨h.frames, ?_, h.stamp, h.frame, fun i hi => ?_⟩
  · simp [Store.newInstance, h.instances]
  · unfold Store.newInstance
    simp only [Array.getElem?_push, h.instances, h.object i hi]

theorem Within.spares_addInstance (hs : s.Within G) (cls : Class) :
    s.Spares G (s.newInstance cls).2 := by
  refine ⟨fun _ _ => rfl, fun i hi => ?_⟩
  have hne : i ≠ s.instances.size := by
    rintro rfl
    exact hi (hs.newObject _ (Nat.le_refl _))
  simp [Store.newInstance, Array.getElem?_push, hne]

theorem Within.setField (hs : s.Within G) (hv : v.Within G) (i : InstanceId) (name : String) :
    (s.setField i name v).Within G := by
  refine ⟨hs.parent, hs.var, fun j other w hj hw => ?_, fun j other method hj hmethod => ?_,
    hs.newFrame, fun j hj => ?_⟩
  · rw [field?_setField] at hw
    split at hw
    · cases hw
      exact hv
    · exact hs.field j other w hj hw
  · rw [method?_setField] at hmethod
    exact hs.method j other method hj hmethod
  · refine hs.newObject j ?_
    simpa [Store.setField] using hj

theorem Alike.setField (h : s.Alike G t) (i : InstanceId) (name : String) (v : Value) :
    (s.setField i name v).Alike G (t.setField i name v) := by
  refine ⟨h.frames, ?_, h.stamp, h.frame, fun j hj => ?_⟩
  · simp [Store.setField, h.instances]
  · unfold Store.setField
    simp only [Array.getElem?_modify, h.object j hj]

theorem spares_setField (s : Store) (hi : G.object i) (name : String) (v : Value) :
    s.Spares G (s.setField i name v) := by
  refine ⟨fun _ _ => rfl, fun j hj => ?_⟩
  have hne : i ≠ j := by
    rintro rfl
    exact hj hi
  simp [Store.setField, Array.getElem?_modify, hne]

theorem Within.addStamp (hs : s.Within G) : s.newStamp.2.Within G :=
  ⟨hs.parent, hs.var, hs.field, hs.method, hs.newFrame, hs.newObject⟩

theorem Alike.addStamp (h : s.Alike G t) : s.newStamp.2.Alike G t.newStamp.2 :=
  ⟨h.frames, h.instances, congrArg (· + 1) h.stamp, h.frame, h.object⟩

end Store

/-- The frame of a bound method is inside. -/
theorem Closure.Within.receiverFrame {method : Closure} (h : method.Within G) (hi : G.object i) :
    Frame.Within G ⟨.single "this" (.instance i), some method.frame⟩ := by
  refine ⟨fun g hg => ?_, fun name v hv => ?_⟩
  · cases hg
    exact h.1
  · simp only [Bindings.single, Bindings.get?, Bindings.find?] at hv
    split at hv
    · cases hv
      exact hi
    · cases hv

end Lox
