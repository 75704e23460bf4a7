/-
  Lox.Proofs.Stores

  What is read from a store after it was changed: variables and links of frames,
  fields and methods of instances.

  `Store.All` — all values in variables and fields are of one kind, and all methods of
  instances of another one.
-/
import Lox.Proofs.Scoping.Frames

namespace Lox

namespace Store

theorem own?_define_eq (s : Store) (f g : FrameId) (name other : String) (v : Value) :
    (s.define f name v).own? g other =
      if g = f ∧ other = name ∧ f < s.frames.size then some v else s.own? g other := by
  by_cases hcase : g = f ∧ other = name ∧ f < s.frames.size
  · obtain ⟨rfl, rfl, hlt⟩ := hcase
    rw [if_pos ⟨rfl, rfl, hlt⟩]
    exact own?_define_self (Array.getElem?_eq_getElem hlt) other v
  · rw [if_neg hcase]
    unfold own? define
    simp only [Array.getElem?_modify]
    by_cases hg : f = g
    · subst hg
      rw [if_pos rfl]
      cases hframe : s.frames[f]? with
      | none => rfl
      | some frame =>
        have hlt : f < s.frames.size := by
          obtain ⟨hlt, _⟩ := Array.getElem?_eq_some_iff.mp hframe
          exact hlt
        have hother : other ≠ name := fun heq => hcase ⟨rfl, heq, hlt⟩
        exact frame.vars.get?_insert_of_ne hother v
    · rw [if_neg hg]

@[simp] theorem parent?_define (s : Store) (f g : FrameId) (name : String) (v : Value) :
    (s.define f name v).parent? g = s.parent? g := by
  unfold parent? define
  simp only [Array.getElem?_modify]
  by_cases hg : f = g
  · subst hg
    rw [if_pos rfl]
    cases s.frames[f]? <;> rfl
  · rw [if_neg hg]

@[simp] theorem size_define (s : Store) (f : FrameId) (name : String) (v : Value) :
    (s.define f name v).frames.size = s.frames.size := by
  simp [define]

/-- Of two values that are bound to a name, the second one counts. -/
theorem define_define (s : Store) (f : FrameId) (name : String) (v w : Value) :
    (s.define f name v).define f name w = s.define f name w := by
  have hframes : ((s.define f name v).define f name w).frames = (s.define f name w).frames := by
    refine Array.ext_getElem? fun g => ?_
    simp only [define, Array.getElem?_modify]
    by_cases hg : f = g
    · simp only [if_pos hg, Option.map_map]
      cases s.frames[g]? with
      | none => rfl
      | some frame => simp only [Option.map_some, Function.comp_apply, Bindings.insert_insert]
    · simp only [if_neg hg]
  exact congrArg (fun frames => { s with frames }) hframes

/-- A frame that is made behind a binding could have been made before it. -/
theorem newFrame_define {s : Store} {f : FrameId} (hf : f < s.frames.size) (name : String)
    (v : Value) (frame : Frame) :
    (s.define f name v).newFrame frame =
      ((s.newFrame frame).1, (s.newFrame frame).2.define f name v) := by
  have hframes : (s.define f name v).frames.push frame =
      ((s.newFrame frame).2.define f name v).frames := by
    refine Array.ext_getElem? fun g => ?_
    simp only [define, newFrame, Array.getElem?_modify, Array.getElem?_push, Array.size_modify]
    by_cases hg : f = g
    · simp only [if_pos hg, if_neg (hg ▸ Nat.ne_of_lt hf)]
    · simp only [if_neg hg]
  exact Prod.ext (s.size_define f name v) (congrArg (fun frames => { s with frames }) hframes)

theorem parent?_newFrame_of_ne (s : Store) (frame : Frame) {f : FrameId} (hf : f ≠ s.frames.size) :
    (s.newFrame frame).2.parent? f = s.parent? f := by
  simp [parent?, newFrame, Array.getElem?_push, hf]

/-- With the same links the same frames are around a frame. -/
theorem ancestor?_congr {s t : Store} (h : ∀ f, t.parent? f = s.parent? f) (f : FrameId) (d : Nat) :
    t.ancestor? f d = s.ancestor? f d := by
  induction d generalizing f with
  | zero => rfl
  | succ d ih =>
    rw [ancestor?, ancestor?, h f]
    cases s.parent? f with
    | none => rfl
    | some g => exact ih g

theorem field?_newInstance (s : Store) (cls : Class) (i : InstanceId) (name : String) :
    (s.newInstance cls).2.field? i name =
      if i = s.instances.size then none else s.field? i name := by
  unfold field? newInstance
  simp only [Array.getElem?_push]
  by_cases hi : i = s.instances.size <;> simp [hi]

theorem method?_newInstance (s : Store) (cls : Class) (i : InstanceId) (name : String) :
    (s.newInstance cls).2.method? i name =
      if i = s.instances.size then cls.findMethod name else s.method? i name := by
  unfold method? newInstance
  simp only [Array.getElem?_push]
  by_cases hi : i = s.instances.size <;> simp [hi]

theorem field?_setField (s : Store) (i j : InstanceId) (name other : String) (v : Value) :
    (s.setField i name v).field? j other =
      if j = i ∧ other = name ∧ i < s.instances.size then some v else s.field? j other := by
  unfold field? setField
  simp only [Array.getElem?_modify]
  by_cases hj : i = j
  · subst hj
    rw [if_pos rfl]
    cases hobject : s.instances[i]? with
    | none =>
      have hge := Array.getElem?_eq_none_iff.mp hobject
      have hnot : ¬(i = i ∧ other = name ∧ i < s.instances.size) := fun h =>
        absurd h.2.2 (Nat.not_lt.mpr hge)
      rw [if_neg hnot]
      rfl
    | some object =>
      obtain ⟨hlt, _⟩ := Array.getElem?_eq_some_iff.mp hobject
      by_cases hname : other = name
      · rw [if_pos ⟨rfl, hname, hlt⟩, hname]
        exact object.fields.get?_insert_self name v
      · rw [if_neg (by simp [hname])]
        exact object.fields.get?_insert_of_ne hname v
  · rw [if_neg hj, if_neg (by simp [Ne.symm hj])]

theorem method?_setField (s : Store) (i j : InstanceId) (name other : String) (v : Value) :
    (s.setField i name v).method? j other = s.method? j other := by
  unfold method? setField
  simp only [Array.getElem?_modify]
  by_cases hj : i = j
  · subst hj
    rw [if_pos rfl]
    cases s.instances[i]? <;> rfl
  · rw [if_neg hj]

/-- The class of an instance. -/
def class? (s : Store) (i : InstanceId) : Option Class := s.instances[i]?.map (·.cls)

theorem class?_newInstance (s : Store) (cls : Class) (i : InstanceId) :
    (s.newInstance cls).2.class? i = if i = s.instances.size then some cls else s.class? i := by
  unfold class? newInstance
  simp only [Array.getElem?_push]
  by_cases hi : i = s.instances.size <;> simp [hi]

/-- There is no instance yet with the number of the next one. -/
theorem class?_size (s : Store) : s.class? s.instances.size = none := by
  simp [class?]

@[simp] theorem class?_setField (s : Store) (i j : InstanceId) (name : String) (v : Value) :
    (s.setField i name v).class? j = s.class? j := by
  unfold class? setField
  simp only [Array.getElem?_modify]
  by_cases hj : i = j
  · subst hj
    rw [if_pos rfl]
    cases s.instances[i]? <;> rfl
  · rw [if_neg hj]

/-! ## Everything in a store -/

/-- All values in variables and fields are as `V` tells, and all methods of instances, by
    the name that they have there, as `M` tells. -/
structure All (V : Value → Prop) (M : String → Closure → Prop) (s : Store) : Prop where
  vars : ∀ f name v, s.own? f name = some v → V v
  fields : ∀ i name v, s.field? i name = some v → V v
  methods : ∀ i name method, s.method? i name = some method → M name method

namespace All

variable {V V' : Value → Prop} {M M' : String → Closure → Prop} {s : Store}

theorem mono (h : s.All V M) (hV : ∀ v, V v → V' v) (hM : ∀ name c, M name c → M' name c) :
    s.All V' M' :=
  ⟨fun f name v hv => hV v (h.vars f name v hv), fun i name v hv => hV v (h.fields i name v hv),
    fun i name c hc => hM name c (h.methods i name c hc)⟩

theorem define (h : s.All V M) {f : FrameId} {name : String} {v : Value} (hv : V v) :
    (s.define f name v).All V M := by
  refine ⟨fun g other w hw => ?_, h.fields, h.methods⟩
  rcases own?_define hw with ⟨-, -, rfl⟩ | hold
  · exact hv
  · exact h.vars g other w hold

theorem newFrame (h : s.All V M) {frame : Frame}
    (hvars : ∀ name v, frame.vars.get? name = some v → V v) :
    (s.newFrame frame).2.All V M := by
  refine ⟨fun g name v hv => ?_, h.fields, h.methods⟩
  by_cases hg : g = s.frames.size
  · rw [hg, own?_newFrame_self] at hv
    exact hvars name v hv
  · rw [s.own?_newFrame_of_ne frame hg] at hv
    exact h.vars g name v hv

theorem newInstance (h : s.All V M) {cls : Class}
    (hcls : ∀ name method, cls.findMethod name = some method → M name method) :
    (s.newInstance cls).2.All V M := by
  refine ⟨h.vars, fun i name v hv => ?_, fun i name method hmethod => ?_⟩
  · rw [field?_newInstance] at hv
    split at hv
    · cases hv
    · exact h.fields i name v hv
  · rw [method?_newInstance] at hmethod
    split at hmethod
    · exact hcls name method hmethod
    · exact h.methods i name method hmethod

theorem setField (h : s.All V M) {i : InstanceId} {name : String} {v : Value} (hv : V v) :
    (s.setField i name v).All V M := by
  refine ⟨h.vars, fun j other w hw => ?_, fun j other method hmethod => ?_⟩
  · rw [field?_setField] at hw
    split at hw
    · cases hw
      exact hv
    · exact h.fields j other w hw
  · rw [method?_setField] at hmethod
    exact h.methods j other method hmethod

theorem newStamp (h : s.All V M) : s.newStamp.2.All V M := ⟨h.vars, h.fields, h.methods⟩

end All

end Store

/-- A new machine has nothing but the clock. -/
theorem Machine.own?_start {out : Sink} {clock : Nat → Option Float} {f : FrameId} {name : String}
    {v : Value} (h : (Machine.start out clock).store.own? f name = some v) :
    v = .native "clock" := by
  rcases Store.own?_define h with ⟨_, _, rfl⟩ | hold
  · rfl
  · unfold Store.own? at hold
    split at hold
    · next frame hframe =>
      rw [show Store.empty.frames = #[⟨.empty, none⟩] from rfl] at hframe
      obtain ⟨hlt, rfl⟩ := Array.getElem?_eq_some_iff.mp hframe
      have hzero : f = 0 := Nat.lt_one_iff.mp hlt
      subst hzero
      cases hold
    · cases hold

end Lox
