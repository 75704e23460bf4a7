/-
  Lox.Proofs.Renaming.Mirror

  Two stores that differ in the name of some variables only.

    * `Store.Signed` — which of the frames from a frame outward are marked: those of
      chosen scopes;
    * `Value.Mirrors` — the same value, but for renamed bodies;
    * `Store.Mirrors` — the same frames and instances with mirrored values, where
      marked frames have the old and the new name exchanged.

  Every change of a store, made on its mirror as well, leaves mirrors
  (`Store.Mirrors.define`, `.newFrame`, `.newInstance`, `.setField`).
-/
import Lox.Proofs.Renaming.Rename
import Lox.Proofs.Scoping.Soundness
import Lox.Proofs.Stores

namespace Lox

/-! ## Names of classes -/

namespace Store

/-- The class name of an instance, which is all that `print` shows of it. -/
def className? (s : Store) (i : InstanceId) : Option String := s.instances[i]?.map (·.cls.name)

theorem className?_newInstance (s : Store) (cls : Class) (i : InstanceId) :
    (s.newInstance cls).2.className? i =
      if i = s.instances.size then some cls.name else s.className? i := by
  unfold className? newInstance
  simp only [Array.getElem?_push]
  by_cases hi : i = s.instances.size <;> simp [hi]

theorem className?_setField (s : Store) (i j : InstanceId) (name : String) (v : Value) :
    (s.setField i name v).className? j = s.className? j := by
  unfold className? setField
  simp only [Array.getElem?_modify]
  by_cases hj : i = j
  · subst hj
    rw [if_pos rfl]
    cases s.instances[i]? <;> rfl
  · rw [if_neg hj]

/-! ## Marked frames -/

/-- The frames from `f` outward are marked as the flags tell, and behind them is the
    global frame. -/
def Signed (s : Store) (marks : List Bool) (f : FrameId) : List Bool → Prop
  | [] => f = globals
  | flag :: flags => marks[f]? = some flag ∧ ∃ g, s.parent? f = some g ∧ s.Signed marks g flags

variable {s t : Store} {marks marks' : List Bool} {f : FrameId} {flags : List Bool}

theorem Signed.grow (h : s.Signed marks f flags) (hst : s.Grows t) (hmarks : marks <+: marks') :
    t.Signed marks' f flags := by
  induction flags generalizing f with
  | nil => exact h
  | cons flag flags ih =>
    obtain ⟨hflag, g, hparent, houter⟩ := h
    obtain ⟨hlt, _⟩ := List.getElem?_eq_some_iff.mp hflag
    have hsame := List.prefix_iff_getElem?.mp hmarks f hlt
    rw [← List.getElem?_eq_getElem hlt] at hsame
    exact ⟨hsame.trans hflag, g, hst.parent? hparent, ih houter⟩

/-- The flag of a scope is the mark of its frame. -/
theorem Signed.ancestor? (h : s.Signed marks f flags) {d : Nat} {g : FrameId}
    (hd : d < flags.length)
    (hg : s.ancestor? f d = some g) : marks[g]? = flags[d]? := by
  induction flags generalizing f d with
  | nil => exact absurd hd (Nat.not_lt_zero _)
  | cons flag flags ih =>
    obtain ⟨hflag, g', hparent, houter⟩ := h
    cases d with
    | zero =>
      cases hg
      exact hflag
    | succ d =>
      rw [Store.ancestor?, hparent] at hg
      exact ih houter (Nat.lt_of_succ_lt_succ hd) hg

/-- There is one flag for each scope of the frames. -/
theorem Signed.length (h : s.Signed marks f flags) (hroot : s.parent? globals = none)
    {scopes : List Scope} (hchain : s.Chain f scopes) : flags.length = scopes.length := by
  induction flags generalizing f scopes with
  | nil =>
    cases scopes with
    | nil => rfl
    | cons scope outer =>
      obtain ⟨_, g, hparent, _⟩ := hchain
      rw [show f = globals from h, hroot] at hparent
      cases hparent
  | cons flag flags ih =>
    obtain ⟨_, g, hparent, houter⟩ := h
    cases scopes with
    | nil =>
      rw [show f = globals from hchain, hroot] at hparent
      cases hparent
    | cons scope outer =>
      obtain ⟨_, g', hparent', houter'⟩ := hchain
      rw [hparent] at hparent'
      cases hparent'
      exact congrArg Nat.succ (ih houter houter')

/-- A frame inside marked ones has a flag of its own. -/
theorem Signed.push (h : s.Signed marks f flags) (hmarks : marks.length = s.frames.size)
    (vars : Bindings Value) (flag : Bool) :
    (s.newFrame ⟨vars, some f⟩).2.Signed (marks ++ [flag]) s.frames.size (flag :: flags) := by
  refine ⟨?_, f, s.parent?_newFrame_self _, ?_⟩
  · rw [← hmarks, List.getElem?_concat_length]
  · exact h.grow (s.grows_newFrame _) (List.prefix_append marks [flag])

end Store

/-! ## Mirrored values -/

section

variable (r : Renaming) (marks : List Bool) (s : Store)

/-- The closure has the body renamed, as the frames that it closes over are marked. -/
def Closure.Mirrors (c c' : Closure) : Prop :=
  ∃ chosen flags, s.Signed marks c.frame flags ∧ c.decl.Renamable r chosen ∧
    c' = { c with decl := c.decl.rename r chosen flags }

/-- For a method the frame of `this` is still missing, which is never marked. -/
def Closure.MirrorsMethod (c c' : Closure) : Prop :=
  ∃ chosen flags, s.Signed marks c.frame flags ∧ c.decl.Renamable r chosen ∧
    c' = { c with decl := c.decl.rename r chosen (false :: flags) }

structure Class.Mirrors (c c' : Class) : Prop where
  stamp : c'.stamp = c.stamp
  name : c'.name = c.name
  methods : ∀ name, Option.Rel (Closure.MirrorsMethod r marks s) (c.findMethod name)
    (c'.findMethod name)

/-- The value is the same, but for renamed bodies. -/
def Value.Mirrors : Value → Value → Prop
  | .function closure stamp, v' => ∃ closure', v' = .function closure' stamp ∧
    closure.Mirrors r marks s closure'
  | .class cls, v' => ∃ cls', v' = .class cls' ∧ cls.Mirrors r marks s cls'
  | v, v' => v' = v

/-- The store is the same, but for renamed bodies and for the names in marked frames. -/
structure Store.Mirrors (s' : Store) : Prop where
  size : s'.frames.size = s.frames.size
  marked : marks.length = s.frames.size
  global : marks[Store.globals]? = some false
  root : s.parent? Store.globals = none
  links : ∀ f, s'.parent? f = s.parent? f
  vars : ∀ f name, Option.Rel (Value.Mirrors r marks s) (s.own? f name)
    (s'.own? f (r.swap (marks.getD f false) name))
  objects : s'.instances.size = s.instances.size
  classes : ∀ i, s'.className? i = s.className? i
  fields : ∀ i name, Option.Rel (Value.Mirrors r marks s) (s.field? i name) (s'.field? i name)
  methods : ∀ i name, Option.Rel (Closure.MirrorsMethod r marks s) (s.method? i name)
    (s'.method? i name)
  stamp : s'.nextStamp = s.nextStamp

end

variable {r : Renaming} {marks marks' : List Bool} {s s' t : Store}

theorem rel_mono {α β : Type} {R S : α → β → Prop} {a : Option α} {b : Option β}
    (h : Option.Rel R a b) (hRS : ∀ x y, R x y → S x y) : Option.Rel S a b := by
  cases h with
  | none => exact .none
  | some h => exact .some (hRS _ _ h)

theorem rel_cases {α β : Type} {R : α → β → Prop} {a : Option α} {b : Option β}
    (h : Option.Rel R a b) : a = none ∧ b = none ∨ ∃ x y, a = some x ∧ b = some y ∧ R x y := by
  cases h with
  | none => exact .inl ⟨rfl, rfl⟩
  | some h => exact .inr ⟨_, _, rfl, rfl, h⟩

section

variable (hst : s.Grows t) (hmarks : marks <+: marks')
include hst hmarks

theorem Closure.Mirrors.grow {c c' : Closure} (h : c.Mirrors r marks s c') :
    c.Mirrors r marks' t c' := by
  obtain ⟨chosen, flags, hsigned, hrest⟩ := h
  exact ⟨chosen, flags, hsigned.grow hst hmarks, hrest⟩

theorem Closure.MirrorsMethod.grow {c c' : Closure} (h : c.MirrorsMethod r marks s c') :
    c.MirrorsMethod r marks' t c' := by
  obtain ⟨chosen, flags, hsigned, hrest⟩ := h
  exact ⟨chosen, flags, hsigned.grow hst hmarks, hrest⟩

theorem Class.Mirrors.grow {c c' : Class} (h : c.Mirrors r marks s c') :
    c.Mirrors r marks' t c' := by
  exact ⟨h.stamp, h.name, fun name => rel_mono (h.methods name) fun _ _ h => h.grow hst hmarks⟩

theorem Value.Mirrors.grow {v v' : Value} (h : v.Mirrors r marks s v') :
    v.Mirrors r marks' t v' := by
  cases v with
  | function closure stamp =>
    obtain ⟨closure', rfl, hclosure⟩ := h
    exact ⟨closure', rfl, hclosure.grow hst hmarks⟩
  | «class» cls =>
    obtain ⟨cls', rfl, hcls⟩ := h
    exact ⟨cls', rfl, hcls.grow hst hmarks⟩
  | _ => exact h

end

namespace Store.Mirrors

theorem define (h : s.Mirrors r marks s') (f : FrameId) (name : String) {v v' : Value}
    (hv : v.Mirrors r marks s v') :
    (s.define f name v).Mirrors r marks (s'.define f (r.swap (marks.getD f false) name) v') := by
  have hgrow := s.grows_define f name v
  refine ⟨?_, ?_, h.global, ?_, ?_, ?_, h.objects, h.classes, ?_, ?_, h.stamp⟩
  · rw [size_define, size_define, h.size]
  · rw [size_define, h.marked]
  · rw [parent?_define, h.root]
  · intro g
    rw [parent?_define, parent?_define, h.links]
  · intro g other
    have hold := rel_mono (h.vars g other) fun _ _ hw => hw.grow hgrow List.prefix_rfl
    rw [own?_define_eq, own?_define_eq, h.size]
    by_cases hg : g = f
    · subst hg
      -- Exchanged names are the same exactly where the names are.
      by_cases hcase : other = name ∧ g < s.frames.size
      · rw [if_pos ⟨rfl, hcase⟩, if_pos ⟨rfl, by rw [hcase.1], hcase.2⟩]
        exact .some (hv.grow hgrow List.prefix_rfl)
      · rw [if_neg fun h => hcase h.2, if_neg fun h => hcase ⟨Renaming.swap_inj.mp h.2.1, h.2.2⟩]
        exact hold
    · rw [if_neg fun h => hg h.1, if_neg fun h => hg h.1]
      exact hold
  · exact fun i other => rel_mono (h.fields i other) fun _ _ hw => hw.grow hgrow List.prefix_rfl
  · exact fun i other => rel_mono (h.methods i other) fun _ _ hc => hc.grow hgrow List.prefix_rfl

/-- A new frame is marked or not; its variables are those of the old one. -/
theorem newFrame (h : s.Mirrors r marks s') (flag : Bool) {vars vars' : Bindings Value}
    (parent : Option FrameId)
    (hvars : ∀ name, Option.Rel (Value.Mirrors r marks s) (vars.get? name)
      (vars'.get? (r.swap flag name))) :
    (s.newFrame ⟨vars, parent⟩).2.Mirrors r (marks ++ [flag]) (s'.newFrame ⟨vars', parent⟩).2 := by
  have hgrow := s.grows_newFrame ⟨vars, parent⟩
  have hmarks := List.prefix_append marks [flag]
  have hpos : Store.globals < s.frames.size := by
    rw [← h.marked]
    exact (List.getElem?_eq_some_iff.mp h.global).1
  refine ⟨?_, ?_, ?_, ?_, ?_, ?_, h.objects, h.classes, ?_, ?_, h.stamp⟩
  · show (s'.frames.push _).size = (s.frames.push _).size
    rw [Array.size_push, Array.size_push, h.size]
  · show (marks ++ [flag]).length = (s.frames.push _).size
    rw [Array.size_push, List.length_append, h.marked, List.length_singleton]
  · rw [List.getElem?_append_left (h.marked ▸ hpos), h.global]
  · rw [parent?_newFrame_of_ne _ _ (Nat.ne_of_lt hpos), h.root]
  · intro f
    by_cases hf : f = s.frames.size
    · subst hf
      rw [parent?_newFrame_self, ← h.size, parent?_newFrame_self]
    · rw [parent?_newFrame_of_ne _ _ hf, parent?_newFrame_of_ne _ _ (h.size ▸ hf), h.links]
  · intro f name
    by_cases hf : f = s.frames.size
    · subst hf
      have hflag : (marks ++ [flag]).getD s.frames.size false = flag := by
        rw [← h.marked, List.getD_eq_getElem?_getD, List.getElem?_concat_length]
        rfl
      rw [hflag, own?_newFrame_self, ← h.size, own?_newFrame_self]
      exact rel_mono (hvars name) fun _ _ hv => hv.grow hgrow hmarks
    · have hold := h.vars f name
      have hmark : (marks ++ [flag]).getD f false = marks.getD f false := by
        rw [List.getD_eq_getElem?_getD, List.getD_eq_getElem?_getD]
        by_cases hlt : f < marks.length
        · rw [List.getElem?_append_left hlt]
        · have hbeyond : (marks ++ [flag]).length ≤ f := by
            rw [List.length_append, List.length_singleton]
            exact Nat.lt_of_le_of_ne (Nat.not_lt.mp hlt) (h.marked ▸ Ne.symm hf)
          rw [List.getElem?_eq_none (Nat.not_lt.mp hlt), List.getElem?_eq_none hbeyond]
      rw [hmark, own?_newFrame_of_ne _ _ hf, own?_newFrame_of_ne _ _ (h.size ▸ hf)]
      exact rel_mono hold fun _ _ hv => hv.grow hgrow hmarks
  · exact fun i name => rel_mono (h.fields i name) fun _ _ hv => hv.grow hgrow hmarks
  · exact fun i name => rel_mono (h.methods i name) fun _ _ hc => hc.grow hgrow hmarks

theorem newStamp (h : s.Mirrors r marks s') : s.newStamp.2.Mirrors r marks s'.newStamp.2 := by
  have hgrow : s.Grows s.newStamp.2 := grows_of_frames rfl
  refine ⟨h.size, h.marked, h.global, h.root, h.links, ?_, h.objects, h.classes, ?_, ?_, ?_⟩
  · exact fun f name => rel_mono (h.vars f name) fun _ _ hv => hv.grow hgrow List.prefix_rfl
  · exact fun i name => rel_mono (h.fields i name) fun _ _ hv => hv.grow hgrow List.prefix_rfl
  · exact fun i name => rel_mono (h.methods i name) fun _ _ hc => hc.grow hgrow List.prefix_rfl
  · exact congrArg (· + 1) h.stamp

theorem newInstance (h : s.Mirrors r marks s') {cls cls' : Class}
    (hcls : cls.Mirrors r marks s cls') :
    (s.newInstance cls).2.Mirrors r marks (s'.newInstance cls').2 := by
  have hgrow : s.Grows (s.newInstance cls).2 := grows_of_frames rfl
  refine ⟨h.size, h.marked, h.global, h.root, h.links, ?_, ?_, ?_, ?_, ?_, h.stamp⟩
  · exact fun f name => rel_mono (h.vars f name) fun _ _ hv => hv.grow hgrow List.prefix_rfl
  · show (s'.instances.push _).size = (s.instances.push _).size
    rw [Array.size_push, Array.size_push, h.objects]
  · intro i
    rw [className?_newInstance, className?_newInstance, h.objects, h.classes, hcls.name]
  · intro i name
    rw [field?_newInstance, field?_newInstance, h.objects]
    by_cases hi : i = s.instances.size
    · rw [if_pos hi, if_pos hi]
      exact .none
    · rw [if_neg hi, if_neg hi]
      exact rel_mono (h.fields i name) fun _ _ hv => hv.grow hgrow List.prefix_rfl
  · intro i name
    rw [method?_newInstance, method?_newInstance, h.objects]
    by_cases hi : i = s.instances.size
    · rw [if_pos hi, if_pos hi]
      exact rel_mono (hcls.methods name) fun _ _ hc => hc.grow hgrow List.prefix_rfl
    · rw [if_neg hi, if_neg hi]
      exact rel_mono (h.methods i name) fun _ _ hc => hc.grow hgrow List.prefix_rfl

theorem setField (h : s.Mirrors r marks s') (i : InstanceId) (name : String) {v v' : Value}
    (hv : v.Mirrors r marks s v') :
    (s.setField i name v).Mirrors r marks (s'.setField i name v') := by
  have hgrow : s.Grows (s.setField i name v) := grows_of_frames rfl
  refine ⟨h.size, h.marked, h.global, h.root, h.links, ?_, ?_, ?_, ?_, ?_, h.stamp⟩
  · exact fun f name => rel_mono (h.vars f name) fun _ _ hv => hv.grow hgrow List.prefix_rfl
  · show (s'.instances.modify _ _).size = (s.instances.modify _ _).size
    rw [Array.size_modify, Array.size_modify, h.objects]
  · intro j
    rw [className?_setField, className?_setField, h.classes]
  · intro j other
    rw [field?_setField, field?_setField, h.objects]
    by_cases hcase : j = i ∧ other = name ∧ i < s.instances.size
    · rw [if_pos hcase, if_pos hcase]
      exact .some (hv.grow hgrow List.prefix_rfl)
    · rw [if_neg hcase, if_neg hcase]
      exact rel_mono (h.fields j other) fun _ _ hw => hw.grow hgrow List.prefix_rfl
  · intro j other
    rw [method?_setField, method?_setField]
    exact rel_mono (h.methods j other) fun _ _ hc => hc.grow hgrow List.prefix_rfl

end Store.Mirrors

end Lox
