/-
  Lox.Proofs.Loops.Stores

  Two stores whose frames are paired.

    * `Closure.Matches`, `Value.Matches` — the same value, but for the numbers of
      occurrences in bodies and the frames that these see;
    * `Store.Matches` — frames that make a pair bind the same names to matching values, and
      everything else in the stores is the same.  A frame without a partner may be anything.

  Every change that is made on both stores leaves stores that match (`Store.Matches.define`,
  `.newFrame`, `.newInstance`, `.setField`), and so does a new frame in one of them alone
  (`.leftFrame`, `.rightFrame`).
-/
import Lox.Proofs.Loops.Trees
import Lox.Proofs.Renaming.Mirror

namespace Lox

theorem Store.size_newFrame (s : Store) (frame : Frame) :
    (s.newFrame frame).2.frames.size = s.frames.size + 1 := Array.size_push _

/-! ## Matching values -/

section

variable (T T' : Table) (pairs : FramePairs) (s s' : Store)

/-- The body has other numbers, and the frames that it sees are paired where the tables
    lead to them. -/
def Closure.Matches (c c' : Closure) : Prop :=
  ∃ ν links f', Store.Beside pairs s s' links c.frame f' ∧ (c.frame, f') ∈ pairs ∧
    c.decl.Placed T T' ν links ∧ c' = ⟨c.decl.relabel (.numbers ν), f', c.isInitializer⟩

/-- For a method the frame of `this` is still missing. -/
def Closure.MatchesMethod (c c' : Closure) : Prop :=
  ∃ ν links f', Store.Beside pairs s s' links c.frame f' ∧ c.decl.Placed T T' ν (.both :: links) ∧
    c' = ⟨c.decl.relabel (.numbers ν), f', c.isInitializer⟩

structure Class.Matches (c c' : Class) : Prop where
  stamp : c'.stamp = c.stamp
  name : c'.name = c.name
  methods : ∀ name, Option.Rel (Closure.MatchesMethod T T' pairs s s') (c.findMethod name)
    (c'.findMethod name)

def Value.Matches : Value → Value → Prop
  | .function closure stamp, v' => ∃ closure', v' = .function closure' stamp ∧
    closure.Matches T T' pairs s s' closure'
  | .class cls, v' => ∃ cls', v' = .class cls' ∧ cls.Matches T T' pairs s s' cls'
  | v, v' => v' = v

structure Store.Matches : Prop where
  within : ∀ p ∈ pairs, p.1 < s.frames.size ∧ p.2 < s'.frames.size
  /-- No frame has two partners. -/
  apart : ∀ p ∈ pairs, ∀ q ∈ pairs, p.1 = q.1 ↔ p.2 = q.2
  global : (Store.globals, Store.globals) ∈ pairs
  root : s.parent? Store.globals = none
  root' : s'.parent? Store.globals = none
  vars : ∀ p ∈ pairs, ∀ name, Option.Rel (Value.Matches T T' pairs s s') (s.own? p.1 name)
    (s'.own? p.2 name)
  objects : s'.instances.size = s.instances.size
  classes : ∀ i, s'.className? i = s.className? i
  fields : ∀ i name, Option.Rel (Value.Matches T T' pairs s s') (s.field? i name)
    (s'.field? i name)
  methods : ∀ i name, Option.Rel (Closure.MatchesMethod T T' pairs s s') (s.method? i name)
    (s'.method? i name)
  stamp : s'.nextStamp = s.nextStamp

end

variable {T T' : Table} {pairs pairs₁ : FramePairs} {s s' t t' : Store}

section

variable (hpairs : pairs ⊆ pairs₁) (hst : s.Grows t) (hst' : s'.Grows t')
include hpairs hst hst'

theorem Closure.Matches.grow {c c' : Closure} (h : c.Matches T T' pairs s s' c') :
    c.Matches T T' pairs₁ t t' c' := by
  obtain ⟨ν, links, f', hbeside, hpair, hrest⟩ := h
  exact ⟨ν, links, f', hbeside.grow hpairs hst hst', hpairs hpair, hrest⟩

theorem Closure.MatchesMethod.grow {c c' : Closure} (h : c.MatchesMethod T T' pairs s s' c') :
    c.MatchesMethod T T' pairs₁ t t' c' := by
  obtain ⟨ν, links, f', hbeside, hrest⟩ := h
  exact ⟨ν, links, f', hbeside.grow hpairs hst hst', hrest⟩

theorem Class.Matches.grow {c c' : Class} (h : c.Matches T T' pairs s s' c') :
    c.Matches T T' pairs₁ t t' c' :=
  ⟨h.stamp, h.name, fun name =>
    rel_mono (h.methods name) fun _ _ h => h.grow hpairs hst hst'⟩

theorem Value.Matches.grow {v v' : Value} (h : v.Matches T T' pairs s s' v') :
    v.Matches T T' pairs₁ t t' v' := by
  cases v with
  | function closure stamp =>
    obtain ⟨closure', rfl, hclosure⟩ := h
    exact ⟨closure', rfl, hclosure.grow hpairs hst hst'⟩
  | «class» cls =>
    obtain ⟨cls', rfl, hcls⟩ := h
    exact ⟨cls', rfl, hcls.grow hpairs hst hst'⟩
  | _ => exact h

end

namespace Store.Matches

/-! ## Changes of frames -/

/-- Where the instances stay as they are, it is enough to look at the frames. -/
theorem of_frames (h : s.Matches T T' pairs s') (hpairs : pairs ⊆ pairs₁) (hst : s.Grows t)
    (hst' : s'.Grows t') (ht : t.instances = s.instances ∧ t.nextStamp = s.nextStamp)
    (ht' : t'.instances = s'.instances ∧ t'.nextStamp = s'.nextStamp)
    (hwithin : ∀ p ∈ pairs₁, p.1 < t.frames.size ∧ p.2 < t'.frames.size)
    (hapart : ∀ p ∈ pairs₁, ∀ q ∈ pairs₁, p.1 = q.1 ↔ p.2 = q.2)
    (hroot : t.parent? globals = none) (hroot' : t'.parent? globals = none)
    (hvars : ∀ p ∈ pairs₁, ∀ name, Option.Rel (Value.Matches T T' pairs₁ t t') (t.own? p.1 name)
      (t'.own? p.2 name)) : t.Matches T T' pairs₁ t' := by
  refine ⟨hwithin, hapart, hpairs h.global, hroot, hroot', hvars, ?_, fun i => ?_,
    fun i name => ?_, fun i name => ?_, ?_⟩
  · rw [ht.1, ht'.1, h.objects]
  · have hold := h.classes i
    unfold className? at hold ⊢
    rw [ht.1, ht'.1, hold]
  · have hold := rel_mono (h.fields i name) fun _ _ hv => hv.grow hpairs hst hst'
    unfold field? at hold ⊢
    rw [ht.1, ht'.1]
    exact hold
  · have hold := rel_mono (h.methods i name) fun _ _ hc => hc.grow hpairs hst hst'
    unfold method? at hold ⊢
    rw [ht.1, ht'.1]
    exact hold
  · rw [ht.2, ht'.2, h.stamp]

theorem define (h : s.Matches T T' pairs s') {f f' : FrameId} (hpair : (f, f') ∈ pairs)
    (name : String) {v v' : Value} (hv : v.Matches T T' pairs s s' v') :
    (s.define f name v).Matches T T' pairs (s'.define f' name v') := by
  have hgrow := s.grows_define f name v
  have hgrow' := s'.grows_define f' name v'
  obtain ⟨hlt, hlt'⟩ := h.within _ hpair
  refine h.of_frames (List.Subset.refl _) hgrow hgrow' ⟨rfl, rfl⟩ ⟨rfl, rfl⟩ ?_ h.apart ?_ ?_
    fun p hp other => ?_
  · rw [size_define, size_define]
    exact h.within
  · rw [parent?_define, h.root]
  · rw [parent?_define, h.root']
  · rw [own?_define_eq, own?_define_eq]
    -- One frame of a pair is written to exactly where the other one is.
    by_cases hcase : p.1 = f ∧ other = name
    · have hcase' : p.2 = f' := (h.apart p hp _ hpair).mp hcase.1
      rw [if_pos ⟨hcase.1, hcase.2, hlt⟩, if_pos ⟨hcase', hcase.2, hlt'⟩]
      exact .some (hv.grow (List.Subset.refl _) hgrow hgrow')
    · have hcase' : ¬(p.2 = f' ∧ other = name) := fun hcase' =>
        hcase ⟨(h.apart p hp _ hpair).mpr hcase'.1, hcase'.2⟩
      rw [if_neg fun hin => hcase ⟨hin.1, hin.2.1⟩, if_neg fun hin => hcase' ⟨hin.1, hin.2.1⟩]
      exact rel_mono (h.vars p hp other) fun _ _ hw => hw.grow (List.Subset.refl _) hgrow hgrow'

theorem lt_size (h : s.Matches T T' pairs s') : globals < s.frames.size := (h.within _ h.global).1

theorem lt_size' (h : s.Matches T T' pairs s') : globals < s'.frames.size := (h.within _ h.global).2

/-- The frames of a new pair. -/
theorem newFrame (h : s.Matches T T' pairs s') {vars vars' : Bindings Value}
    (parent parent' : Option FrameId)
    (hvars : ∀ name, Option.Rel (Value.Matches T T' pairs s s') (vars.get? name)
      (vars'.get? name)) :
    (s.newFrame ⟨vars, parent⟩).2.Matches T T' ((s.frames.size, s'.frames.size) :: pairs)
      (s'.newFrame ⟨vars', parent'⟩).2 := by
  have hpairs := List.subset_cons_self (s.frames.size, s'.frames.size) pairs
  have hgrow := s.grows_newFrame ⟨vars, parent⟩
  have hgrow' := s'.grows_newFrame ⟨vars', parent'⟩
  refine h.of_frames hpairs hgrow hgrow' ⟨rfl, rfl⟩ ⟨rfl, rfl⟩ ?_ ?_ ?_ ?_ ?_
  · rw [size_newFrame, size_newFrame]
    refine List.forall_mem_cons.mpr ⟨⟨Nat.lt_succ_self _, Nat.lt_succ_self _⟩, fun p hp => ?_⟩
    exact ⟨Nat.lt_succ_of_lt (h.within p hp).1, Nat.lt_succ_of_lt (h.within p hp).2⟩
  · -- The new frames are not in an old pair.
    have hfresh (p : FrameId × FrameId) (hp : p ∈ pairs) :
        p.1 ≠ s.frames.size ∧ p.2 ≠ s'.frames.size :=
      ⟨Nat.ne_of_lt (h.within p hp).1, Nat.ne_of_lt (h.within p hp).2⟩
    refine List.forall_mem_cons.mpr ⟨List.forall_mem_cons.mpr ⟨by simp, fun q hq => ?_⟩,
      fun p hp => List.forall_mem_cons.mpr ⟨?_, h.apart p hp⟩⟩
    · simp [(hfresh q hq).1.symm, (hfresh q hq).2.symm]
    · simp [(hfresh p hp).1, (hfresh p hp).2]
  · rw [parent?_newFrame_of_ne _ _ (Nat.ne_of_lt h.lt_size), h.root]
  · rw [parent?_newFrame_of_ne _ _ (Nat.ne_of_lt h.lt_size'), h.root']
  · refine List.forall_mem_cons.mpr ⟨fun name => ?_, fun p hp name => ?_⟩
    · rw [own?_newFrame_self, own?_newFrame_self]
      exact rel_mono (hvars name) fun _ _ hv => hv.grow hpairs hgrow hgrow'
    · obtain ⟨hlt, hlt'⟩ := h.within p hp
      rw [own?_newFrame_of_ne _ _ (Nat.ne_of_lt hlt), own?_newFrame_of_ne _ _ (Nat.ne_of_lt hlt')]
      exact rel_mono (h.vars p hp name) fun _ _ hv => hv.grow hpairs hgrow hgrow'

/-- A new frame of the first store that has no partner. -/
theorem leftFrame (h : s.Matches T T' pairs s') (frame : Frame) :
    (s.newFrame frame).2.Matches T T' pairs s' := by
  have hgrow := s.grows_newFrame frame
  refine h.of_frames (List.Subset.refl _) hgrow (.refl s') ⟨rfl, rfl⟩ ⟨rfl, rfl⟩ ?_ h.apart ?_
    h.root' fun p hp name => ?_
  · rw [size_newFrame]
    exact fun p hp => ⟨Nat.lt_succ_of_lt (h.within p hp).1, (h.within p hp).2⟩
  · rw [parent?_newFrame_of_ne _ _ (Nat.ne_of_lt h.lt_size), h.root]
  · rw [own?_newFrame_of_ne _ _ (Nat.ne_of_lt (h.within p hp).1)]
    exact rel_mono (h.vars p hp name) fun _ _ hv => hv.grow (List.Subset.refl _) hgrow (.refl s')

/-- A new frame of the second store that has no partner. -/
theorem rightFrame (h : s.Matches T T' pairs s') (frame : Frame) :
    s.Matches T T' pairs (s'.newFrame frame).2 := by
  have hgrow := s'.grows_newFrame frame
  refine h.of_frames (List.Subset.refl _) (.refl s) hgrow ⟨rfl, rfl⟩ ⟨rfl, rfl⟩ ?_ h.apart h.root ?_
    fun p hp name => ?_
  · rw [size_newFrame]
    exact fun p hp => ⟨(h.within p hp).1, Nat.lt_succ_of_lt (h.within p hp).2⟩
  · rw [parent?_newFrame_of_ne _ _ (Nat.ne_of_lt h.lt_size'), h.root']
  · rw [own?_newFrame_of_ne _ _ (Nat.ne_of_lt (h.within p hp).2)]
    exact rel_mono (h.vars p hp name) fun _ _ hv => hv.grow (List.Subset.refl _) (.refl s) hgrow

/-! ## Changes of everything else -/

/-- Where the frames stay as they are, it is enough to look at the instances. -/
theorem of_instances (h : s.Matches T T' pairs s') (ht : t.frames = s.frames)
    (ht' : t'.frames = s'.frames) (hobjects : t'.instances.size = t.instances.size)
    (hclasses : ∀ i, t'.className? i = t.className? i)
    (hfields : ∀ i name, Option.Rel (Value.Matches T T' pairs s s') (t.field? i name)
      (t'.field? i name))
    (hmethods : ∀ i name, Option.Rel (Closure.MatchesMethod T T' pairs s s') (t.method? i name)
      (t'.method? i name)) (hstamp : t'.nextStamp = t.nextStamp) :
    t.Matches T T' pairs t' := by
  have hst := grows_of_frames ht
  have hst' := grows_of_frames ht'
  have hsub := List.Subset.refl pairs
  refine ⟨?_, h.apart, h.global, ?_, ?_, fun p hp name => ?_, hobjects, hclasses,
    fun i name => rel_mono (hfields i name) fun _ _ hv => hv.grow hsub hst hst',
    fun i name => rel_mono (hmethods i name) fun _ _ hc => hc.grow hsub hst hst', hstamp⟩
  · rw [ht, ht']
    exact h.within
  · unfold parent?
    rw [ht]
    exact h.root
  · unfold parent?
    rw [ht']
    exact h.root'
  · have hold := rel_mono (h.vars p hp name) fun _ _ hv => hv.grow hsub hst hst'
    unfold own? at hold ⊢
    rw [ht, ht']
    exact hold

theorem newStamp (h : s.Matches T T' pairs s') : s.newStamp.2.Matches T T' pairs s'.newStamp.2 :=
  h.of_instances rfl rfl h.objects h.classes h.fields h.methods (congrArg (· + 1) h.stamp)

theorem newInstance (h : s.Matches T T' pairs s') {cls cls' : Class}
    (hcls : cls.Matches T T' pairs s s' cls') :
    (s.newInstance cls).2.Matches T T' pairs (s'.newInstance cls').2 := by
  refine h.of_instances rfl rfl ?_ (fun i => ?_) (fun i name => ?_) (fun i name => ?_) h.stamp
  · show (s'.instances.push _).size = (s.instances.push _).size
    rw [Array.size_push, Array.size_push, h.objects]
  · rw [className?_newInstance, className?_newInstance, h.objects, h.classes, hcls.name]
  · rw [field?_newInstance, field?_newInstance, h.objects]
    split
    · exact .none
    · exact h.fields i name
  · rw [method?_newInstance, method?_newInstance, h.objects]
    split
    · exact hcls.methods name
    · exact h.methods i name

theorem setField (h : s.Matches T T' pairs s') (i : InstanceId) (name : String) {v v' : Value}
    (hv : v.Matches T T' pairs s s' v') :
    (s.setField i name v).Matches T T' pairs (s'.setField i name v') := by
  refine h.of_instances rfl rfl ?_ (fun j => ?_) (fun j other => ?_) (fun j other => ?_) h.stamp
  · show (s'.instances.modify _ _).size = (s.instances.modify _ _).size
    rw [Array.size_modify, Array.size_modify, h.objects]
  · rw [className?_setField, className?_setField, h.classes]
  · rw [field?_setField, field?_setField, h.objects]
    split
    · exact .some hv
    · exact h.fields j other
  · rw [method?_setField, method?_setField]
    exact h.methods j other

end Store.Matches

end Lox
