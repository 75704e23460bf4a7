/-
  Lox.Proofs.Grounding.Stores

  Stores in which everything refers to what was made before it.

    * `Closure.Grounded`, `Class.Grounded`, `Value.Grounded` — the frames and instances are
      there, and a superclass has an older stamp than the class;
    * `Store.Grounded` — so it is for all values in a store; links lead to older frames, and
      only the global frame has none; `this` is always an instance and `super` a class;
    * `Store.Moves` — the changes that programs make, with what they need of the store:
      binding a name, opening a frame for a block or a call, the frame of a bound method, that
      of the methods of a subclass, an instance, a field, a stamp;
    * `Store.Moves.grounded` — none of them leaves the grounded stores;
    * `Store.Goes` — several moves; `Machine.Goes` — a machine whose store goes on, and which
      is back in its frame.

  Values may well form cycles.  What is ordered is the making of frames and classes.
-/
import Lox.Proofs.Methods.Super

namespace Lox

/-! ## What is grounded -/

/-- The frame that the body sees is there, and the body is as the grammar has it. -/
structure Closure.Grounded (s : Store) (c : Closure) : Prop where
  frame : c.frame < s.frames.size
  proper : c.decl.Proper

/-- All methods of the lineage are grounded, and every superclass in it is older than the
    class. -/
structure Class.Grounded (s : Store) (cls : Class) : Prop where
  methods : ∀ c ∈ cls.lineage, ∀ name method, c.methods.get? name = some method →
    method.Grounded s
  older : ∀ c ∈ cls.lineage, ∀ parent, c.superclass = some parent → parent.stamp < c.stamp
  stamp : cls.stamp < s.nextStamp

/-- What a value refers to is there. -/
def Value.Grounded (s : Store) : Value → Prop
  | .function closure _ => closure.Grounded s
  | .class cls => cls.Grounded s
  | .instance i => i < s.instances.size
  | _ => True

/-- All values are grounded, links lead to older frames up to the global one, and `this` and
    `super` are what they must be. -/
structure Store.Grounded (s : Store) : Prop where
  globals : Store.globals < s.frames.size
  top : s.parent? Store.globals = none
  link : ∀ f, f < s.frames.size → f ≠ Store.globals → ∃ g, s.parent? f = some g ∧ g < f
  values : s.All (Value.Grounded s) fun _ method => method.Grounded s
  classes : ∀ i cls, s.class? i = some cls → cls.Grounded s
  suits : ∀ f name v, s.own? f name = some v → v.Suits name

/-- The store is grounded, and the current frame is in it. -/
structure Machine.Grounded (m : Machine) : Prop where
  store : m.store.Grounded
  env : m.env < m.store.frames.size

/-! ## Later stores -/

/-- Nothing is lost: frames are steady, and instances and stamps stay. -/
structure Store.Onward (s t : Store) : Prop extends s.Steady t where
  instances : s.instances.size ≤ t.instances.size
  stamps : s.nextStamp ≤ t.nextStamp

variable {s t u : Store}

theorem Store.Onward.refl (s : Store) : s.Onward s := ⟨.refl s, Nat.le_refl _, Nat.le_refl _⟩

theorem Store.Onward.trans (hst : s.Onward t) (htu : t.Onward u) : s.Onward u :=
  ⟨hst.toSteady.trans htu.toSteady, Nat.le_trans hst.instances htu.instances,
    Nat.le_trans hst.stamps htu.stamps⟩

theorem Closure.Grounded.onward {c : Closure} (h : c.Grounded s) (hst : s.Onward t) :
    c.Grounded t :=
  ⟨Nat.lt_of_lt_of_le h.frame hst.size, h.proper⟩

theorem Class.Grounded.onward {cls : Class} (h : cls.Grounded s) (hst : s.Onward t) :
    cls.Grounded t :=
  ⟨fun c hc name method hmethod => (h.methods c hc name method hmethod).onward hst, h.older,
    Nat.lt_of_lt_of_le h.stamp hst.stamps⟩

theorem Value.Grounded.onward {v : Value} (h : v.Grounded s) (hst : s.Onward t) :
    v.Grounded t := by
  cases v with
  | function closure stamp => exact Closure.Grounded.onward h hst
  | «class» cls => exact Class.Grounded.onward h hst
  | «instance» i => exact Nat.lt_of_lt_of_le h hst.instances
  | _ => trivial

theorem Value.Free.grounded {v : Value} (h : v.Free) (s : Store) : v.Grounded s := by
  cases v with
  | function closure stamp => exact h.elim
  | «class» cls => exact h.elim
  | «instance» i => exact h.elim
  | _ => trivial

/-! ## Classes -/

/-- The lineage of a class is the class itself, and that of its superclass behind it. -/
theorem Class.lineage_eq (cls : Class) :
    cls.lineage = cls :: (cls.superclass.elim [] lineage) := by
  cases cls with
  | mk stamp name methods superclass => cases superclass <;> rw [lineage.eq_def] <;> rfl

/-- A method that is found is one that a class of the lineage has. -/
theorem Class.Grounded.method {cls : Class} (h : cls.Grounded s) {name : String}
    {method : Closure} (hmethod : cls.findMethod name = some method) : method.Grounded s := by
  rw [findMethod_eq] at hmethod
  obtain ⟨c, hc, hown⟩ := List.exists_of_findSome?_eq_some hmethod
  exact h.methods c hc name method hown

/-- A new class is grounded if its superclass is. -/
theorem Class.Grounded.make {name : String} {methods : Bindings Closure} {parent : Option Class}
    (hmethods : ∀ called method, methods.get? called = some method → method.Grounded s)
    (hparent : ∀ cls, parent = some cls → cls.Grounded s) :
    Class.Grounded s.newStamp.2 ⟨s.nextStamp, name, methods, parent⟩ := by
  have honward : s.Onward s.newStamp.2 :=
    ⟨Store.steady_of_frames rfl, Nat.le_refl _, Nat.le_succ _⟩
  -- What comes behind the new class is the lineage of its superclass, if it has one.
  have hmem {c : Class} (hc : c ∈ (Class.mk s.nextStamp name methods parent).lineage) :
      c = ⟨s.nextStamp, name, methods, parent⟩ ∨ ∃ cls, parent = some cls ∧ c ∈ cls.lineage := by
    rw [lineage_eq] at hc
    obtain rfl | hc := List.mem_cons.mp hc
    · exact .inl rfl
    · cases parent with
      | none => cases hc
      | some cls => exact .inr ⟨cls, rfl, hc⟩
  refine ⟨fun c hc called method hmethod => ?_, fun c hc older hsuper => ?_, Nat.lt_succ_self _⟩
  · obtain rfl | ⟨cls, hcls, hc⟩ := hmem hc
    · exact (hmethods called method hmethod).onward honward
    · exact ((hparent cls hcls).methods c hc called method hmethod).onward honward
  · obtain rfl | ⟨cls, hcls, hc⟩ := hmem hc
    · exact (hparent older hsuper).stamp
    · exact (hparent cls hcls).older c hc older hsuper

/-! ## Changes of grounded stores -/

/-- A single change that a program makes. -/
inductive Store.Moves (s : Store) : Store → Prop
  | bound (f : FrameId) {name : Lexeme} {v : Value} :
      name.Ordinary → v.Grounded s → Moves s (s.define f name.text v)
  /-- A frame for a block or a call. -/
  | opened {vars : Bindings Value} {around : FrameId} : around < s.frames.size →
      (∀ name v, vars.get? name = some v → name ≠ "this" ∧ name ≠ "super" ∧ v.Grounded s) →
      Moves s (s.newFrame ⟨vars, some around⟩).2
  | received {method : Closure} {i : InstanceId} :
      method.Grounded s → i < s.instances.size → Moves s (s.bindMethod method i).2
  /-- A frame for the methods of a subclass. -/
  | derived {parent : Class} {around : FrameId} : around < s.frames.size → parent.Grounded s →
      Moves s (s.newFrame ⟨.single "super" (.class parent), some around⟩).2
  | born {cls : Class} : cls.Grounded s → Moves s (s.newInstance cls).2
  | fielded (i : InstanceId) (name : String) {v : Value} :
      v.Grounded s → Moves s (s.setField i name v)
  | stamped : Moves s s.newStamp.2

namespace Store

theorem onward_newFrame (s : Store) (frame : Frame) : s.Onward (s.newFrame frame).2 :=
  ⟨s.steady_newFrame frame, Nat.le_refl _, Nat.le_refl _⟩

theorem size_lt_newFrame (s : Store) (frame : Frame) :
    s.frames.size < (s.newFrame frame).2.frames.size :=
  Nat.lt_of_lt_of_eq (Nat.lt_succ_self _) (Array.size_push _).symm

theorem size_lt_newInstance (s : Store) (cls : Class) :
    s.instances.size < (s.newInstance cls).2.instances.size :=
  Nat.lt_of_lt_of_eq (Nat.lt_succ_self _) (Array.size_push _).symm

/-- Nothing is lost by a move. -/
theorem Moves.onward (h : s.Moves t) : s.Onward t := by
  cases h with
  | bound f hname _ => exact ⟨s.steady_define f hname _, Nat.le_refl _, Nat.le_refl _⟩
  | opened _ _ => exact s.onward_newFrame _
  | received _ _ => exact s.onward_newFrame _
  | derived _ _ => exact s.onward_newFrame _
  | born _ =>
    exact ⟨steady_of_frames rfl, Nat.le_of_lt (s.size_lt_newInstance _), Nat.le_refl _⟩
  | fielded i name _ =>
    exact ⟨steady_of_frames rfl, Nat.le_of_eq Array.size_modify.symm, Nat.le_refl _⟩
  | stamped => exact ⟨steady_of_frames rfl, Nat.le_refl _, Nat.le_succ _⟩

namespace Grounded

/-- What is grounded before a change is so in the new store. -/
theorem all_onward (hs : s.All (Value.Grounded u) fun _ method => method.Grounded u)
    (h : u.Onward t) : s.All (Value.Grounded t) fun _ method => method.Grounded t :=
  hs.mono (fun _ hv => hv.onward h) fun _ _ hm => hm.onward h

variable (hs : s.Grounded)
include hs

theorem define (f : FrameId) {name : Lexeme} (hname : name.Ordinary) {v : Value}
    (hv : v.Grounded s) : (s.define f name.text v).Grounded := by
  have honward : s.Onward (s.define f name.text v) := (Moves.bound f hname hv).onward
  -- A definition is the only move that changes a frame, and it changes no link.
  refine ⟨?_, ?_, fun g hg htop => ?_, all_onward (hs.values.define hv) honward,
    fun i cls hcls => (hs.classes i cls hcls).onward honward, fun g other w hw => ?_⟩
  · rw [size_define]
    exact hs.globals
  · rw [parent?_define]
    exact hs.top
  · rw [size_define] at hg
    rw [parent?_define]
    exact hs.link g hg htop
  · rcases own?_define hw with ⟨-, rfl, -⟩ | hold
    · exact hname.suits w
    · exact hs.suits g other w hold

theorem newFrame {vars : Bindings Value} {around : FrameId} (haround : around < s.frames.size)
    (hvars : ∀ name v, vars.get? name = some v → v.Grounded s ∧ v.Suits name) :
    (s.newFrame ⟨vars, some around⟩).2.Grounded := by
  have honward := s.onward_newFrame ⟨vars, some around⟩
  have hglobals : Store.globals ≠ s.frames.size := Nat.ne_of_lt hs.globals
  refine ⟨Nat.lt_of_lt_of_le hs.globals honward.size, ?_, fun f hf htop => ?_,
    all_onward (hs.values.newFrame fun name v hv => (hvars name v hv).1) honward,
    fun i cls hcls => (hs.classes i cls hcls).onward honward, fun f name v hv => ?_⟩
  · rw [s.parent?_newFrame_of_ne _ hglobals]
    exact hs.top
  · by_cases hnew : f = s.frames.size
    · rw [hnew, parent?_newFrame_self]
      exact ⟨around, rfl, haround⟩
    · have hsize : (s.newFrame ⟨vars, some around⟩).2.frames.size = s.frames.size + 1 :=
        Array.size_push _
      rw [s.parent?_newFrame_of_ne _ hnew]
      exact hs.link f (by omega) htop
  · by_cases hnew : f = s.frames.size
    · rw [hnew, own?_newFrame_self] at hv
      exact (hvars name v hv).2
    · rw [s.own?_newFrame_of_ne _ hnew] at hv
      exact hs.suits f name v hv

/-- Where the frames are the same, only values and instances are to be looked at. -/
theorem of_frames (hframes : t.frames = s.frames)
    (hvalues : t.All (Value.Grounded t) fun _ method => method.Grounded t)
    (hclasses : ∀ i cls, t.class? i = some cls → cls.Grounded t) : t.Grounded := by
  have hparent (f : FrameId) : t.parent? f = s.parent? f := by
    unfold parent?
    rw [hframes]
  have hown (f : FrameId) (name : String) : t.own? f name = s.own? f name := by
    unfold own?
    rw [hframes]
  refine ⟨?_, ?_, fun f hf htop => ?_, hvalues, hclasses, fun f name v hv => ?_⟩
  · rw [hframes]
    exact hs.globals
  · rw [hparent]
    exact hs.top
  · rw [hframes] at hf
    rw [hparent]
    exact hs.link f hf htop
  · rw [hown] at hv
    exact hs.suits f name v hv

end Grounded

/-- A move leads from a grounded store to a grounded store. -/
theorem Moves.grounded (h : s.Moves t) (hs : s.Grounded) : t.Grounded := by
  have honward := h.onward
  -- The three kinds of new frames differ in what they have under `this` and `super`.
  cases h with
  | bound f hname hv => exact hs.define f hname hv
  | opened haround hvars =>
    refine hs.newFrame haround fun name v hv => ?_
    obtain ⟨hthis, hsuper, hgrounded⟩ := hvars name v hv
    exact ⟨hgrounded, fun heq => absurd heq hthis, fun heq => absurd heq hsuper⟩
  | @received method i hmethod hi =>
    refine hs.newFrame hmethod.frame fun name v hv => ?_
    obtain ⟨rfl, rfl⟩ := Bindings.get?_single_eq_some hv
    exact ⟨hi, fun _ => ⟨i, rfl⟩, fun heq => absurd heq (by decide)⟩
  | @derived parent around haround hparent =>
    refine hs.newFrame haround fun name v hv => ?_
    obtain ⟨rfl, rfl⟩ := Bindings.get?_single_eq_some hv
    exact ⟨hparent, fun heq => absurd heq (by decide), fun _ => ⟨parent, rfl⟩⟩
  | @born cls hcls =>
    refine hs.of_frames rfl (Grounded.all_onward
      (hs.values.newInstance fun _ _ hmethod => hcls.method hmethod) honward) fun i own hown => ?_
    rw [class?_newInstance] at hown
    split at hown
    · cases hown
      exact hcls.onward honward
    · exact (hs.classes i own hown).onward honward
  | fielded i name hv =>
    refine hs.of_frames rfl (Grounded.all_onward (hs.values.setField hv) honward)
      fun j cls hcls => ?_
    rw [class?_setField] at hcls
    exact (hs.classes j cls hcls).onward honward
  | stamped =>
    exact hs.of_frames rfl (Grounded.all_onward hs.values.newStamp honward)
      fun i cls hcls => (hs.classes i cls hcls).onward honward

/-- The second store comes from the first one by moves. -/
abbrev Goes : Store → Store → Prop := Relation.ReflTransGen Moves

theorem Goes.onward (h : s.Goes t) : s.Onward t := by
  induction h with
  | refl => exact .refl s
  | tail _ hmove ih => exact ih.trans hmove.onward

theorem Goes.grounded (h : s.Goes t) (hs : s.Grounded) : t.Grounded := by
  induction h with
  | refl => exact hs
  | tail _ hmove ih => exact hmove.grounded ih

end Store

/-! ## Machines -/

/-- The store goes on, and the current frame is the same. -/
structure Machine.Goes (m n : Machine) : Prop where
  env : n.env = m.env
  store : m.store.Goes n.store

theorem Machine.Goes.refl (m : Machine) : m.Goes m := ⟨rfl, .refl⟩

theorem Machine.Goes.trans {a b c : Machine} (hab : a.Goes b) (hbc : b.Goes c) : a.Goes c :=
  ⟨hbc.env.trans hab.env, hab.store.trans hbc.store⟩

theorem Machine.Goes.grounded {m n : Machine} (h : m.Goes n) (hm : m.Grounded) : n.Grounded := by
  refine ⟨h.store.grounded hm.store, ?_⟩
  rw [h.env]
  exact Nat.lt_of_lt_of_le hm.env h.store.onward.size

/-- A new machine has the global frame and nothing else. -/
theorem Machine.grounded_start (out : Sink) (clock : Nat → Option Float) :
    (Machine.start out clock).Grounded := by
  have hframes : Store.empty.Grounded := by
    have hnone (f : FrameId) (name : String) : Store.empty.own? f name = none := by
      unfold Store.own? Store.empty
      cases f <;> rfl
    refine ⟨Nat.zero_lt_one, rfl, fun f hf htop => absurd (Nat.lt_one_iff.mp hf) htop,
      ⟨fun f name v hv => ?_, nofun, nofun⟩, nofun, fun f name v hv => ?_⟩
    all_goals
      rw [hnone] at hv
      cases hv
  have hclock : Lexeme.Ordinary ⟨"clock", 0⟩ := ⟨by decide, by decide⟩
  exact ⟨hframes.define Store.globals hclock trivial, Nat.zero_lt_one⟩

end Lox
