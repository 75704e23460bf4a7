/-
  Lox.Proofs.Scoping.Frames

  Frames as the scopes of the resolver.

    * `Store.Chain` — the frames from a frame outward are those of given scopes:
      they end at the global frame and have the names that the scopes need;
    * `Store.Grows` — links stay and bound names stay bound, so that chains stay
      chains; every action makes the store grow (`evolution_grown`);
    * `Store.Fits` — all closures in a store were made where their bodies are
      scoped, `this` is bound to instances and `super` to classes.
-/
import Lox.Proofs.Restoration
import Lox.Proofs.Scoping.Static

namespace Lox

/-! ## Bound names -/

namespace Store

theorem own?_define_self {s : Store} {f : FrameId} {frame : Frame} (hf : s.frames[f]? = some frame)
    (name : String) (v : Value) : (s.define f name v).own? f name = some v := by
  simp [own?, define, Array.getElem?_modify, hf]

/-- Only the bound name in its frame is changed. -/
theorem own?_define {s : Store} {f g : FrameId} {name other : String} {v w : Value}
    (h : (s.define f name v).own? g other = some w) :
    g = f ∧ other = name ∧ w = v ∨ s.own? g other = some w := by
  unfold own? define at h
  simp only [Array.getElem?_modify] at h
  by_cases hg : f = g
  · subst hg
    cases hframe : s.frames[f]? with
    | none => simp [hframe] at h
    | some frame =>
      simp only [hframe, if_true, Option.map_some] at h
      by_cases hname : other = name
      · subst hname
        rw [Bindings.get?_insert_self] at h
        exact .inl ⟨rfl, rfl, (Option.some.inj h).symm⟩
      · rw [frame.vars.get?_insert_of_ne hname] at h
        refine .inr ?_
        simp only [own?, hframe]
        exact h
  · rw [if_neg hg] at h
    exact .inr h

theorem own?_newFrame_self (s : Store) (frame : Frame) (name : String) :
    (s.newFrame frame).2.own? s.frames.size name = frame.vars.get? name := by
  simp [own?, newFrame]

theorem own?_newFrame_of_ne (s : Store) (frame : Frame) {f : FrameId} (hf : f ≠ s.frames.size)
    (name : String) : (s.newFrame frame).2.own? f name = s.own? f name := by
  simp [own?, newFrame, Array.getElem?_push, hf]

theorem own?_eq_none_of_size (s : Store) (name : String) : s.own? s.frames.size name = none := by
  simp [own?]

theorem parent?_newFrame_self (s : Store) (frame : Frame) :
    (s.newFrame frame).2.parent? s.frames.size = frame.parent := by
  simp [parent?, newFrame]

/-- A name that a frame has is one that it has afterwards. -/
def KeepsNames (s t : Store) : Prop :=
  ∀ (f : FrameId) (name : String), (s.own? f name).isSome → (t.own? f name).isSome

theorem KeepsNames.refl (s : Store) : s.KeepsNames s := fun _ _ h => h

theorem KeepsNames.trans {s t u : Store} (hst : s.KeepsNames t) (htu : t.KeepsNames u) :
    s.KeepsNames u :=
  fun f name h => htu f name (hst f name h)

theorem keepsNames_define (s : Store) (g : FrameId) (name : String) (v : Value) :
    s.KeepsNames (s.define g name v) := by
  intro f other h
  unfold own? define
  simp only [Array.getElem?_modify]
  by_cases hg : g = f
  · subst hg
    cases hframe : s.frames[g]? with
    | none => simp [own?, hframe] at h
    | some frame =>
      simp only [if_true, Option.map_some]
      by_cases hname : other = name
      · rw [hname, Bindings.get?_insert_self]
        rfl
      · rw [frame.vars.get?_insert_of_ne hname]
        simpa only [own?, hframe] using h
  · rw [if_neg hg]
    exact h

theorem keepsNames_newFrame (s : Store) (frame : Frame) : s.KeepsNames (s.newFrame frame).2 := by
  intro f name h
  have hne : f ≠ s.frames.size := by
    rintro rfl
    simp [own?_eq_none_of_size] at h
  rw [s.own?_newFrame_of_ne frame hne]
  exact h

/-- All frames and all names are still there. -/
structure Grows (s t : Store) : Prop where
  links : s.KeepsLinks t
  names : s.KeepsNames t

theorem Grows.refl (s : Store) : s.Grows s := ⟨.refl s, .refl s⟩

theorem Grows.trans {s t u : Store} (hst : s.Grows t) (htu : t.Grows u) : s.Grows u :=
  ⟨hst.links.trans htu.links, hst.names.trans htu.names⟩

theorem grows_define (s : Store) (f : FrameId) (name : String) (v : Value) :
    s.Grows (s.define f name v) :=
  ⟨s.keepsLinks_define f name v, s.keepsNames_define f name v⟩

theorem grows_newFrame (s : Store) (frame : Frame) : s.Grows (s.newFrame frame).2 :=
  ⟨s.keepsLinks_newFrame frame, s.keepsNames_newFrame frame⟩

/-- What leaves the frames alone is no more than growth. -/
theorem grows_of_frames {s t : Store} (h : t.frames = s.frames) : s.Grows t := by
  refine ⟨fun f frame hf => ⟨frame, h ▸ hf, rfl⟩, fun f name hname => ?_⟩
  unfold own? at hname ⊢
  rw [h]
  exact hname

theorem Grows.parent? {s t : Store} (h : s.Grows t) {f g : FrameId} (hf : s.parent? f = some g) :
    t.parent? f = some g := by
  unfold Store.parent? at hf ⊢
  cases hframe : s.frames[f]? with
  | none => simp [hframe] at hf
  | some frame =>
    obtain ⟨now, hnow, hparent⟩ := h.links f frame hframe
    simp only [hframe] at hf
    simp only [hnow, hparent, hf]

end Store

/-- The second machine is at the place of the first one, in a store that grew. -/
structure Machine.Grown (m n : Machine) : Prop where
  env : n.env = m.env
  table : n.table = m.table
  store : m.store.Grows n.store

/-- Every single change of the machine lets the store grow. -/
theorem evolution_grown : Evolution Machine.Grown where
  refl _ := ⟨rfl, rfl, .refl _⟩
  trans hab hbc := ⟨hbc.env.trans hab.env, hbc.table.trans hab.table, hab.store.trans hbc.store⟩
  bound m f name value := ⟨rfl, rfl, m.store.grows_define f name value⟩
  framed m frame := ⟨rfl, rfl, m.store.grows_newFrame frame⟩
  born _ _ := ⟨rfl, rfl, Store.grows_of_frames rfl⟩
  fielded _ _ _ _ := ⟨rfl, rfl, Store.grows_of_frames rfl⟩
  stamped _ := ⟨rfl, rfl, Store.grows_of_frames rfl⟩
  printed _ _ := ⟨rfl, rfl, .refl _⟩
  ticked _ := ⟨rfl, rfl, .refl _⟩
  inFrame _ _ _ h := ⟨rfl, h.table, h.store⟩
  deeper _ _ h := ⟨h.env, h.table, h.store⟩

/-! ## Chains -/

/-- The names that a frame for the scope must have: all but those of variables whose
    initializer is running. -/
def Scope.Needs (scope : Scope) (name : String) : Prop :=
  scope.get? name = some true ∨ scope.contains name = true ∧ (name = "this" ∨ name = "super")

namespace Scope

variable {scope : Scope} {name : String}

theorem not_needs_empty : ¬Needs .empty name := by
  rintro (h | ⟨h, _⟩) <;> cases h

theorem Needs.of_single {own : String} (h : Needs (.single own true) name) : name = own := by
  by_cases hne : own = name
  · exact hne.symm
  · have hnone : (Bindings.single own true).get? name = none := by
      show Bindings.find? name [(own, true)] = none
      rw [Bindings.find?, if_neg hne]
      rfl
    rcases h with h | ⟨h, _⟩
    · rw [hnone] at h
      cases h
    · rw [Bindings.contains, hnone] at h
      cases h

theorem Needs.of_insert {own : String} {ready : Bool} (h : Needs (scope.insert own ready) name) :
    name = own ∨ Needs scope name := by
  by_cases hne : name = own
  · exact .inl hne
  · refine .inr ?_
    unfold Needs at h
    rw [Bindings.contains, scope.get?_insert_of_ne hne] at h
    exact h

/-- A variable whose initializer is running is not needed. -/
theorem Needs.of_insert_false {own : Lexeme} (hown : own.Ordinary)
    (h : Needs (scope.insert own.text false) name) : Needs scope name := by
  rcases h.of_insert with rfl | hneeds
  · rcases h with h | ⟨_, h | h⟩
    · rw [Bindings.get?_insert_self] at h
      cases h
    · exact absurd h hown.1
    · exact absurd h hown.2
  · exact hneeds

theorem Needs.of_parameters {parameters : List Lexeme} (h : Needs (ofParameters parameters) name) :
    ∃ p ∈ parameters, p.text = name := by
  suffices hfold : ∀ scope : Scope,
      Needs (parameters.foldl (fun scope p => scope.insert p.text true) scope) name →
        (∃ p ∈ parameters, p.text = name) ∨ Needs scope name from
    (hfold .empty h).resolve_right not_needs_empty
  clear h
  induction parameters with
  | nil => exact fun scope h => .inr h
  | cons p ps ih =>
    intro scope h
    rcases ih (scope.insert p.text true) h with ⟨q, hq, hname⟩ | hneeds
    · exact .inl ⟨q, List.mem_cons_of_mem _ hq, hname⟩
    · rcases hneeds.of_insert with rfl | hneeds
      · exact .inl ⟨p, List.mem_cons_self, rfl⟩
      · exact .inr hneeds

end Scope

namespace Store

/-- The frames from `f` outward are the scopes, one for one, and behind them is the
    global frame. -/
def Chain (s : Store) (f : FrameId) : List Scope → Prop
  | [] => f = globals
  | scope :: outer =>
    (∀ name, scope.Needs name → (s.own? f name).isSome) ∧
      ∃ g, s.parent? f = some g ∧ s.Chain g outer

variable {s t : Store} {f : FrameId} {scopes : List Scope}

/-- Frames of scopes stay frames of these scopes. -/
theorem Chain.grow (h : s.Chain f scopes) (hst : s.Grows t) : t.Chain f scopes := by
  induction scopes generalizing f with
  | nil => exact h
  | cons scope outer ih =>
    obtain ⟨hneeds, g, hparent, houter⟩ := h
    exact ⟨fun name hname => hst.names f name (hneeds name hname), g, hst.parent? hparent,
      ih houter⟩

/-- The frame that belongs to a scope is as many links out as the scope. -/
theorem Chain.ancestor? (h : s.Chain f scopes) {d : Nat} {scope : Scope}
    (hd : scopes[d]? = some scope) :
    ∃ g, s.ancestor? f d = some g ∧ (s.parent? g).isSome ∧
      ∀ name, scope.Needs name → (s.own? g name).isSome := by
  induction scopes generalizing f d with
  | nil => cases hd
  | cons innermost outer ih =>
    obtain ⟨hneeds, g, hparent, houter⟩ := h
    cases d with
    | zero =>
      cases hd
      exact ⟨f, rfl, by rw [hparent]; rfl, hneeds⟩
    | succ d =>
      obtain ⟨a, ha, hlinked, hbound⟩ := ih houter hd
      refine ⟨a, ?_, hlinked, hbound⟩
      rw [Store.ancestor?, hparent]
      exact ha

/-- A frame inside a chain that has the names of one more scope makes a longer chain. -/
theorem Chain.push (h : s.Chain f scopes) {scope : Scope} {vars : Bindings Value}
    (hvars : ∀ name, scope.Needs name → vars.contains name = true) :
    (s.newFrame ⟨vars, some f⟩).2.Chain s.frames.size (scope :: scopes) := by
  refine ⟨fun name hname => ?_, f, s.parent?_newFrame_self _, h.grow (s.grows_newFrame _)⟩
  rw [own?_newFrame_self]
  exact hvars name hname

/-- Behind a definition the name is there. -/
theorem Chain.define (h : s.Chain f scopes) (name : String) (v : Value) :
    (s.define f name v).Chain f (Scope.mark scopes name true) := by
  have hgrow := h.grow (s.grows_define f name v)
  cases scopes with
  | nil => exact h
  | cons scope outer =>
    obtain ⟨hneeds, g, hparent, houter⟩ := hgrow
    refine ⟨fun other hother => ?_, g, hparent, houter⟩
    rcases hother.of_insert with rfl | hother
    · obtain ⟨_, g', hlink, _⟩ := h
      unfold Store.parent? at hlink
      cases hframe : s.frames[f]? with
      | none => simp [hframe] at hlink
      | some frame =>
        rw [own?_define_self hframe]
        rfl
    · exact hneeds other hother

/-- While an initializer runs, its variable need not be there. -/
theorem Chain.declare (h : s.Chain f scopes) {name : Lexeme} (hname : name.Ordinary) :
    s.Chain f (Scope.mark scopes name.text false) := by
  cases scopes with
  | nil => exact h
  | cons scope outer =>
    exact ⟨fun other hother => h.1 other (hother.of_insert_false hname), h.2⟩

end Store

/-- Where a machine is, it stays in the frames of the same scopes. -/
theorem Machine.Grown.chain {m m' : Machine} (h : m.Grown m') {scopes : List Scope}
    (hchain : m.store.Chain m.env scopes) : m'.store.Chain m'.env scopes := by
  rw [h.env]
  exact hchain.grow h.store

/-! ## Fitting values and stores -/

section

variable (T : Table) (n : Nat)

/-- The closure was made where its body is scoped. -/
def Closure.Fits (s : Store) (c : Closure) : Prop :=
  ∃ scopes, s.Chain c.frame scopes ∧ c.decl.Scoped T n scopes

/-- The closure of a method is one frame short, that of `this`. -/
def Closure.FitsMethod (s : Store) (c : Closure) : Prop :=
  ∃ scopes, s.Chain c.frame scopes ∧ c.decl.Scoped T n (.single "this" true :: scopes)

def Class.Fits (s : Store) (cls : Class) : Prop :=
  ∀ name method, cls.findMethod name = some method → method.FitsMethod T n s

def Value.Fits (s : Store) : Value → Prop
  | .function closure _ => closure.Fits T n s
  | .class cls => cls.Fits T n s
  | _ => True

/-- What `this` and `super` can be bound to. -/
def Value.Suits (v : Value) (name : String) : Prop :=
  (name = "this" → ∃ i, v = .instance i) ∧ (name = "super" → ∃ cls, v = .class cls)

/-- Everything that can be reached in a store fits. -/
structure Store.Fits (s : Store) : Prop where
  vars : ∀ f name v, s.own? f name = some v → v.Fits T n s ∧ v.Suits name
  fields : ∀ i name v, s.field? i name = some v → v.Fits T n s
  methods : ∀ i name method, s.method? i name = some method → method.FitsMethod T n s

end

variable {T : Table} {n : Nat} {s t : Store}

theorem Closure.Fits.grow {c : Closure} (h : c.Fits T n s) (hst : s.Grows t) : c.Fits T n t :=
  h.imp fun _ h => ⟨h.1.grow hst, h.2⟩

theorem Closure.FitsMethod.grow {c : Closure} (h : c.FitsMethod T n s) (hst : s.Grows t) :
    c.FitsMethod T n t :=
  h.imp fun _ h => ⟨h.1.grow hst, h.2⟩

theorem Class.Fits.grow {cls : Class} (h : cls.Fits T n s) (hst : s.Grows t) : cls.Fits T n t :=
  fun name method hmethod => (h name method hmethod).grow hst

theorem Value.Fits.grow {v : Value} (h : v.Fits T n s) (hst : s.Grows t) : v.Fits T n t := by
  cases v with
  | function closure stamp => exact Closure.Fits.grow h hst
  | «class» cls => exact Class.Fits.grow h hst
  | _ => trivial

theorem Lexeme.Ordinary.suits {name : Lexeme} (h : name.Ordinary) (v : Value) : v.Suits name.text :=
  ⟨fun heq => absurd heq h.1, fun heq => absurd heq h.2⟩

namespace Store.Fits

/-- The value may fit by being bound: a function that calls itself does. -/
theorem define (h : s.Fits T n) {f : FrameId} {name : String} {v : Value}
    (hv : v.Fits T n (s.define f name v)) (hname : v.Suits name) :
    (s.define f name v).Fits T n := by
  have hgrow := s.grows_define f name v
  refine ⟨fun g other w hw => ?_, fun i field w hw => (h.fields i field w hw).grow hgrow,
    fun i called method hmethod => (h.methods i called method hmethod).grow hgrow⟩
  rcases own?_define hw with ⟨rfl, rfl, rfl⟩ | hold
  · exact ⟨hv, hname⟩
  · obtain ⟨hfits, hsuits⟩ := h.vars g other w hold
    exact ⟨hfits.grow hgrow, hsuits⟩

theorem newFrame (h : s.Fits T n) {frame : Frame}
    (hframe : ∀ name v, frame.vars.get? name = some v → v.Fits T n s ∧ v.Suits name) :
    (s.newFrame frame).2.Fits T n := by
  have hgrow := s.grows_newFrame frame
  refine ⟨fun g name v hv => ?_, fun i field v hv => (h.fields i field v hv).grow hgrow,
    fun i called method hmethod => (h.methods i called method hmethod).grow hgrow⟩
  by_cases hg : g = s.frames.size
  · rw [hg, own?_newFrame_self] at hv
    obtain ⟨hfits, hsuits⟩ := hframe name v hv
    exact ⟨hfits.grow hgrow, hsuits⟩
  · rw [s.own?_newFrame_of_ne frame hg] at hv
    obtain ⟨hfits, hsuits⟩ := h.vars g name v hv
    exact ⟨hfits.grow hgrow, hsuits⟩

theorem child (h : s.Fits T n) (f : FrameId) : (s.child f).2.Fits T n :=
  h.newFrame fun name v hv => by simp at hv

/-- In a store with the same frames it is enough to look at the instances. -/
theorem instances (h : s.Fits T n) (hframes : t.frames = s.frames)
    (hfields : ∀ i name v, t.field? i name = some v → v.Fits T n s)
    (hmethods : ∀ i name method, t.method? i name = some method → method.FitsMethod T n s) :
    t.Fits T n := by
  have hgrow := Store.grows_of_frames hframes
  refine ⟨fun f name v hv => ?_, fun i name v hv => (hfields i name v hv).grow hgrow,
    fun i name method hmethod => (hmethods i name method hmethod).grow hgrow⟩
  unfold own? at hv
  rw [hframes] at hv
  obtain ⟨hfits, hsuits⟩ := h.vars f name v hv
  exact ⟨hfits.grow hgrow, hsuits⟩

theorem newInstance (h : s.Fits T n) {cls : Class} (hcls : cls.Fits T n s) :
    (s.newInstance cls).2.Fits T n := by
  refine h.instances rfl (fun i name v hv => ?_) fun i name method hmethod => ?_
  · unfold field? Store.newInstance at hv
    simp only [Array.getElem?_push] at hv
    by_cases hi : i = s.instances.size
    · simp [hi, Bindings.get?_empty] at hv
    · rw [if_neg hi] at hv
      exact h.fields i name v hv
  · unfold method? Store.newInstance at hmethod
    simp only [Array.getElem?_push] at hmethod
    by_cases hi : i = s.instances.size
    · rw [if_pos hi] at hmethod
      exact hcls name method hmethod
    · rw [if_neg hi] at hmethod
      exact h.methods i name method hmethod

theorem setField (h : s.Fits T n) {i : InstanceId} {name : String} {v : Value}
    (hv : v.Fits T n s) : (s.setField i name v).Fits T n := by
  refine h.instances rfl (fun j other w hw => ?_) fun j called method hmethod => ?_
  · unfold field? Store.setField at hw
    simp only [Array.getElem?_modify] at hw
    by_cases hj : i = j
    · subst hj
      cases hobject : s.instances[i]? with
      | none => simp [hobject] at hw
      | some object =>
        simp only [hobject, if_true, Option.map_some] at hw
        by_cases hname : other = name
        · rw [hname, Bindings.get?_insert_self] at hw
          cases hw
          exact hv
        · rw [object.fields.get?_insert_of_ne hname] at hw
          refine h.fields i other w ?_
          simp only [field?, hobject]
          exact hw
    · rw [if_neg hj] at hw
      exact h.fields j other w hw
  · refine h.methods j called method ?_
    unfold method? Store.setField at hmethod
    simp only [Array.getElem?_modify] at hmethod
    unfold method?
    by_cases hj : i = j
    · subst hj
      cases hobject : s.instances[i]? with
      | none => simp [hobject] at hmethod
      | some object => simpa [hobject] using hmethod
    · rw [if_neg hj] at hmethod
      exact hmethod

theorem newStamp (h : s.Fits T n) : s.newStamp.2.Fits T n :=
  h.instances rfl h.fields h.methods

end Store.Fits

end Lox
