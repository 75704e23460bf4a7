/-
  Lox.Proofs.Grounding.Lookups

  Look-ups end in all states of all sessions.

    * `Store.Grounded.linksDown` — links of a grounded store lead to older frames, so that
      there is an end to following them;
    * `Store.LooksAlong` — distances, reading and writing go along the path, which comes to
      older frames only and so to no frame twice;
    * `Class.Descends` — methods are looked for along the lineage, in which every class is
      older than the one before;
    * `Store.Provides` — a frame has a value that is right for `this` or `super`;
    * `Session.runtime_graph_grounded` — the main statement.
-/
import Lox.Proofs.Grounding.Frames
import Lox.Proofs.Paths

namespace Lox

open RunM

/-! ## Paths -/

namespace Store

variable {s : Store} {f : FrameId} {path : List FrameId}

/-- Links of a grounded store lead to older frames. -/
theorem Grounded.linksDown (hs : s.Grounded) : s.LinksDown := by
  intro f g h
  have hf := lt_of_parent? h
  have htop : f ≠ Store.globals := by
    rintro rfl
    rw [hs.top] at h
    cases h
  obtain ⟨around, hlink, hlt⟩ := hs.link f hf htop
  cases h.symm.trans hlink
  exact hlt

/-- The path ends in the global frame. -/
theorem Grounded.last_path (hs : s.Grounded) (h : s.Path f path) (hf : f < s.frames.size) :
    path.getLast? = some Store.globals := by
  induction h with
  | @top f hlink =>
    have htop : f = Store.globals := by
      by_contra hne
      obtain ⟨around, hlink', -⟩ := hs.link f hf hne
      rw [hlink] at hlink'
      cases hlink'
    rw [htop]
    rfl
  | @link f g path hlink hpath ih =>
    have hlast := ih (Nat.lt_trans (hs.linksDown hlink) hf)
    rw [List.getLast?_cons, hlast]
    rfl

/-- Distances, reading and writing go along the path from a frame; it comes to the global
    frame, and to older frames only. -/
structure LooksAlong (s : Store) (f : FrameId) (path : List FrameId) : Prop where
  links : s.Path f path
  older : path.Pairwise (· > ·)
  last : path.getLast? = some globals
  ancestor : ∀ d, s.ancestor? f d = path[d]?
  get : ∀ name, s.get f name =
    match path.findSome? (s.own? · name.text) with
    | some v => .ok v
    | none => .error (undefined name)
  assign : ∀ name v, s.assign f name v =
    match path.find? fun g => (s.own? g name.text).isSome with
    | some g => .ok (s.define g name.text v)
    | none => .error (undefined name)

theorem find?_bind_own? (s : Store) (name : String) (path : List FrameId) :
    (path.find? fun g => (s.own? g name).isSome).bind (s.own? · name) =
      path.findSome? (s.own? · name) := by
  induction path with
  | nil => rfl
  | cons g path ih =>
    rw [List.find?_cons, List.findSome?_cons]
    cases hown : s.own? g name with
    | none => exact ih
    | some v => exact hown

/-- In a grounded store look-ups end, wherever they start. -/
theorem Grounded.looksAlong (hs : s.Grounded) (hf : f < s.frames.size) :
    ∃ path, s.LooksAlong f path := by
  have hdown := hs.linksDown
  obtain ⟨path, hpath⟩ := hdown.exists_path f
  refine ⟨path, hpath, hpath.older hdown, hs.last_path hpath hf, hpath.ancestor?, fun name => ?_,
    fun name v => ?_⟩
  · have hget : s.get f name =
        match (s.owner? name.text f).bind (s.own? · name.text) with
        | some v => .ok v
        | none => .error (undefined name) := rfl
    rw [hget, hpath.owner? hdown, find?_bind_own?]
  · have hassign : s.assign f name v =
        match s.owner? name.text f with
        | some g => .ok (s.define g name.text v)
        | none => .error (undefined name) := rfl
    rw [hassign, hpath.owner? hdown]

end Store

/-! ## Classes -/

/-- Methods are looked for along the lineage, in which every class is older than the ones
    before; and as many arguments are taken as by the initializer that is found there. -/
structure Class.Descends (cls : Class) : Prop where
  older : cls.lineage.Pairwise fun c d => d.stamp < c.stamp
  method : ∀ name, cls.findMethod name = cls.lineage.findSome? (·.methods.get? name)
  arity : cls.arity = (cls.lineage.findSome? (·.methods.get? "init")).elim 0 Closure.arity

namespace Class

/-- Nothing in a lineage is newer than the class, if superclasses are older throughout. -/
theorem stamp_le (cls : Class) (h : ∀ c ∈ cls.lineage, ∀ parent, c.superclass = some parent →
      parent.stamp < c.stamp) :
    (∀ c ∈ cls.lineage, c.stamp ≤ cls.stamp) ∧
      cls.lineage.Pairwise fun c d => d.stamp < c.stamp := by
  match cls with
  | ⟨stamp, name, methods, superclass⟩ =>
    rw [lineage_eq] at h ⊢
    cases superclass with
    | none =>
      refine ⟨fun c hc => ?_, List.pairwise_singleton _ _⟩
      rw [List.mem_singleton.mp hc]
    | some parent =>
      obtain ⟨hle, holder⟩ := stamp_le parent fun c hc => h c (List.mem_cons_of_mem _ hc)
      have hparent := h _ List.mem_cons_self parent rfl
      refine ⟨fun c hc => ?_, List.pairwise_cons.mpr ⟨fun c hc => ?_, holder⟩⟩
      · rcases List.mem_cons.mp hc with rfl | hrest
        · exact Nat.le_refl _
        · exact Nat.le_of_lt (Nat.lt_of_le_of_lt (hle c hrest) hparent)
      · exact Nat.lt_of_le_of_lt (hle c hc) hparent

theorem Grounded.descends {s : Store} {cls : Class} (h : cls.Grounded s) : cls.Descends := by
  refine ⟨(cls.stamp_le h.older).2, (cls.findMethod_eq ·), ?_⟩
  unfold Class.arity
  rw [findMethod_eq]
  cases cls.lineage.findSome? (·.methods.get? "init") <;> rfl

end Class

/-! ## What stores have -/

namespace Store

/-- The value of a variable or a field. -/
def Holds (s : Store) (v : Value) : Prop :=
  (∃ f name, s.own? f name = some v) ∨ ∃ i name, s.field? i name = some v

/-- A class that is such a value, or the class of an instance. -/
def HoldsClass (s : Store) (cls : Class) : Prop :=
  s.Holds (.class cls) ∨ ∃ i, s.class? i = some cls

/-- The frame has a value for the name, which is grounded; an instance if the name is `this`,
    and a class if it is `super`. -/
def Provides (s : Store) (f : FrameId) (name : String) : Prop :=
  ∃ v, s.own? f name = some v ∧ v.Grounded s ∧ v.Suits name

variable {s : Store}

namespace Grounded

variable (hs : s.Grounded)
include hs

theorem value {v : Value} (h : s.Holds v) : v.Grounded s := by
  rcases h with ⟨f, name, hown⟩ | ⟨i, name, hfield⟩
  · exact hs.values.vars f name v hown
  · exact hs.values.fields i name v hfield

theorem holdsClass {cls : Class} (h : s.HoldsClass cls) : cls.Grounded s := by
  rcases h with hvalue | ⟨i, hclass⟩
  · exact hs.value hvalue
  · exact hs.classes i cls hclass

theorem provides {f : FrameId} {name : String} (h : (s.own? f name).isSome) :
    s.Provides f name := by
  obtain ⟨v, hown⟩ := Option.isSome_iff_exists.mp h
  exact ⟨v, hown, hs.values.vars f name v hown, hs.suits f name v hown⟩

end Grounded

end Store

/-! ## Main statement -/

namespace Session

variable {s s' : Session} {fuel fuel' : Nat} {input input' : SessionInput} {m : Machine}

/-- The sessions that more texts lead to. -/
abbrev Later : Session → Session → Prop :=
  Relation.ReflTransGen fun s s' => ∃ fuel input, s' = (Session.step fuel input s).2

theorem Later.reached (h : s.Later s') (hs : s.Reached) : s'.Reached := by
  induction h with
  | refl => exact hs
  | tail _ hstep ih =>
    obtain ⟨fuel, input, rfl⟩ := hstep
    exact .step fuel input ih

theorem Later.goes (h : s.Later s') (hs : s.Reached) :
    s.machine.store.Goes s'.machine.store := by
  induction h with
  | refl => exact .refl
  | tail hlater hstep ih =>
    obtain ⟨fuel, input, rfl⟩ := hstep
    exact ih.trans (goes_step fuel input (Later.reached hlater hs).grounded).store

/-- A frame that was made for `this` or `super` keeps what it has in all later texts. -/
theorem Visits.provides {p : Point} {f : FrameId} {name : String} (hp : s.Visits fuel input p)
    (hequips : p.Equips f name) (hs : s.Reached) (hlater : (s.step fuel input).2.Later s')
    (hpasses : s'.Passes fuel' input' m) : m.store.Provides f name := by
  have hreached := hlater.reached (.step fuel input hs)
  obtain ⟨hm, hgoes⟩ := hpasses.grounded hreached.grounded
  have honward := Store.Goes.onward ((hlater.goes (.step fuel input hs)).trans hgoes)
  obtain ⟨v, hown⟩ := Option.isSome_iff_exists.mp (hp.left hequips)
  refine hm.store.provides (Option.isSome_iff_exists.mpr ⟨v, ?_⟩)
  -- Programs cannot assign to the two names, so the values under them stay.
  cases hequips with
  | bound _ _ => exact honward.own_this hown
  | derived _ => exact honward.own_super hown

/-- Whatever texts a session has worked on, resolved or not and with whatever ends, and
    whatever text comes next, on every machine that comes up while it is worked on:
    links lead to older frames and in the end to the global one, all that functions, methods
    and instances refer to is there, superclasses are older, and `this` and `super` are what
    they must be;
    reading, writing and distances follow a path of links that never comes to a frame twice,
    and methods are looked for in lineages from newer to older classes.
    Every value that an expression yields there refers to what is there, too.
    And a frame in which a method was bound has an instance under `this`, and one that was
    made for the methods of a subclass has a class under `super`, on all machines that come
    up in the same text and have the frame, and on all in later texts. -/
theorem runtime_graph_grounded (hs : s.Reached) (fuel : Nat) (input : SessionInput) :
    (∀ m, s.Passes fuel input m →
      m.Grounded ∧ s.machine.store.Goes m.store ∧
      (∀ f, f < m.store.frames.size → ∃ path, m.store.LooksAlong f path) ∧
      (∀ v, m.store.Holds v → v.Grounded m.store) ∧
      ∀ cls, m.store.HoldsClass cls → cls.Grounded m.store ∧ cls.Descends) ∧
    (∀ k e m, s.Visits fuel input ⟨k, .expr e, m⟩ →
      ∀ v n, e.eval (invoke k) m = .ok v n → v.Grounded n.store) ∧
    ∀ p f name, s.Visits fuel input p → p.Equips f name →
      (∀ m, s.Passes fuel input m → f < m.store.frames.size → m.store.Provides f name) ∧
      ∀ s', (s.step fuel input).2.Later s' → ∀ fuel' input' m, s'.Passes fuel' input' m →
        m.store.Provides f name := by
  have hgrounded := hs.grounded
  refine ⟨fun m hm => ?_, fun k e m hvisited v n hrun => ?_, fun p f name hp hequips => ?_⟩
  · obtain ⟨hgraph, hgoes⟩ := hm.grounded hgrounded
    exact ⟨hgraph, hgoes, fun f hf => hgraph.store.looksAlong hf,
      fun v hv => hgraph.store.value hv, fun cls hcls =>
        ⟨hgraph.store.holdsClass hcls, (hgraph.store.holdsClass hcls).descends⟩⟩
  · obtain ⟨root, hroot, hreached⟩ := hvisited
    obtain ⟨hpoint, -⟩ := (hroot.grounded hgrounded).1.reaches hreached
    exact ((e.grounds (invoke_grounds k) hpoint.task hpoint.machine).ok hrun).2
  · refine ⟨fun m hm hf => ?_, fun s' hlater fuel' input' m hm => hp.provides hequips hs hlater hm⟩
    obtain ⟨hgraph, -⟩ := hm.grounded hgrounded
    exact hgraph.store.provides (hm.equipped hgrounded hp hequips hf)

/-- A class and a subclass are declared, and a method of an instance is bound. -/
def binding : List Stmt :=
  [.class ⟨"A", 1⟩ none [⟨⟨"m", 1⟩, [], []⟩],
    .class ⟨"B", 1⟩ (some ⟨0, ⟨"A", 1⟩⟩) [],
    .expression (.get (.call (.name ⟨1, ⟨"B", 1⟩⟩) ⟨")", 1⟩ []) ⟨"m", 1⟩)]

/-- The text is not resolved.  Nothing keeps the method that is bound, but its frame stays. -/
theorem runtime_graph_grounded_unresolved : ∃ (s : Session) (input : SessionInput) (p q : Point)
    (f g : FrameId),
    s.Reached ∧ s.Visits 2 input p ∧ p.Equips f "super" ∧ s.Visits 2 input q ∧
      q.Equips g "this" ∧ (s.step 2 input).2.machine.store.Provides f "super" ∧
      (s.step 2 input).2.machine.store.Provides g "this" := by
  let s : Session := ⟨.start .unlimited fun _ => none, 0⟩
  let input : SessionInput :=
    ⟨"class A\x7bm()\x7b\x7d\x7dclass B<A\x7b\x7dB().m;", .interpret, false, 0⟩
  have hs : s.Reached := .start _ _
  have htakes : s.Takes input parseProgram resolveProgram binding ∅ := ⟨by cbv, by cbv, by cbv⟩
  have hroot : s.Runs 2 input ⟨2, .stmts binding, (addTable ∅).after s.machine⟩ :=
    .interpret rfl htakes
  obtain ⟨m, hdeclared, parent, hparent⟩ :
      ∃ m, Point.Reaches ⟨2, .stmts binding, (addTable ∅).after s.machine⟩
          ⟨2, .stmt (.class ⟨"B", 1⟩ (some ⟨0, ⟨"A", 1⟩⟩) []), m⟩ ∧
        ∃ parent, m.lookUp ⟨0, ⟨"A", 1⟩⟩ = .ok (.class parent) := by
    apply Exists.intro
    apply And.intro
    · exact .head (.statements (ok_of_answer? (by cbv))) (.single .statement)
    · exact ⟨_, by cbv⟩
  obtain ⟨n, hbound, n', hobject, hfield, method, hmethod⟩ :
      ∃ n, Point.Reaches ⟨2, .stmts binding, (addTable ∅).after s.machine⟩
          ⟨2, .expr (.get (.call (.name ⟨1, ⟨"B", 1⟩⟩) ⟨")", 1⟩ []) ⟨"m", 1⟩), n⟩ ∧
        ∃ n', Expr.eval (invoke 2) (.call (.name ⟨1, ⟨"B", 1⟩⟩) ⟨")", 1⟩ []) n =
            .ok (.instance 0) n' ∧
          n'.store.field? 0 "m" = none ∧ ∃ method, n'.store.method? 0 "m" = some method := by
    apply Exists.intro
    apply And.intro
    · refine .head (.statements (ok_of_answer? (by cbv))) ?_
      refine .head (.statements (ok_of_answer? (by cbv))) ?_
      exact .head .statement (.single .expression)
    · exact ⟨_, ok_of_answer? (by cbv), by cbv, _, by cbv⟩
  have hsuper : Point.Equips ⟨2, .stmt (.class ⟨"B", 1⟩ (some ⟨0, ⟨"A", 1⟩⟩) []), m⟩
      m.store.frames.size "super" := .derived hparent
  have hthis : Point.Equips
      ⟨2, .expr (.get (.call (.name ⟨1, ⟨"B", 1⟩⟩) ⟨")", 1⟩ []) ⟨"m", 1⟩), n⟩
      n'.store.frames.size "this" := .of_expr (.property hobject hfield hmethod) rfl
  obtain ⟨-, -, hequipped⟩ := runtime_graph_grounded hs 2 input
  obtain ⟨-, hsuperLater⟩ := hequipped _ _ _ ⟨_, hroot, hdeclared⟩ hsuper
  obtain ⟨-, hthisLater⟩ := hequipped _ _ _ ⟨_, hroot, hbound⟩ hthis
  exact ⟨s, input, _, _, _, _, hs, ⟨_, hroot, hdeclared⟩, hsuper, ⟨_, hroot, hbound⟩, hthis,
    hsuperLater _ .refl 0 input _ .before, hthisLater _ .refl 0 input _ .before⟩

end Session

end Lox
