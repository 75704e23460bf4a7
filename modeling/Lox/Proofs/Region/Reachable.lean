/-
  Lox.Proofs.Region.Reachable

  A run touches only what it can reach.

    * `Store.Refers` — one frame or instance leads to another one: by the link of a
      frame, by a value that it holds, or by a method of its class;
    * `Store.Reaches` — what links lead to, from the global frame and given roots;
    * `Store.reach` — these frames and instances, and all that are made later, are a
      region;
    * `run_touches_reachable` — so a run leaves everything else as it was, and a call
      does the same whatever everything else is.
-/
import Lox.Proofs.Region.Running
import Mathlib.Logic.Relation

namespace Lox

open RunM

/-! ## What leads where -/

/-- A frame or an instance. -/
inductive Node where
  | frame (f : FrameId)
  | object (i : InstanceId)

/-- The frames and instances that a value itself leads to: the frames that a function
    and the methods of a class close over, those of a superclass included, and an
    instance. -/
def Value.Holds : Value → Node → Prop
  | .function closure _, node => node = .frame closure.frame
  | .class cls, node =>
    ∃ name method, cls.findMethod name = some method ∧ node = .frame method.frame
  | .instance i, node => node = .object i
  | _, _ => False

namespace Store

/-- A frame or an instance leads to another one at once. -/
inductive Refers (s : Store) : Node → Node → Prop
  | parent {f g} : s.parent? f = some g → Refers s (.frame f) (.frame g)
  | var {f name v node} : s.own? f name = some v → v.Holds node → Refers s (.frame f) node
  | field {i name v node} : s.field? i name = some v → v.Holds node → Refers s (.object i) node
  | method {i name method} :
      s.method? i name = some method → Refers s (.object i) (.frame method.frame)

/-- What the global frame or one of the roots leads to. -/
def Reaches (s : Store) (roots : Node → Prop) (node : Node) : Prop :=
  ∃ root, (root = .frame globals ∨ roots root) ∧ Relation.ReflTransGen s.Refers root node

/-- The store has the frame or the instance. -/
def Has (s : Store) : Node → Prop
  | .frame f => f < s.frames.size
  | .object i => i < s.instances.size

/-- A frame has the same bindings and the same link, an instance the same class and
    fields. -/
def Same (s t : Store) : Node → Prop
  | .frame f => t.frames[f]? = s.frames[f]?
  | .object i => t.instances[i]? = s.instances[i]?

/-- The reachable part of a store, and all that will be made. -/
def reach (s : Store) (roots : Node → Prop) : Region where
  toCode := .any
  frame f := s.Reaches roots (.frame f) ∨ s.frames.size ≤ f
  object i := s.Reaches roots (.object i) ∨ s.instances.size ≤ i
  stops _ := True
  body d _ := Stmt.listWithin_any d.body
  globals := .inl ⟨_, .inl rfl, .refl⟩
  errors _ := trivial
  bounds _ := trivial

variable {s t : Store} {roots : Node → Prop}

theorem Reaches.root {node : Node} (h : roots node) : s.Reaches roots node :=
  ⟨node, .inr h, .refl⟩

theorem Reaches.step {a b : Node} (h : s.Reaches roots a) (hab : s.Refers a b) :
    s.Reaches roots b := by
  obtain ⟨root, hroot, hpath⟩ := h
  exact ⟨root, hroot, hpath.tail hab⟩

/-- A value that leads to what is reachable only is inside. -/
theorem within_reach {v : Value} (h : ∀ node, v.Holds node → s.Reaches roots node) :
    v.Within (s.reach roots) := by
  cases v with
  | function closure stamp => exact ⟨.inl (h _ rfl), trivial⟩
  | «class» cls =>
    exact fun name method hmethod => ⟨.inl (h _ ⟨name, method, hmethod, rfl⟩), trivial⟩
  | «instance» i => exact .inl (h _ rfl)
  | _ => trivial

/-- Nothing leads out of the reachable part. -/
theorem within_reach_store (s : Store) (roots : Node → Prop) : s.Within (s.reach roots) := by
  have noFrame {f : FrameId} (hf : s.frames.size ≤ f) : s.frames[f]? = none :=
    Array.getElem?_eq_none hf
  have noObject {i : InstanceId} (hi : s.instances.size ≤ i) : s.instances[i]? = none :=
    Array.getElem?_eq_none hi
  refine ⟨fun f g hf hg => ?_, fun f name v hf hv => ?_, fun i name v hi hv => ?_,
    fun i name method hi hmethod => ?_, fun _ => .inr, fun _ => .inr⟩
  · rcases hf with hf | hf
    · exact .inl (hf.step (.parent hg))
    · rw [parent?, noFrame hf] at hg
      cases hg
  · rcases hf with hf | hf
    · exact within_reach fun node hnode => hf.step (.var hv hnode)
    · rw [own?, noFrame hf] at hv
      cases hv
  · rcases hi with hi | hi
    · exact within_reach fun node hnode => hi.step (.field hv hnode)
    · rw [field?, noObject hi] at hv
      cases hv
  · rcases hi with hi | hi
    · exact ⟨.inl (hi.step (.method hmethod)), trivial⟩
    · rw [method?, noObject hi] at hmethod
      cases hmethod

/-- What is spared outside the reachable part is all that was there and is not
    reachable. -/
theorem Spares.same (h : s.Spares (s.reach roots) t) {node : Node} (hhas : s.Has node)
    (hnot : ¬s.Reaches roots node) : s.Same t node := by
  cases node with
  | frame f => exact h.frame f fun hf => hf.elim hnot (Nat.not_le.mpr hhas)
  | object i => exact h.object i fun hi => hi.elim hnot (Nat.not_le.mpr hhas)

end Store

/-! ## Machines -/

/-- The current frame. -/
def Machine.current (m : Machine) : Node → Prop := fun node => node = .frame m.env

/-- What a call starts from: the callee and the arguments. -/
def callRoots (callee : Value) (arguments : List Value) : Node → Prop := fun node =>
  callee.Holds node ∨ ∃ v ∈ arguments, v.Holds node

/-- The machines are the same, apart from the current frame and from what the roots do
    not lead to. -/
structure Machine.AgreesFrom (roots : Node → Prop) (m m' : Machine) : Prop where
  depth : m'.depth = m.depth
  table : m'.table = m.table
  clock : m'.clock = m.clock
  ticks : m'.ticks = m.ticks
  out : m'.out = m.out
  frames : m'.store.frames.size = m.store.frames.size
  instances : m'.store.instances.size = m.store.instances.size
  stamp : m'.store.nextStamp = m.store.nextStamp
  same : ∀ node, m.store.Reaches roots node → m.store.Same m'.store node

/-- Two runs, from `m` to `n` and from `m'` to `n'`, had the same effect: they wrote the
    same, and all that the roots led to, or that was made, is the same. -/
structure Machine.SameEffect (roots : Node → Prop) (m n n' : Machine) : Prop where
  depth : n'.depth = n.depth
  table : n'.table = n.table
  clock : n'.clock = n.clock
  ticks : n'.ticks = n.ticks
  out : n'.out = n.out
  frames : n'.store.frames.size = n.store.frames.size
  instances : n'.store.instances.size = n.store.instances.size
  stamp : n'.store.nextStamp = n.store.nextStamp
  same : ∀ node, m.store.Reaches roots node ∨ ¬m.store.Has node → n.store.Same n'.store node

variable {m m' n n' : Machine} {roots : Node → Prop} {α : Type}

theorem Machine.within_reach (m : Machine) (roots : Node → Prop) :
    m.Within (m.store.reach roots) :=
  ⟨m.store.within_reach_store roots, fun _ => trivial, fun _ _ => trivial⟩

theorem Machine.AgreesFrom.alike (h : m.AgreesFrom roots m') :
    m.Alike (m.store.reach roots) m' := by
  refine ⟨m.within_reach roots, h.depth, h.clock, h.ticks, h.out, fun id _ => by rw [h.table],
    h.frames, h.instances, h.stamp, fun f hf => ?_, fun i hi => ?_⟩
  · rcases hf with hf | hf
    · exact h.same (.frame f) hf
    · rw [Array.getElem?_eq_none hf, Array.getElem?_eq_none (h.frames ▸ hf)]
  · rcases hi with hi | hi
    · exact h.same (.object i) hi
    · rw [Array.getElem?_eq_none hi, Array.getElem?_eq_none (h.instances ▸ hi)]

theorem Machine.AgreesFrom.sameEffect (h : m.AgreesFrom roots m')
    (hn : m.Follows (m.store.reach roots) m' n n') : Machine.SameEffect roots m n n' := by
  refine ⟨hn.alike.depth, ?_, hn.alike.clock, hn.alike.ticks, hn.alike.out, hn.alike.alike.frames,
    hn.alike.alike.instances, hn.alike.alike.stamp, fun node hnode => ?_⟩
  · rw [hn.second.table, h.table, hn.first.table]
  · cases node with
    | frame f => exact hn.alike.alike.frame f (hnode.imp id Nat.not_lt.mp)
    | object i => exact hn.alike.alike.object i (hnode.imp id Nat.not_lt.mp)

/-- Taken alone, an action spares what it cannot reach, however it ends. -/
theorem RunM.Alike.spares {G : Region} {p p' : RunM α} {Q : α → Prop}
    (h : RunM.Alike G p p' m m' Q) : m.store.Spares G (p.after m).store := by
  cases hrun : p m with
  | ok a n =>
    rw [RunM.after_of_ok hrun]
    obtain ⟨_, _, hn, _⟩ := h.ok hrun
    exact hn.first.spares
  | error halt n =>
    rw [RunM.after_of_error hrun]
    exact (h.error hrun).2.1.spares

/-- All calls are alike in the reachable part. -/
theorem invoke_alike_reach (k : Nat) (s : Store) (roots : Node → Prop) (d : Nat) :
    Invoke.Alike (s.reach roots) d (invoke k) (invoke k) :=
  invoke_alike (Nat.le_refl k) (.inl trivial)

/-- A machine stands in what its current frame leads to. -/
theorem Machine.together_current (m : Machine) :
    m.Together (m.store.reach m.current) m.depth m :=
  ⟨(m.within_reach _).alike, rfl, .inl (.root rfl), rfl⟩

/-- A call is alike on machines that agree from its callee and its arguments. -/
theorem Machine.AgreesFrom.invoke {callee : Value} {arguments : List Value}
    (h : m.AgreesFrom (callRoots callee arguments) m') (k : Nat) (paren : Lexeme) :
    RunM.Alike (m.store.reach (callRoots callee arguments)) (invoke k callee paren arguments)
      (invoke k callee paren arguments) m m' fun _ => True := by
  have hcallee : callee.Within (m.store.reach (callRoots callee arguments)) :=
    Store.within_reach fun _ hnode => .root (.inl hnode)
  have harguments (v : Value) (hv : v ∈ arguments) :
      v.Within (m.store.reach (callRoots callee arguments)) :=
    Store.within_reach fun _ hnode => .root (.inr ⟨v, hv, hnode⟩)
  exact (invoke_alike_reach k _ _ m.depth paren h.alike rfl hcallee harguments).mono
    fun _ _ => trivial

theorem Machine.agreesFrom_env (m : Machine) (roots : Node → Prop) (e : FrameId) :
    m.AgreesFrom roots { m with env := e } :=
  ⟨rfl, rfl, rfl, rfl, rfl, rfl, rfl, rfl, fun node _ => by cases node <;> rfl⟩

/-- After two runs of one action from the same store in different frames, only the
    current frame is another one. -/
theorem Machine.eq_of_confined {G : Region} {e : FrameId} (h : n.Alike G n')
    (hn : m.Confined G n) (hn' : Machine.Confined G { m with env := e } n') :
    n' = { n with env := e } := by
  have hstore : n'.store = n.store := by
    refine h.alike.eq (fun f hf => ?_) fun i hi => ?_
    · exact (hn'.spares.frame f hf).trans (hn.spares.frame f hf).symm
    · exact (hn'.spares.object i hi).trans (hn.spares.object i hi).symm
  have hsame := h.eq_withEnv hstore (hn'.table.trans hn.table.symm)
  rw [show n'.env = e from hn'.env] at hsame
  exact hsame

/-! ## Main statement -/

/-- Statements, lists of statements and expressions leave everything as it was that
    the current frame and the global frame do not lead to, however they end.  A call
    does so for what its callee, its arguments and the global frame do not lead to.  It
    does the same in any other current frame; and on any machine that agrees on what
    callee, arguments and global frame lead to, it ends in the same way and has the same
    effect. -/
theorem run_touches_reachable :
    (∀ (k bound : Nat) (s : Stmt) (m : Machine) (node : Node), m.store.Has node →
      ¬m.store.Reaches m.current node →
      m.store.Same ((s.exec (invoke k) bound).after m).store node) ∧
    (∀ (k bound : Nat) (ss : List Stmt) (m : Machine) (node : Node), m.store.Has node →
      ¬m.store.Reaches m.current node →
      m.store.Same ((Stmt.listExec (invoke k) bound ss).after m).store node) ∧
    (∀ (k : Nat) (e : Expr) (m : Machine) (node : Node), m.store.Has node →
      ¬m.store.Reaches m.current node →
      m.store.Same ((e.eval (invoke k)).after m).store node) ∧
    ∀ (k : Nat) (callee : Value) (paren : Lexeme) (arguments : List Value) (m : Machine),
      (∀ node, m.store.Has node → ¬m.store.Reaches (callRoots callee arguments) node →
        m.store.Same ((invoke k callee paren arguments).after m).store node) ∧
      (∀ e,
        (∀ v n, invoke k callee paren arguments m = .ok v n →
          invoke k callee paren arguments { m with env := e } = .ok v { n with env := e }) ∧
        ∀ halt n, invoke k callee paren arguments m = .error halt n → halt ≠ .outOfFuel →
          invoke k callee paren arguments { m with env := e } = .error halt { n with env := e }) ∧
      ∀ m', m.AgreesFrom (callRoots callee arguments) m' →
        (∀ v n, invoke k callee paren arguments m = .ok v n →
          ∃ n', invoke k callee paren arguments m' = .ok v n' ∧ n'.env = m'.env ∧
            Machine.SameEffect (callRoots callee arguments) m n n') ∧
        ∀ halt n, invoke k callee paren arguments m = .error halt n → halt ≠ .outOfFuel →
          ∃ n', invoke k callee paren arguments m' = .error halt n' ∧ n'.env = m'.env ∧
            Machine.SameEffect (callRoots callee arguments) m n n' := by
  refine ⟨fun k bound s m node hhas hnot => ?_, fun k bound ss m node hhas hnot => ?_,
    fun k e m node hhas hnot => ?_, fun k callee paren arguments m => ⟨fun node hhas hnot => ?_,
      fun e => ⟨fun v n hrun => ?_, fun halt n hrun hne => ?_⟩,
      fun m' h => ⟨fun v n hrun => ?_, fun halt n hrun hne => ?_⟩⟩⟩
  · have halike := Stmt.alike (invoke_alike_reach k _ _ _) (Nat.le_refl bound) s s.within_any
      m.together_current
    exact halike.spares.same hhas hnot
  · have halike := Stmt.listAlike (invoke_alike_reach k _ _ _) (Nat.le_refl bound) ss
      (Stmt.listWithin_any ss) m.together_current
    exact halike.spares.same hhas hnot
  · have halike := Expr.alike (invoke_alike_reach k _ _ _) e (Code.uses_any _) m.together_current
    exact halike.spares.same hhas hnot
  · have halike := (m.agreesFrom_env (callRoots callee arguments) m.env).invoke k paren
    exact halike.spares.same hhas hnot
  · -- The run in the other frame is spared alike, so the ends differ in that frame only.
    have hthere := m.agreesFrom_env (callRoots callee arguments) e
    have hback := Machine.agreesFrom_env { m with env := e } (callRoots callee arguments) m.env
    obtain ⟨n', hrun', hn, -⟩ := (hthere.invoke k paren).ok hrun
    obtain ⟨_, _, hn', _⟩ := (hback.invoke k paren).ok hrun'
    rw [hrun', Machine.eq_of_confined hn.alike hn.first hn'.first]
  · have hthere := m.agreesFrom_env (callRoots callee arguments) e
    have hback := Machine.agreesFrom_env { m with env := e } (callRoots callee arguments) m.env
    obtain ⟨n', hrun', hn⟩ := ((hthere.invoke k paren).error hrun).2.2.2 hne
    have hn' := ((hback.invoke k paren).error hrun').2.1
    rw [hrun', Machine.eq_of_confined hn.alike hn.first hn']
  · obtain ⟨n', hrun', hn, -⟩ := (h.invoke k paren).ok hrun
    exact ⟨n', hrun', hn.second.env, h.sameEffect hn⟩
  · obtain ⟨-, -, -, hother⟩ := (h.invoke k paren).error hrun
    obtain ⟨n', hrun', hn⟩ := hother hne
    exact ⟨n', hrun', hn.second.env, h.sameEffect hn⟩

/-- A frame inside the global one, as a block leaves it, is reached from nowhere, and no
    statement touches it. -/
theorem run_touches_reachable_left : ∃ (m : Machine) (node : Node), m.store.Has node ∧
    ¬m.store.Reaches m.current node ∧
    ∀ (k bound : Nat) (s : Stmt), m.store.Same ((s.exec (invoke k) bound).after m).store node := by
  let first := Machine.start .unlimited fun _ => none
  let m : Machine := { first with store := (first.store.child Store.globals).2 }
  -- The global frame has the clock only, which leads nowhere.
  have hglobals (node : Node) : ¬m.store.Refers (.frame Store.globals) node := by
    intro hrefers
    cases hrefers with
    | parent hparent => cases hparent
    | @var _ name v _ hv hnode =>
      have hne : Store.globals ≠ first.store.frames.size := by decide
      have hold : first.store.own? Store.globals name = some v := by
        rw [← first.store.own?_newFrame_of_ne ⟨.empty, some Store.globals⟩ hne]
        exact hv
      rw [Machine.own?_start hold] at hnode
      exact hnode
  have hnot : ¬m.store.Reaches m.current (.frame 1) := by
    rintro ⟨root, hroot, hpath⟩
    have hroot' : root = .frame Store.globals := hroot.elim id id
    subst hroot'
    rcases hpath.cases_head with heq | ⟨_, hstep, _⟩
    · cases heq
    · exact hglobals _ hstep
  have hhas : m.store.Has (.frame 1) := Nat.lt_succ_self 1
  exact ⟨m, .frame 1, hhas, hnot, fun k bound s => run_touches_reachable.1 k bound s m _ hhas hnot⟩

end Lox
