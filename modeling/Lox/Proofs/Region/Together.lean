/-
  Lox.Proofs.Region.Together

  Two actions on two machines that are the same inside a region.

    * `Machine.Alike` — the machines are the same, apart from the current frame, from
      what is outside the region, and from table entries that the code does not use;
    * `Machine.Together` — they have the same current frame besides, inside the region;
    * `RunM.Alike` — the actions end in the same way, with the same values, and leave
      machines that are alike; the first one spares everything outside.

  The first of the two actions may also run out of fuel, and then nothing is said of
  the second one: it may be the same action with more fuel.  Taken on one machine, the
  relation says what a single run does.
-/
import Lox.Proofs.Operators
import Lox.Proofs.Region.Basic

namespace Lox

open RunM

/-! ## Machines -/

section

variable (G : Region)

/-- The store keeps to the region, and what stops a run on the machine may do so. -/
structure Machine.Within (m : Machine) : Prop where
  store : m.store.Within G
  closing : m.out.limit ≠ none → G.stops .closed
  waiting : ∀ tick, m.clock tick = none → G.stops .awaitingClock

structure Machine.Alike (m m' : Machine) : Prop extends m.Within G where
  depth : m'.depth = m.depth
  clock : m'.clock = m.clock
  ticks : m'.ticks = m.ticks
  out : m'.out = m.out
  table : ∀ id, G.use id → m'.table[id]? = m.table[id]?
  alike : m.store.Alike G m'.store

structure Machine.Together (d : Nat) (m m' : Machine) : Prop extends m.Alike G m' where
  env : m'.env = m.env
  inside : G.frame m.env
  level : m.depth = d

end

/-- What an action leaves as it was. -/
structure Machine.Still (m n : Machine) : Prop where
  env : n.env = m.env
  depth : n.depth = m.depth
  table : n.table = m.table
  clock : n.clock = m.clock
  limit : n.out.limit = m.out.limit

section

variable (G : Region)

/-- An action inside the region led from one machine to the other. -/
structure Machine.Confined (m n : Machine) : Prop extends m.Still n where
  spares : m.store.Spares G n.store

/-- Two actions on alike machines led to alike machines. -/
structure Machine.Follows (m m' n n' : Machine) : Prop where
  first : m.Confined G n
  second : m'.Still n'
  alike : n.Alike G n'

/-- Two actions end in the same way, unless the first one ran out of fuel. -/
inductive RunM.Matches {α : Type} (m m' : Machine) (Q : α → Prop) :
    EStateM.Result Halt Machine α → EStateM.Result Halt Machine α → Prop
  | ok {a n n'} : m.Follows G m' n n' → Q a → Matches m m' Q (.ok a n) (.ok a n')
  | error {halt n n'} :
      m.Follows G m' n n' → G.stops halt → Matches m m' Q (.error halt n) (.error halt n')
  | outOfFuel {n other} :
      m.Confined G n → n.Within G → G.stops .outOfFuel → Matches m m' Q (.error .outOfFuel n) other

def RunM.Alike {α : Type} (p p' : RunM α) (m m' : Machine) (Q : α → Prop) : Prop :=
  RunM.Matches G m m' Q (p m) (p' m')

end

variable {G : Region} {d : Nat} {m m' n n' : Machine} {α β : Type}

namespace Machine

theorem Still.refl (m : Machine) : m.Still m := ⟨rfl, rfl, rfl, rfl, rfl⟩

theorem Still.trans {k : Machine} (hmn : m.Still n) (hnk : n.Still k) : m.Still k :=
  ⟨hnk.env.trans hmn.env, hnk.depth.trans hmn.depth, hnk.table.trans hmn.table,
    hnk.clock.trans hmn.clock, hnk.limit.trans hmn.limit⟩

/-- Behind a call the depth is lowered to what it was. -/
theorem Still.leave (h : Machine.Still { m with depth := m.depth + 1 } n) :
    m.Still { n with depth := n.depth - 1 } :=
  ⟨h.env, Nat.sub_eq_of_eq_add h.depth, h.table, h.clock, h.limit⟩

theorem Confined.refl (m : Machine) : m.Confined G m := ⟨.refl m, .refl _⟩

theorem Confined.trans {k : Machine} (hmn : m.Confined G n) (hnk : n.Confined G k) :
    m.Confined G k :=
  ⟨hmn.toStill.trans hnk.toStill, hmn.spares.trans hnk.spares⟩

/-- A machine is like itself. -/
theorem Within.alike (h : m.Within G) : m.Alike G m :=
  ⟨h, rfl, rfl, rfl, rfl, fun _ _ => rfl, .refl _⟩

/-- Apart from the current frame, alike machines with one store and one table are the
    same. -/
theorem Alike.eq_withEnv (h : m.Alike G m') (hstore : m'.store = m.store)
    (htable : m'.table = m.table) : m' = { m with env := m'.env } := by
  have hdepth := h.depth
  have hclock := h.clock
  have hticks := h.ticks
  have hout := h.out
  cases m
  cases m'
  cases hstore
  cases hdepth
  cases htable
  cases hclock
  cases hticks
  cases hout
  rfl

theorem Follows.refl (h : m.Alike G m') : m.Follows G m' m m' := ⟨.refl m, .refl m', h⟩

theorem Follows.trans {k k' : Machine} (h : m.Follows G m' n n') (hk : n.Follows G n' k k') :
    m.Follows G m' k k' :=
  ⟨h.first.trans hk.first, h.second.trans hk.second, hk.alike⟩

/-- The machines are still at one place. -/
theorem Together.follow (h : m.Together G d m') (hn : m.Follows G m' n n') :
    n.Together G d n' := by
  have henv : n'.env = n.env := hn.second.env.trans (h.env.trans hn.first.env.symm)
  have hinside : G.frame n.env := hn.first.env ▸ h.inside
  exact ⟨hn.alike, henv, hinside, hn.first.depth.trans h.level⟩

/-- Changes inside lead on. -/
theorem Alike.changed (h : m.Alike G m') {s s' : Store} (hwithin : s.Within G)
    (hspares : m.store.Spares G s) (halike : s.Alike G s') :
    m.Follows G m' { m with store := s } { m' with store := s' } :=
  ⟨⟨⟨rfl, rfl, rfl, rfl, rfl⟩, hspares⟩, ⟨rfl, rfl, rfl, rfl, rfl⟩,
    ⟨hwithin, h.closing, h.waiting⟩, h.depth, h.clock, h.ticks, h.out, h.table, halike⟩

end Machine

namespace RunM

variable {p p' : RunM α} {f f' : α → RunM β} {Q R : α → Prop} {Q' : β → Prop}

theorem Matches.after {r r' : EStateM.Result Halt Machine α} (h : Matches G n n' Q r r')
    (hn : m.Follows G m' n n') : Matches G m m' Q r r' := by
  cases h with
  | ok hk ha => exact .ok (hn.trans hk) ha
  | error hk hstops => exact .error (hn.trans hk) hstops
  | outOfFuel hk hwithin hstops => exact .outOfFuel (hn.first.trans hk) hwithin hstops

namespace Alike

theorem of_ok {a : α} (hrun : p m = .ok a n) (hrun' : p' m' = .ok a n')
    (h : m.Follows G m' n n') (ha : Q a) : RunM.Alike G p p' m m' Q := by
  unfold RunM.Alike
  rw [hrun, hrun']
  exact .ok h ha

theorem of_error {halt : Halt} (hrun : p m = .error halt n) (hrun' : p' m' = .error halt n')
    (h : m.Follows G m' n n') (hstops : G.stops halt) : RunM.Alike G p p' m m' Q := by
  unfold RunM.Alike
  rw [hrun, hrun']
  exact .error h hstops

/-- What the second action does where the first one succeeds. -/
theorem ok (h : RunM.Alike G p p' m m' Q) {a : α} (hrun : p m = .ok a n) :
    ∃ n', p' m' = .ok a n' ∧ m.Follows G m' n n' ∧ Q a := by
  unfold RunM.Alike at h
  rw [hrun] at h
  generalize p' m' = r' at h
  cases h with
  | ok hn ha => exact ⟨_, rfl, hn, ha⟩

/-- What it does where the first one stops. -/
theorem error (h : RunM.Alike G p p' m m' Q) {halt : Halt} (hrun : p m = .error halt n) :
    G.stops halt ∧ m.Confined G n ∧ n.Within G ∧
      (halt ≠ .outOfFuel → ∃ n', p' m' = .error halt n' ∧ m.Follows G m' n n') := by
  unfold RunM.Alike at h
  rw [hrun] at h
  generalize p' m' = r' at h
  cases h with
  | error hn hstops =>
    exact ⟨hstops, hn.first, hn.alike.toWithin, fun _ => ⟨_, rfl, hn⟩⟩
  | outOfFuel hn hwithin hstops => exact ⟨hstops, hn, hwithin, fun hne => absurd rfl hne⟩

theorem bind (hp : RunM.Alike G p p' m m' Q)
    (hf : ∀ a n n', m.Follows G m' n n' → Q a → RunM.Alike G (f a) (f' a) n n' Q') :
    RunM.Alike G (p >>= f) (p' >>= f') m m' Q' := by
  unfold RunM.Alike at hp ⊢
  rw [bind_eq, bind_eq]
  generalize p m = r at hp
  generalize p' m' = r' at hp
  cases hp with
  | ok hn ha => exact (hf _ _ _ hn ha).after hn
  | error hn hstops => exact .error hn hstops
  | outOfFuel hn hwithin hstops => exact .outOfFuel hn hwithin hstops

theorem mono (h : RunM.Alike G p p' m m' Q) (hR : ∀ a, Q a → R a) :
    RunM.Alike G p p' m m' R := by
  unfold RunM.Alike at h ⊢
  generalize p m = r at h ⊢
  generalize p' m' = r' at h ⊢
  cases h with
  | ok hn ha => exact .ok hn (hR _ ha)
  | error hn hstops => exact .error hn hstops
  | outOfFuel hn hwithin hstops => exact .outOfFuel hn hwithin hstops

theorem pure (h : m.Alike G m') {a : α} (ha : Q a) :
    RunM.Alike G (pure a) (pure a) m m' Q :=
  of_ok rfl rfl (.refl h) ha

theorem fail (h : m.Alike G m') (at_ : Lexeme) (fault : RuntimeFault) :
    RunM.Alike G (RunM.fail at_ fault) (RunM.fail at_ fault) m m' Q :=
  of_error rfl rfl (.refl h) (G.errors _)

theorem constant (hp : p.Constant R) (h : m.Alike G m') (hQ : ∀ a, R a → Q a) :
    RunM.Alike G p p m m' Q := by
  rcases hp with ⟨a, rfl, ha⟩ | ⟨at_, fault, rfl⟩
  · exact .pure h (hQ a ha)
  · exact .fail h at_ fault

/-- Each action goes on with its own machine. -/
theorem get {f f' : Machine → RunM α} (h : RunM.Alike G (f m) (f' m') m m' Q) :
    RunM.Alike G (get >>= f) (get >>= f') m m' Q :=
  h

theorem inspect (h : m.Alike G m') {g : Store → α} (hsame : g m'.store = g m.store)
    (hg : Q (g m.store)) : RunM.Alike G (RunM.inspect g) (RunM.inspect g) m m' Q := by
  have hrun' : RunM.inspect g m' = .ok (g m.store) m' := by
    rw [← hsame]
    rfl
  exact of_ok rfl hrun' (.refl h) hg

theorem change (h : m.Alike G m') {g g' : Store → Store} {Q : Unit → Prop}
    (hwithin : (g m.store).Within G) (hspares : m.store.Spares G (g m.store))
    (halike : (g m.store).Alike G (g' m'.store)) (hQ : Q ()) :
    RunM.Alike G (RunM.change g) (RunM.change g') m m' Q :=
  of_ok rfl rfl (h.changed hwithin hspares halike) hQ

theorem make (h : m.Alike G m') {g g' : Store → α × Store}
    (hsame : (g' m'.store).1 = (g m.store).1) (hwithin : (g m.store).2.Within G)
    (hspares : m.store.Spares G (g m.store).2)
    (halike : (g m.store).2.Alike G (g' m'.store).2) (hQ : Q (g m.store).1) :
    RunM.Alike G (RunM.make g) (RunM.make g') m m' Q := by
  have hrun' : RunM.make g' m' = .ok (g m.store).1 { m' with store := (g' m'.store).2 } := by
    rw [← hsame]
    rfl
  exact of_ok rfl hrun' (h.changed hwithin hspares halike) hQ

/-- An action inside another frame; the frame of the position is put back. -/
theorem withFrame {g : FrameId}
    (h : RunM.Alike G p p' { m with env := g } { m' with env := g } Q) :
    RunM.Alike G (RunM.withFrame g p) (RunM.withFrame g p') m m' Q := by
  have back {n n' : Machine}
      (hn : Machine.Follows G { m with env := g } { m' with env := g } n n') :
      m.Follows G m' { n with env := m.env } { n' with env := m'.env } := by
    -- No fact about alike machines is about the current frame.
    obtain ⟨⟨hstill, hspares⟩, hstill', halike⟩ := hn
    exact ⟨⟨⟨rfl, hstill.depth, hstill.table, hstill.clock, hstill.limit⟩, hspares⟩,
      ⟨rfl, hstill'.depth, hstill'.table, hstill'.clock, hstill'.limit⟩,
      ⟨halike.store, halike.closing, halike.waiting⟩, halike.depth, halike.clock, halike.ticks,
      halike.out, halike.table, halike.alike⟩
  unfold RunM.Alike at h
  unfold RunM.Alike RunM.withFrame
  generalize p { m with env := g } = r at h ⊢
  generalize p' { m' with env := g } = r' at h ⊢
  cases h with
  | ok hn ha => exact .ok (back hn) ha
  | error hn hstops => exact .error (back hn) hstops
  | outOfFuel hn hwithin hstops =>
    exact .outOfFuel ⟨⟨rfl, hn.depth, hn.table, hn.clock, hn.limit⟩, hn.spares⟩
      ⟨hwithin.store, hwithin.closing, hwithin.waiting⟩ hstops

theorem deeper
    (h : RunM.Alike G p p' { m with depth := m.depth + 1 } { m' with depth := m'.depth + 1 } Q) :
    RunM.Alike G (RunM.deeper p) (RunM.deeper p') m m' Q := by
  have back {n n' : Machine}
      (hn : Machine.Follows G { m with depth := m.depth + 1 } { m' with depth := m'.depth + 1 }
        n n') :
      m.Follows G m' { n with depth := n.depth - 1 } { n' with depth := n'.depth - 1 } := by
    obtain ⟨⟨hstill, hspares⟩, hstill', halike⟩ := hn
    exact ⟨⟨hstill.leave, hspares⟩, hstill'.leave,
      ⟨halike.store, halike.closing, halike.waiting⟩, congrArg (· - 1) halike.depth, halike.clock,
      halike.ticks, halike.out, halike.table, halike.alike⟩
  unfold RunM.Alike at h
  unfold RunM.Alike RunM.deeper
  generalize p { m with depth := m.depth + 1 } = r at h ⊢
  generalize p' { m' with depth := m'.depth + 1 } = r' at h ⊢
  cases h with
  | ok hn ha => exact .ok (back hn) ha
  | error hn hstops => exact .error (back hn) hstops
  | outOfFuel hn hwithin hstops =>
    exact .outOfFuel ⟨hn.leave, hn.spares⟩
      ⟨hwithin.store, hwithin.closing, hwithin.waiting⟩ hstops

end Alike

end RunM

/-! ## Names -/

theorem Value.Free.within {v : Value} (h : v.Free) : v.Within G := by
  cases v with
  | function closure stamp => exact h.elim
  | «class» cls => exact h.elim
  | «instance» i => exact h.elim
  | _ => trivial

/-- An occurrence means the same variable on both machines. -/
theorem Machine.Together.lookUp (h : m.Together G d m') {use : Occurrence} (huse : G.use use.id) :
    m'.lookUp use = m.lookUp use ∧ ∀ v, m.lookUp use = .ok v → v.Within G := by
  unfold Machine.lookUp
  rw [h.table use.id huse, h.env]
  cases m.table[use.id]? with
  | none => exact h.store.get h.alike G.globals use.name
  | some distance => exact h.store.getAt h.alike h.inside distance use.name

theorem alike_read (h : m.Together G d m') {use : Occurrence} (huse : G.use use.id) :
    RunM.Alike G (read use) (read use) m m' (Value.Within G) := by
  obtain ⟨hsame, hinside⟩ := h.lookUp huse
  cases hlook : m.lookUp use with
  | ok v =>
    have hrun : read use m = .ok v m := by rw [read_eq, hlook]; rfl
    have hrun' : read use m' = .ok v m' := by rw [read_eq, hsame, hlook]; rfl
    exact .of_ok hrun hrun' (.refl h.toAlike) (hinside v hlook)
  | error e =>
    have hrun : read use m = .error (.error e) m := by rw [read_eq, hlook]; rfl
    have hrun' : read use m' = .error (.error e) m' := by rw [read_eq, hsame, hlook]; rfl
    exact .of_error hrun hrun' (.refl h.toAlike) (G.errors e)

theorem alike_write (h : m.Together G d m') {use : Occurrence} (huse : G.use use.id) {v : Value}
    (hv : v.Within G) : RunM.Alike G (write use v) (write use v) m m' fun _ => True := by
  -- Both machines write in the same frame, or both find none.
  have htarget : target? m' use = target? m use ∧ ∀ f, target? m use = some f → G.frame f := by
    unfold target?
    rw [h.table use.id huse, h.env]
    cases m.table[use.id]? with
    | none => exact h.store.owner? h.alike G.globals use.name.text
    | some distance => exact h.store.ancestor? h.alike h.inside distance
  obtain ⟨hsame, hinside⟩ := htarget
  cases hf : target? m use with
  | some f =>
    have hframe := hinside f hf
    have hrun : write use v m = .ok () { m with store := m.store.define f use.name.text v } := by
      rw [write, hf]
    have hrun' : write use v m' =
        .ok () { m' with store := m'.store.define f use.name.text v } := by
      rw [write, hsame, hf]
    exact .of_ok hrun hrun' (h.toAlike.changed (h.store.define hv f _)
      (m.store.spares_define hframe _ v) (h.alike.define f _ v)) trivial
  | none =>
    have hrun : write use v m = .error (.error (Store.undefined use.name)) m := by rw [write, hf]
    have hrun' : write use v m' = .error (.error (Store.undefined use.name)) m' := by
      rw [write, hsame, hf]
    exact .of_error hrun hrun' (.refl h.toAlike) (G.errors _)

theorem alike_define (h : m.Together G d m') (name : String) {v : Value} (hv : v.Within G) :
    RunM.Alike G (define name v) (define name v) m m' fun _ => True := by
  refine .get ?_
  rw [h.env]
  exact .change h.toAlike (h.store.define hv _ name) (m.store.spares_define h.inside name v)
    (h.alike.define _ name v) trivial

/-! ## Making frames, instances and functions -/

theorem alike_newFrame (h : m.Alike G m') {frame : Frame} (hframe : frame.Within G) :
    RunM.Alike G (make (·.newFrame frame)) (make (·.newFrame frame)) m m' G.frame :=
  .make h h.alike.frames (h.store.addFrame hframe) (h.store.spares_addFrame frame)
    (h.alike.addFrame frame) (h.store.newFrame _ (Nat.le_refl _))

theorem alike_newInstance (h : m.Alike G m') {cls : Class} (hcls : cls.Within G) :
    RunM.Alike G (make (·.newInstance cls)) (make (·.newInstance cls)) m m' G.object :=
  .make h h.alike.instances (h.store.addInstance hcls) (h.store.spares_addInstance cls)
    (h.alike.addInstance cls) (h.store.newObject _ (Nat.le_refl _))

theorem alike_newStamp (h : m.Alike G m') :
    RunM.Alike G (make Store.newStamp) (make Store.newStamp) m m' fun _ => True :=
  .make h h.alike.stamp h.store.addStamp ⟨fun _ _ => rfl, fun _ _ => rfl⟩ h.alike.addStamp trivial

theorem alike_functionValue (h : m.Alike G m') {closure : Closure} (hclosure : closure.Within G) :
    RunM.Alike G (make (·.functionValue closure)) (make (·.functionValue closure)) m m'
      (Value.Within G) :=
  .make h (congrArg (Value.function closure) h.alike.stamp) h.store.addStamp
    ⟨fun _ _ => rfl, fun _ _ => rfl⟩
    h.alike.addStamp hclosure

theorem alike_bindMethod (h : m.Alike G m') {method : Closure} (hmethod : method.Within G)
    {i : InstanceId} (hi : G.object i) :
    RunM.Alike G (make (·.bindMethod method i)) (make (·.bindMethod method i)) m m'
      (Closure.Within G) := by
  have hsame : (m'.store.bindMethod method i).1 = (m.store.bindMethod method i).1 :=
    congrArg (fun frame => { method with frame }) h.alike.frames
  exact .make h hsame (h.store.addFrame (hmethod.receiverFrame hi))
    (h.store.spares_addFrame _) (h.alike.addFrame _)
    ⟨h.store.newFrame _ (Nat.le_refl _), hmethod.2⟩

theorem alike_setField (h : m.Alike G m') {i : InstanceId} (hi : G.object i) (name : String)
    {v : Value} (hv : v.Within G) :
    RunM.Alike G (change (·.setField i name v)) (change (·.setField i name v)) m m'
      fun _ => True :=
  .change h (h.store.setField hv i name) (m.store.spares_setField hi name v)
    (h.alike.setField i name v) trivial

/-! ## Properties -/

theorem alike_asInstance (at_ : Lexeme) (fault : RuntimeFault) (h : m.Alike G m') {v : Value}
    (hv : v.Within G) :
    RunM.Alike G (asInstance at_ fault v) (asInstance at_ fault v) m m' G.object :=
  .constant (asInstance_constant at_ fault v) h fun i hi => by
    subst hi
    exact hv

theorem alike_boundMethod (h : m.Alike G m') {method : Closure} (hmethod : method.Within G)
    {i : InstanceId} (hi : G.object i) :
    RunM.Alike G (boundMethod method i) (boundMethod method i) m m' (Value.Within G) :=
  (alike_bindMethod h hmethod hi).bind fun _ _ _ hn hclosure =>
    alike_functionValue hn.alike hclosure

theorem alike_readProperty (h : m.Alike G m') {i : InstanceId} (hi : G.object i)
    (property : Lexeme) :
    RunM.Alike G (readProperty i property) (readProperty i property) m m' (Value.Within G) := by
  have hfield : RunM.Alike G (inspect (·.field? i property.text))
      (inspect (·.field? i property.text))
      m m' fun found => ∀ v, found = some v → v.Within G :=
    .inspect h (h.alike.field? hi _) fun v hv => h.store.field i _ v hi hv
  apply hfield.bind
  intro found n n' hn hfound
  split
  · next v => exact .pure hn.alike (hfound v rfl)
  · have hmethod : RunM.Alike G (inspect (·.method? i property.text))
        (inspect (·.method? i property.text)) n n' fun found =>
          ∀ method, found = some method → method.Within G :=
      .inspect hn.alike (hn.alike.alike.method? hi _) fun method hmethod =>
        hn.alike.store.method i _ method hi hmethod
    apply hmethod.bind
    intro found k k' hk hfound
    split
    · next method => exact alike_boundMethod hk.alike (hfound method rfl) hi
    · exact .fail hk.alike _ _

theorem alike_superMethod (h : m.Together G d m') {keyword : Occurrence}
    (huse : G.use keyword.id) (method : Lexeme) :
    RunM.Alike G (superMethod keyword method) (superMethod keyword method) m m'
      (Value.Within G) := by
  have hbinding : RunM.Alike G (superBinding keyword) (superBinding keyword) m m' fun found =>
      found.1.Within G ∧ G.object found.2 := by
    refine .get ?_
    rw [h.table keyword.id huse, h.env]
    cases m.table[keyword.id]? with
    | none => exact .fail h.toAlike _ _
    | some distance =>
      -- `this` is bound one frame further in than `super`.
      obtain ⟨hparent, hparentInside⟩ := h.store.namedAt? h.alike h.inside distance "super"
      obtain ⟨hthis, hthisInside⟩ := h.store.namedAt? h.alike h.inside (distance - 1) "this"
      dsimp only
      rw [hparent, hthis]
      split
      · next parent i hfound hreceiver =>
        refine .pure h.toAlike ⟨hparentInside _ hfound, hthisInside (.instance i) ?_⟩
        split at hreceiver
        · cases hreceiver
        · exact hreceiver
      · exact .fail h.toAlike _ _
  apply hbinding.bind
  rintro ⟨parent, i⟩ n n' hn ⟨hparent, hi⟩
  dsimp only
  split
  · next found hfound => exact alike_boundMethod hn.alike (hparent _ found hfound) hi
  · exact .fail hn.alike _ _

/-! ## The world -/

theorem Sink.write_limit (s : Sink) (text : String) : (s.write text).2.limit = s.limit := by
  unfold Sink.write
  split
  · rfl
  · dsimp only
    split <;> rfl

/-- Only a sink with a limit refuses a text. -/
theorem Sink.limit_of_write_refused {s : Sink} {text : String} (h : (s.write text).1 = false) :
    s.limit ≠ none := by
  unfold Sink.write at h
  split at h
  · cases h
  · exact nofun

theorem alike_print (h : m.Alike G m') {v : Value} (hv : v.Within G) :
    RunM.Alike G (RunM.print v) (RunM.print v) m m' fun _ => True := by
  have htext : v.text m'.store = v.text m.store := h.alike.text hv
  have hlimit := Sink.write_limit m.out (v.text m.store ++ "\n")
  have hfollows : m.Follows G m' { m with out := (m.out.write (v.text m.store ++ "\n")).2 }
      { m' with out := (m.out.write (v.text m.store ++ "\n")).2 } := by
    refine ⟨⟨⟨rfl, rfl, rfl, rfl, hlimit⟩, .refl _⟩, ⟨rfl, rfl, rfl, rfl, ?_⟩,
      ⟨h.store, ?_, h.waiting⟩, h.depth, h.clock, h.ticks, rfl, h.table, h.alike⟩
    · rw [h.out]
      exact hlimit
    · rw [hlimit]
      exact h.closing
  cases htaken : (m.out.write (v.text m.store ++ "\n")).1 with
  | true =>
    refine .of_ok (a := ()) ?_ ?_ hfollows trivial
    · simp [RunM.print, htaken]
    · simp [RunM.print, htext, h.out, htaken]
  | false =>
    have hrun : RunM.print v m =
        .error .closed { m with out := (m.out.write (v.text m.store ++ "\n")).2 } := by
      simp [RunM.print, htaken]
    have hrun' : RunM.print v m' =
        .error .closed { m' with out := (m.out.write (v.text m.store ++ "\n")).2 } := by
      simp [RunM.print, htext, h.out, htaken]
    exact .of_error hrun hrun' hfollows (h.closing (Sink.limit_of_write_refused htaken))

theorem alike_readClock (h : m.Alike G m') :
    RunM.Alike G readClock readClock m m' (Value.Within G) := by
  cases hreading : m.clock m.ticks with
  | some reading =>
    have hrun : readClock m = .ok (.number reading) { m with ticks := m.ticks + 1 } := by
      rw [readClock, hreading]
    have hrun' : readClock m' = .ok (.number reading) { m' with ticks := m'.ticks + 1 } := by
      rw [readClock, h.clock, h.ticks, hreading]
    exact .of_ok hrun hrun' ⟨⟨⟨rfl, rfl, rfl, rfl, rfl⟩, .refl _⟩, ⟨rfl, rfl, rfl, rfl, rfl⟩,
      ⟨h.store, h.closing, h.waiting⟩, h.depth, h.clock, congrArg (· + 1) h.ticks, h.out, h.table,
      h.alike⟩ trivial
  | none =>
    have hrun : readClock m = .error .awaitingClock m := by rw [readClock, hreading]
    have hrun' : readClock m' = .error .awaitingClock m' := by
      rw [readClock, h.clock, h.ticks, hreading]
    exact .of_error hrun hrun' (.refl h) (h.waiting m.ticks hreading)

end Lox
