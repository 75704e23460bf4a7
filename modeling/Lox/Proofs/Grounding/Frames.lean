/-
  Lox.Proofs.Grounding.Frames

  Frames that are made for methods have what methods need.

    * `Point.Leaves.unique` — a point ends on a single machine;
    * `Point.Precedes` — a point has come to its end, well or not, before another one comes up;
    * `Point.Equips` — a frame is made at a point: for `this` where a method is bound, for
      `super` where a class that names a superclass is declared;
    * `Point.Equips.equipped` — in the whole run such a frame has the name wherever it is
      there;
    * `Session.Passes.equipped` — and so while a session works on a text.

  A frame is not there when its point comes up.  So the machines of a run fall into those
  from before, which do not have it, and those that come from the one where it was made.
-/
import Lox.Proofs.Grounding.Points
import Lox.Proofs.Methods.Initializers

namespace Lox

open RunM

variable {root root' p q r : Point} {m n l : Machine} {f : FrameId} {name : String}

/-! ## Where a point ends -/

/-- A point ends on one machine only. -/
theorem Point.Leaves.unique (h : p.Leaves n) (h' : p.Leaves l) : n = l := by
  obtain ⟨k, task, m⟩ := p
  cases task with
  | call v vs =>
    obtain ⟨paren, rfl⟩ := h
    obtain ⟨paren', rfl⟩ := h'
    exact after_invoke paren paren' vs m k v
  | _ => exact Eq.trans h (Eq.symm h')

/-- The machine is one on which the point comes up or ends. -/
def Point.Meets (p : Point) (m : Machine) : Prop := m = p.machine ∨ p.Leaves m

theorem Point.Meets.becomes (h : p.Meets m) : p.machine.Becomes m := by
  rcases h with rfl | hleaves
  · exact .refl
  · exact hleaves.respects evolution_becomes

/-- What comes up in the course of a point is over when the point is. -/
theorem Point.Meets.until (h : q.Meets m) (hq : p.Reaches q) (hp : p.Leaves n) : m.Becomes n := by
  obtain ⟨n', hleaves, hbecomes⟩ := hq.leaves hp
  rcases h with rfl | hends
  · exact .trans (hleaves.respects evolution_becomes) hbecomes
  · rw [hends.unique hleaves]
    exact hbecomes

/-- The point has come to its end before the other one comes up. -/
def Point.Precedes (p q : Point) : Prop := ∃ n, p.Leaves n ∧ n.Becomes q.machine

theorem Point.Before.precedes (h : p.Before q) : p.Precedes q := by
  obtain ⟨n, hdone, hbecomes⟩ := h
  exact ⟨n, hdone.leaves, hbecomes⟩

theorem Point.Precedes.inside (h : p.Precedes q) {p' q' : Point} (hp : p.Reaches p')
    (hq : q.Reaches q') : p'.Precedes q' := by
  obtain ⟨n, hleaves, hbecomes⟩ := h
  obtain ⟨n', hleaves', hbecomes'⟩ := hp.leaves hleaves
  exact ⟨n', hleaves', .trans hbecomes' (.trans hbecomes hq.becomes)⟩

/-! ## Frames that have a name -/

/-- If the frame is there, it has the name. -/
def Store.Equipped (s : Store) (f : FrameId) (name : String) : Prop :=
  f < s.frames.size → (s.own? f name).isSome

theorem Machine.Becomes.equipped_of_le (h : m.Becomes n) (hn : n.store.frames.size ≤ f) :
    m.store.Equipped f name :=
  fun hf => absurd (Nat.lt_of_lt_of_le hf (h.frames.trans hn)) (Nat.lt_irrefl f)

/-- Names that frames have stay. -/
theorem Store.Becomes.keepsNames {s t : Store} (h : s.Becomes t) : s.KeepsNames t := by
  induction h with
  | refl => exact .refl s
  | tail _ hchange ih =>
    refine ih.trans ?_
    cases hchange with
    | bound f name value => exact keepsNames_define _ f name value
    | framed frame => exact keepsNames_newFrame _ frame
    | _ => exact fun _ _ h => h

theorem Machine.Becomes.equipped (h : m.Becomes n) (hm : (m.store.own? f name).isSome) :
    n.store.Equipped f name :=
  fun _ => Store.Becomes.keepsNames h f name hm

/-! ## Making frames -/

theorem superclassOf_of_lookUp {use : Occurrence} {parent : Class}
    (h : m.lookUp use = .ok (.class parent)) :
    superclassOf (some use) m = .ok (some parent) m := by
  have hread : read use m = .ok (.class parent) m := by
    rw [read_eq, h]
    rfl
  exact bind_of_ok hread _

theorem methodFrame_some (parent : Class) (m : Machine) :
    methodFrame (some parent) m = .ok m.store.frames.size
      { m with store := (m.store.newFrame ⟨.single "super" (.class parent), some m.env⟩).2 } :=
  rfl

/-- The frame of the initializer has the new instance. -/
theorem Machine.own_receive (m : Machine) (cls : Class) (init : Closure) :
    ((m.receive cls init).2.store.own? m.store.frames.size "this").isSome := by
  show ((Store.newFrame (m.store.newInstance cls).2 _).2.own?
    (m.store.newInstance cls).2.frames.size "this").isSome
  rw [Store.own?_newFrame_self]
  rfl

/-- At the point a frame is made for the name: one with the instance, where a method is
    bound, be it that a class is called with as many arguments as it takes; or one with the
    superclass, where a class that names one is declared. -/
inductive Point.Equips : Point → FrameId → String → Prop
  | bound {p method i f} : p.Binds method i f →
      (∀ cls vs, p.task = .call (.class cls) vs → cls.arity = vs.length ∧ 0 < p.bound) →
      Equips p f "this"
  | derived {k called use methods m parent} : m.lookUp use = .ok (.class parent) →
      Equips ⟨k, .stmt (.class called (some use) methods), m⟩ m.store.frames.size "super"

namespace Point.Equips

theorem of_expr {method : Closure} {i : InstanceId} (h : p.Binds method i f) {e : Expr}
    (htask : p.task = .expr e) : p.Equips f "this" := by
  refine .bound h fun cls vs hcall => ?_
  rw [htask] at hcall
  cases hcall

/-- The frame is not there before. -/
theorem le (h : p.Equips f name) : p.machine.store.frames.size ≤ f := by
  cases h with
  | bound hbinds _ => exact hbinds.le
  | derived _ => exact Nat.le_refl _

/-- Where the point ends, well or not, the frame has the name. -/
theorem left (h : p.Equips f name) (hp : p.Leaves n) : (n.store.own? f name).isSome := by
  have ev := evolution_becomes
  cases h with
  | @bound p method i f hbinds hadmits =>
    have ofExpr {e : Expr} (htask : p.task = .expr e)
        (hleaves : n = (e.eval (invoke p.bound)).after p.machine) :
        (n.store.own? f "this").isSome := by
      obtain ⟨stamp, n', hrun, hthis⟩ := hbinds.eval htask
      rw [hleaves, after_of_ok hrun, hthis]
      rfl
    cases hbinds with
    | property _ _ _ => exact ofExpr rfl hp
    | super _ _ => exact ofExpr rfl hp
    | @construction k cls vs m method hinit =>
      obtain ⟨harity, hbound⟩ := hadmits cls vs rfl
      obtain ⟨paren, rfl⟩ := hp
      cases k with
      | zero => exact absurd hbound (Nat.lt_irrefl 0)
      | succ k =>
        -- The initializer is bound before it is called, and its call may fail.
        have hcalled : (m.receive cls method).2.Becomes
            ((invoke (k + 1) (.class cls) paren vs).after m) := by
          refine becomes_behind (checkArity_of_eq paren harity m) ?_
          show Machine.Becomes _ ((instantiate (Stmt.listExec (invoke k) k) cls paren vs).after m)
          rw [after_instantiate _ hinit]
          exact ev.callClosure (ev.listExec (ev.invoke k) k) _ paren vs _
        exact Store.Becomes.keepsNames hcalled _ _ (m.own_receive cls method)
  | @derived k called use methods m parent hlookUp =>
    let frame : Frame := ⟨.single "super" (.class parent), some m.env⟩
    -- The frame is made before the class is.
    have hdeclared : Machine.Becomes { m with store := (m.store.newFrame frame).2 } n := by
      rw [show n = _ from hp, show (Stmt.exec _ _ _).after _ = _ from after_bind_pure _ _ _]
      exact becomes_behind (superclassOf_of_lookUp hlookUp) (becomes_behind
        (methodFrame_some parent m) (ev.bind ev.newStamp (fun _ => ev.define _ _) _))
    have hown : ((m.store.newFrame frame).2.own? m.store.frames.size "super").isSome := by
      rw [Store.own?_newFrame_self]
      rfl
    exact Store.Becomes.keepsNames hdeclared _ _ hown

/-- What comes up in the course of the point comes up before the frame is made, or behind
    that. -/
theorem inside (h : p.Equips f name) (hstep : p.Step q) (hq : q.Reaches r) (hr : r.Meets l) :
    l.store.Equipped f name := by
  cases h with
  | @bound p method i f hbinds _ =>
    cases hbinds with
    | property hobject _ _ =>
      cases hstep with
      | object =>
        have hends : Point.Leaves ⟨_, .expr _, _⟩ _ := Point.Done.leaves ⟨_, hobject⟩
        exact (hr.until hq hends).equipped_of_le (Nat.le_refl _)
    | super _ _ =>
      cases hstep with
      | super => exact (hr.until hq rfl).equipped_of_le (Nat.le_refl _)
    | @construction k cls vs m method hinit =>
      cases hstep with
      | initializer hinit' hreceive _ _ =>
        obtain rfl := Option.some.inj (hinit.symm.trans hinit')
        cases hreceive
        have hentered := Machine.becomes_enter (m.receive cls method).2 (m.receive cls method).1 vs
        have hreached : Machine.Becomes _ l := hentered.trans (hq.becomes.trans hr.becomes)
        exact hreached.equipped (m.own_receive cls method)
  | derived _ =>
    cases hstep with
    | superclass => exact (hr.until hq rfl).equipped_of_le (Nat.le_refl _)

/-- Whatever the order of the two points is, the frame has the name wherever it is there. -/
theorem equipped (h : p.Equips f name) (hq : q.Meets l)
    (horder : p.Reaches q ∨ q.Reaches p ∨ p.Precedes q ∨ q.Precedes p) :
    l.store.Equipped f name := by
  rcases horder with hinside | hinside | ⟨n, hleaves, hbecomes⟩ | ⟨n, hleaves, hbecomes⟩
  · rcases hinside.cases_head with rfl | ⟨first, hstep, hreaches⟩
    · rcases hq with rfl | hleaves
      · exact Machine.Becomes.equipped_of_le .refl h.le
      · exact fun _ => h.left hleaves
    · exact h.inside hstep hreaches hq
  · rcases hq with rfl | hleaves
    · exact hinside.becomes.equipped_of_le h.le
    · obtain ⟨n, hleaves', hbecomes⟩ := hinside.leaves hleaves
      exact hbecomes.equipped (h.left hleaves')
  · exact Machine.Becomes.equipped (hbecomes.trans hq.becomes) (h.left hleaves)
  · have hended := hq.until .refl hleaves
    exact Machine.Becomes.equipped_of_le (hended.trans hbecomes) h.le

end Point.Equips

/-! ## Sessions -/

namespace Session

variable {s : Session} {fuel : Nat} {input : SessionInput}

section

variable {α : Type} {parse : List Token → Nat → Parser.Parsed α}
  {resolve : α → Except (List Diagnostic) Table} {tree tree' : α} {table table' : Table}

/-- A text has one tree and one table. -/
theorem Takes.unique (h : s.Takes input parse resolve tree table)
    (h' : s.Takes input parse resolve tree' table') : tree = tree' ∧ table = table' := by
  obtain rfl := Except.ok.inj (h.parsed.symm.trans h'.parsed)
  exact ⟨rfl, Except.ok.inj (h.resolved.symm.trans h'.resolved)⟩

/-- A text that gets through is acted upon. -/
theorem Takes.submit_machine (h : s.Takes input parse resolve tree table)
    (action : α → RunM SessionAnswer) :
    (s.submit input parse resolve action).2.machine =
      (action tree).after ((addTable table).after s.machine) := by
  unfold submit
  dsimp only
  rw [h.scanned, h.parsed]
  dsimp only
  rw [h.resolved]
  exact act_machine _ table (action tree)

end

/-- Statements that are executed go on behind those before them. -/
theorem executeEach_append {done : List Stmt} (rest : List Stmt) {ends} {m n : Machine}
    (h : executeEach fuel done m = .ok ends n) :
    (executeEach fuel (done ++ rest)).after m = (executeEach fuel rest).after n := by
  induction done generalizing m ends with
  | nil =>
    cases h
    rfl
  | cons first done ih =>
    obtain ⟨ending, m₁, hfirst, h⟩ := bind_ok h
    obtain ⟨endings, n₁, hdone, hyield⟩ := bind_ok h
    cases hyield
    rw [← ih hdone]
    exact (after_bind_of_ok hfirst).trans (after_bind_pure _ _ _)

/-- A statement that is executed by itself has come to its end before the ones behind it
    have. -/
theorem becomes_executeEach (st : Stmt) (rest : List Stmt) (m : Machine) :
    ((execute fuel st).after m).Becomes ((executeEach fuel (st :: rest)).after m) := by
  rcases after_executeEach_cons fuel st rest m with heq | heq
  · rw [heq]
    exact respects_executeEach evolution_becomes fuel rest _
  · rw [heq]
    exact .refl

/-- Where the trees of a text run, they come to an end. -/
theorem Runs.exists_leaves {root : Point} (h : s.Runs fuel input root) : ∃ n, root.Leaves n := by
  cases h with
  | interpret _ _ => exact ⟨_, rfl⟩
  | execute _ _ _ => exact ⟨_, rfl⟩
  | evaluate _ _ => exact ⟨_, rfl⟩

/-- A text is over only when its trees are. -/
theorem Runs.until {root : Point} (h : s.Runs fuel input root) (hroot : root.Leaves n) :
    n.Becomes (s.step fuel input).2.machine := by
  cases h with
  | @interpret program table hmode htakes =>
    have hstep : (s.step fuel input).2.machine =
        (Lox.interpret fuel program).after ((addTable table).after s.machine) := by
      unfold step
      rw [hmode]
      exact (htakes.submit_machine _).trans (after_answer _ (fun _ => SessionAnswer.done) _)
    rw [hstep, show n = _ from hroot]
    exact becomes_bind fun _ => evolution_becomes.pure _
  | @execute done rest statement table ends m hmode htakes hdone =>
    have hstep : (s.step fuel input).2.machine =
        (executeEach fuel (statement :: rest)).after m := by
      unfold step
      rw [hmode]
      exact (htakes.submit_machine _).trans
        ((after_answer _ SessionAnswer.flows _).trans (executeEach_append _ hdone))
    rw [hstep, show n = _ from hroot]
    exact becomes_executeEach statement rest m
  | @evaluate e table hmode htakes =>
    have hstep : (s.step fuel input).2.machine =
        (Lox.evaluate fuel e).after ((addTable table).after s.machine) := by
      unfold step
      rw [hmode]
      exact (htakes.submit_machine _).trans (after_answer _ SessionAnswer.value _)
    rw [hstep, show n = _ from hroot]
    exact .refl

/-- A statement comes to its end before the ones behind it are executed. -/
theorem precedes_execute {done between rest rest' : List Stmt} {st st' : Stmt} {ends ends'}
    {m₀ m m' : Machine} (hdone : executeEach fuel done m₀ = .ok ends m)
    (hdone' : executeEach fuel (done ++ between) m₀ = .ok ends' m')
    (hrest : st :: rest = between ++ st' :: rest') :
    Point.mk fuel (.stmt st) m = ⟨fuel, .stmt st', m'⟩ ∨
      Point.Precedes ⟨fuel, .stmt st, m⟩ ⟨fuel, .stmt st', m'⟩ := by
  have hbetween : (executeEach fuel between).after m = m' := by
    rw [← executeEach_append between hdone, after_of_ok hdone']
  cases between with
  | nil =>
    cases hrest
    subst hbetween
    exact .inl rfl
  | cons first between =>
    cases hrest
    refine .inr ⟨_, rfl, ?_⟩
    rw [← hbetween]
    exact becomes_executeEach _ between m

/-- The trees of a text run one after the other. -/
theorem Runs.order {root root' : Point} (h : s.Runs fuel input root)
    (h' : s.Runs fuel input root') : root = root' ∨ root.Precedes root' ∨ root'.Precedes root := by
  cases h with
  | interpret hmode htakes =>
    cases h' with
    | interpret _ htakes' =>
      obtain ⟨rfl, rfl⟩ := htakes.unique htakes'
      exact .inl rfl
    | execute hmode' _ _ => cases hmode.symm.trans hmode'
    | evaluate hmode' _ => cases hmode.symm.trans hmode'
  | @execute done rest st table ends m hmode htakes hdone =>
    cases h' with
    | interpret hmode' _ => cases hmode.symm.trans hmode'
    | @execute done' rest' st' table' ends' m' _ htakes' hdone' =>
      obtain ⟨hprogram, rfl⟩ := htakes.unique htakes'
      -- The statements before the one are among those before the other, or all of them.
      obtain ⟨between, rfl, hrest⟩ | ⟨between, rfl, hrest⟩ := List.append_eq_append_iff.mp hprogram
      · exact (precedes_execute hdone hdone' hrest).imp_right .inl
      · exact (precedes_execute hdone' hdone hrest).imp Eq.symm .inr
    | evaluate hmode' _ => cases hmode.symm.trans hmode'
  | evaluate hmode htakes =>
    cases h' with
    | interpret hmode' _ => cases hmode.symm.trans hmode'
    | execute hmode' _ _ => cases hmode.symm.trans hmode'
    | evaluate _ htakes' =>
      obtain ⟨rfl, rfl⟩ := htakes.unique htakes'
      exact .inl rfl

/-- The point comes up while a session works on a text. -/
def Visits (fuel : Nat) (input : SessionInput) (s : Session) (p : Point) : Prop :=
  ∃ root, s.Runs fuel input root ∧ root.Reaches p

/-- Of two points that come up then, one comes up in the course of the other, or has come to
    its end before the other comes up. -/
theorem Runs.order_reaches {root root' : Point} (h : s.Runs fuel input root)
    (h' : s.Runs fuel input root') (hp : root.Reaches p) (hq : root'.Reaches q) :
    p.Reaches q ∨ q.Reaches p ∨ p.Precedes q ∨ q.Precedes p := by
  rcases h.order h' with rfl | hprecedes | hprecedes
  · rcases hp.order hq with hinside | hinside | hbefore | hbefore
    · exact .inl hinside
    · exact .inr (.inl hinside)
    · exact .inr (.inr (.inl hbefore.precedes))
    · exact .inr (.inr (.inr hbefore.precedes))
  · exact .inr (.inr (.inl (hprecedes.inside hp hq)))
  · exact .inr (.inr (.inr (hprecedes.inside hq hp)))

/-- When the text is over, a frame that was made on the way has its name. -/
theorem Visits.left (hp : s.Visits fuel input p) (hequips : p.Equips f name) :
    ((s.step fuel input).2.machine.store.own? f name).isSome := by
  obtain ⟨root, hroot, hreached⟩ := hp
  obtain ⟨n, hleaves⟩ := hroot.exists_leaves
  obtain ⟨n', hleaves', hbecomes⟩ := hreached.leaves hleaves
  exact Store.Becomes.keepsNames (hbecomes.trans (hroot.until hleaves)) f name
    (hequips.left hleaves')

/-- A frame that is made while a text is worked on has its name on all machines that come
    up then and have the frame. -/
theorem Passes.equipped (h : s.Passes fuel input m) (hs : s.machine.Grounded)
    (hp : s.Visits fuel input p) (hequips : p.Equips f name) : m.store.Equipped f name := by
  obtain ⟨root, hroot, hreached⟩ := hp
  cases h with
  | before =>
    obtain ⟨hgrounded, hgoes⟩ := hroot.grounded hs
    obtain ⟨-, hgoes'⟩ := hgrounded.reaches hreached
    have hsize := (Store.Goes.onward (hgoes.trans hgoes')).size
    exact fun hf => absurd (Nat.lt_of_lt_of_le hf (hsize.trans hequips.le)) (Nat.lt_irrefl f)
  | point hroot' hreached' =>
    exact hequips.equipped (.inl rfl) (hroot.order_reaches hroot' hreached hreached')
  | ended hroot' hreached' hleaves =>
    exact hequips.equipped (.inr hleaves) (hroot.order_reaches hroot' hreached hreached')
  | after => exact fun _ => Visits.left ⟨root, hroot, hreached⟩ hequips

end Session

end Lox
