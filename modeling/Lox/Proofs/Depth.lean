/-
  Lox.Proofs.Depth

  The limit on calls inside each other.

    * `RunM.Lowers` — begun at a smaller depth an action ends in the same way, unless a
      call was refused on the way;
    * `compositional_lowers` — single actions are of this kind, and so all runs are;
    * `Point.Step.depth` — a part of a task comes up at the depth of the task, and the body
      of a function one call deeper, which is not beyond the limit;
    * `Machine.Refuses` — a call fails whatever bodies do: none is run;
    * `call_depth_limit` — the main statement.
-/
import Lox.Proofs.Restoration
import Lox.Proofs.Scoping.Order
import Mathlib

namespace Lox

open RunM

/-! ## Smaller depths -/

/-- The machine inside another number of calls. -/
def Machine.atDepth (m : Machine) (d : Nat) : Machine := { m with depth := d }

/-- The run stopped with the error of a call that was refused. -/
def Halt.Overflows : Halt → Prop
  | .error e => e.fault.message = "Stack overflow."
  | _ => False

/-- The second result is the first one at the depth `d`, which is not greater than where the
    first run ended; or the first run was stopped by a call that was refused. -/
inductive Lowered {α : Type} (d : Nat) :
    EStateM.Result Halt Machine α → EStateM.Result Halt Machine α → Prop
  | ok {a n} : d ≤ n.depth → Lowered d (.ok a n) (.ok a (n.atDepth d))
  | error {halt n} : Lowered d (.error halt n) (.error halt (n.atDepth d))
  | refused {line n result} : Lowered d (.error (.error ⟨line, .stackOverflow⟩) n) result

/-- From a smaller depth the action ends in the same way, unless a call was refused. -/
def RunM.Lowers {α : Type} (p : RunM α) : Prop :=
  ∀ (m : Machine) (d : Nat), d ≤ m.depth → Lowered d (p m) (p (m.atDepth d))

namespace RunM.Lowers

variable {α β : Type} {p : RunM α}

theorem bind {f : α → RunM β} (hp : p.Lowers) (hf : ∀ a, (f a).Lowers) : (p >>= f).Lowers := by
  intro m d hd
  have hfirst := hp m d hd
  rw [bind_eq, bind_eq]
  -- What the parts are does not matter, only how they end; if the first one was refused,
  -- nothing is asked of the other run.
  generalize p m = first at hfirst ⊢
  generalize p (m.atDepth d) = second at hfirst ⊢
  cases hfirst with
  | ok hn => exact hf _ _ d hn
  | error => exact .error
  | refused => exact .refused

/-- What an action does may depend on everything but the depth. -/
theorem get {f : Machine → RunM β} (hf : ∀ m, (f m).Lowers)
    (hsame : ∀ m d, f (m.atDepth d) = f m) : (MonadState.get >>= f).Lowers := by
  intro m d hd
  show Lowered d (f m m) (f (m.atDepth d) (m.atDepth d))
  rw [hsame]
  exact hf m m d hd

theorem ofExcept (answer : Except RuntimeError α) : (RunM.ofExcept answer).Lowers := by
  cases answer with
  | ok a => exact fun _ _ hd => .ok hd
  | error e => exact fun _ _ _ => .error

theorem write (use : Occurrence) (value : Value) : (RunM.write use value).Lowers := by
  intro m d hd
  have hsame : target? (m.atDepth d) use = target? m use := rfl
  unfold RunM.write
  rw [hsame]
  cases target? m use with
  | none => exact .error
  | some f => exact .ok hd

theorem superBinding (keyword : Occurrence) : (Lox.superBinding keyword).Lowers := by
  refine .get (fun m => ?_) fun m d => rfl
  split
  · exact fun _ _ _ => .error
  · dsimp only
    split
    · exact fun _ _ hd => .ok hd
    · exact fun _ _ _ => .error

theorem print (value : Value) : (RunM.print value).Lowers := by
  intro m d hd
  have hsame : (m.atDepth d).out = m.out ∧ (m.atDepth d).store = m.store := ⟨rfl, rfl⟩
  unfold RunM.print
  rw [hsame.1, hsame.2]
  dsimp only
  split
  · exact .ok hd
  · exact .error

theorem readClock : RunM.readClock.Lowers := by
  intro m d hd
  have hsame : (m.atDepth d).clock (m.atDepth d).ticks = m.clock m.ticks := rfl
  unfold RunM.readClock
  rw [hsame]
  cases m.clock m.ticks with
  | none => exact .error
  | some reading => exact .ok hd

theorem withFrame (f : FrameId) (hp : p.Lowers) : (RunM.withFrame f p).Lowers := by
  intro m d hd
  have hinside := hp { m with env := f } d hd
  have hsame : ({ m.atDepth d with env := f } : Machine) =
      Machine.atDepth { m with env := f } d := rfl
  unfold RunM.withFrame
  rw [hsame]
  generalize p { m with env := f } = first at hinside ⊢
  generalize p (Machine.atDepth { m with env := f } d) = second at hinside ⊢
  cases hinside with
  | ok hn => exact .ok hn
  | error => exact .error
  | refused => exact .refused

/-- Inside a call both depths are greater by one, and behind it both are lowered by one: of
    depths in order at the end of the body, the lower ones are in order too. -/
theorem deeper (hp : p.Lowers) : (RunM.deeper p).Lowers := by
  intro m d hd
  have hinside := hp { m with depth := m.depth + 1 } (d + 1) (Nat.succ_le_succ hd)
  have hsame : ({ m.atDepth d with depth := (m.atDepth d).depth + 1 } : Machine) =
      Machine.atDepth { m with depth := m.depth + 1 } (d + 1) := rfl
  unfold RunM.deeper
  rw [hsame]
  generalize p { m with depth := m.depth + 1 } = first at hinside ⊢
  generalize p (Machine.atDepth { m with depth := m.depth + 1 } (d + 1)) = second at hinside ⊢
  cases hinside with
  | ok hn => exact .ok (Nat.le_sub_one_of_lt hn)
  | error => exact .error
  | refused => exact .refused

/-- A call that is not refused is not refused at a smaller depth either. -/
theorem limited (paren : Lexeme) (hp : p.Lowers) :
    (MonadState.get >>= fun m =>
      if maxDepth ≤ m.depth then RunM.fail paren .stackOverflow else p : RunM α).Lowers := by
  intro m d hd
  show Lowered d ((if maxDepth ≤ m.depth then RunM.fail paren .stackOverflow else p : RunM α) m)
    ((if maxDepth ≤ d then RunM.fail paren .stackOverflow else p : RunM α) (m.atDepth d))
  by_cases hdeep : maxDepth ≤ m.depth
  · -- This is the one place where the runs may part.
    rw [if_pos hdeep]
    exact .refused
  · have hshallow : ¬maxDepth ≤ d := by omega
    rw [if_neg hdeep, if_neg hshallow]
    exact hp m d hd

end RunM.Lowers

/-- To end in the same way from a smaller depth carries over from the parts of a run. -/
theorem compositional_lowers : Compositional RunM.Lowers where
  pure _ _ _ hd := .ok hd
  throw _ _ _ _ _ := .error
  bind := .bind
  inspect _ _ _ hd := .ok hd
  here hf := .get (fun m => hf m.env) fun _ _ => rfl
  read use m d hd := by
    have hsame : (m.atDepth d).lookUp use = m.lookUp use := rfl
    rw [read_eq, read_eq, hsame]
    exact Lowers.ofExcept _ m d hd
  write := .write
  superBinding := .superBinding
  bound _ _ _ _ _ hd := .ok hd
  newFrame _ _ _ hd := .ok hd
  newInstance _ _ _ hd := .ok hd
  setField _ _ _ _ _ hd := .ok hd
  newStamp _ _ hd := .ok hd
  print := .print
  readClock := .readClock
  withFrame f _ hp := .withFrame f hp
  deeper := .deeper
  limited paren _ hp := .limited paren hp

/-- Whatever ends otherwise than by a call that was refused ends in the same way, with the
    same answer and the same machine but for the depth, from every smaller depth. -/
def RunM.Transparent {α : Type} (p : RunM α) (m : Machine) : Prop :=
  ∀ d, d ≤ m.depth →
    (∀ a n, p m = .ok a n → p (m.atDepth d) = .ok a (n.atDepth d)) ∧
    ∀ halt n, p m = .error halt n → ¬halt.Overflows →
      p (m.atDepth d) = .error halt (n.atDepth d)

theorem RunM.Lowers.transparent {α : Type} {p : RunM α} (hp : p.Lowers) (m : Machine) :
    p.Transparent m := by
  intro d hd
  have hlowered := hp m d hd
  refine ⟨fun a n hrun => ?_, fun halt n hrun hother => ?_⟩
  · rw [hrun] at hlowered
    cases hlowered' : p (m.atDepth d) with
    | ok b n' =>
      rw [hlowered'] at hlowered
      cases hlowered
      rfl
    | error halt n' =>
      rw [hlowered'] at hlowered
      cases hlowered
  · rw [hrun] at hlowered
    generalize p (m.atDepth d) = result at hlowered ⊢
    cases hlowered with
    | error => rfl
    | refused => exact absurd rfl hother

/-! ## Depths of points -/

/-- A part of a task comes up at the depth of the task, or one call deeper, where the depth
    is below the limit. -/
theorem Point.Step.depth {p q : Point} (h : p.Step q) :
    q.machine.depth = p.machine.depth ∨
      p.machine.depth < maxDepth ∧ q.machine.depth = p.machine.depth + 1 := by
  have ev := evolution_restored
  have evaluated {k : Nat} {e : Expr} {m n : Machine} {v : Value}
      (hrun : e.eval (invoke k) m = .ok v n) : n.depth = m.depth :=
    ((ev.eval (ev.invoke k) e).ok hrun).depth
  have executed {k : Nat} {s : Stmt} {m n : Machine} {flow : Flow}
      (hrun : s.exec (invoke k) k m = .ok flow n) : n.depth = m.depth :=
    ((ev.exec (ev.invoke k) k s).ok hrun).depth
  -- Parts that ran before have put the depth back; only the body of a call begins deeper.
  cases h with
  | right hrun => exact .inl (evaluated hrun)
  | second hrun _ => exact .inl (evaluated hrun)
  | target hrun => exact .inl (evaluated hrun)
  | arguments hrun => exact .inl (evaluated hrun)
  | called hrun hrun' =>
    have harguments := ((ev.listEval (ev.invoke _) _).ok hrun').depth
    exact .inl (harguments.trans (evaluated hrun))
  | stored hrun => exact .inl (evaluated hrun)
  | tail hrun => exact .inl (evaluated hrun)
  | function _ hdepth => exact .inr ⟨hdepth, rfl⟩
  | initializer _ hreceive _ hdepth =>
    cases hreceive
    exact .inr ⟨hdepth, rfl⟩
  | yes hrun _ => exact .inl (evaluated hrun)
  | no hrun _ => exact .inl (evaluated hrun)
  | statements hrun => exact .inl (executed hrun)
  | round hrun _ => exact .inl (evaluated hrun)
  | again hrun _ hrun' => exact .inl ((executed hrun').trans (evaluated hrun))
  | _ => exact .inl rfl

/-- Within a task the depth does not fall below that of the task, nor does it pass the
    limit. -/
theorem Point.Reaches.depth {p q : Point} (h : p.Reaches q) (hp : p.machine.depth ≤ maxDepth) :
    p.machine.depth ≤ q.machine.depth ∧ q.machine.depth ≤ maxDepth := by
  induction h with
  | refl => exact ⟨Nat.le_refl _, hp⟩
  | tail _ hstep ih =>
    obtain ⟨hlow, hhigh⟩ := ih
    rcases hstep.depth with heq | ⟨hbelow, heq⟩
    · omega
    · omega

/-! ## Refused calls -/

/-- The number of arguments that a value takes, if it can be called. -/
def Value.arity? : Value → Option Nat
  | .native _ => some 0
  | .function closure _ => some closure.arity
  | .class cls => some cls.arity
  | _ => none

/-- The closure whose body a call of the value runs, if there is one: that of a function or
    a bound method, or the initializer of a class. -/
def Value.body? : Value → Option Closure
  | .function closure _ => some closure
  | .class cls => cls.findMethod "init"
  | _ => none

/-- The call fails because of the depth, whatever bodies do when they are run: none is. -/
def Machine.Refuses (m : Machine) (callee : Value) (paren : Lexeme) (vs : List Value) : Prop :=
  ∀ run, ∃ n, callValue run callee paren vs m = .error (.error ⟨paren.line, .stackOverflow⟩) n

/-- All frames and instances of the first store are in the second one as they were. -/
structure Store.Extends (s t : Store) : Prop where
  frames : ∀ (f : FrameId) frame, s.frames[f]? = some frame → t.frames[f]? = some frame
  instances : ∀ (i : InstanceId) object, s.instances[i]? = some object → t.instances[i]? = some object

/-- What is in an array stays where it is when something is added. -/
theorem getElem?_push_of_some {α : Type} {xs : Array α} {i : Nat} {x : α} (y : α)
    (h : xs[i]? = some x) : (xs.push y)[i]? = some x := by
  obtain ⟨hi, -⟩ := Array.getElem?_eq_some_iff.mp h
  rw [Array.getElem?_push, if_neg (Nat.ne_of_lt hi), h]

namespace Store

theorem Extends.refl (s : Store) : s.Extends s := ⟨fun _ _ h => h, fun _ _ h => h⟩

theorem Extends.trans {s t u : Store} (hst : s.Extends t) (htu : t.Extends u) : s.Extends u :=
  ⟨fun f frame h => htu.frames f frame (hst.frames f frame h),
    fun i object h => htu.instances i object (hst.instances i object h)⟩

theorem extends_newFrame (s : Store) (frame : Frame) : s.Extends (s.newFrame frame).2 :=
  ⟨fun _ _ h => getElem?_push_of_some frame h, fun _ _ h => h⟩

theorem extends_newInstance (s : Store) (cls : Class) : s.Extends (s.newInstance cls).2 :=
  ⟨fun _ _ h => h, fun _ _ h => getElem?_push_of_some _ h⟩

end Store

/-- The instance that a call makes and the frame of its initializer are new. -/
theorem Machine.extends_receive (m : Machine) (cls : Class) (init : Closure) :
    m.store.Extends (m.receive cls init).2.store :=
  (m.store.extends_newInstance cls).trans (Store.extends_newFrame _ _)

section

variable {m : Machine} {callee : Value} {closure : Closure} {vs : List Value}
  {run : List Stmt → RunM Flow}

theorem callClosure_of_deep (run : List Stmt → RunM Flow) (closure : Closure) (paren : Lexeme)
    (vs : List Value) (hdeep : maxDepth ≤ m.depth) :
    callClosure run closure paren vs m = .error (.error ⟨paren.line, .stackOverflow⟩) m := by
  refine (bind_of_ok (p := get) rfl _).trans ?_
  rw [if_pos hdeep]
  rfl

/-- At the greatest depth a call that has a body to run fails.  What it did before is to
    make the instance that the initializer would have been called on, and the frame that
    binds the initializer to it. -/
theorem callValue_of_deep (harity : callee.arity? = some vs.length)
    (hbody : callee.body? = some closure) (hdeep : maxDepth ≤ m.depth)
    (run : List Stmt → RunM Flow) (paren : Lexeme) :
    ∃ s, callValue run callee paren vs m =
        .error (.error ⟨paren.line, .stackOverflow⟩) { m with store := s } ∧
      m.store.Extends s := by
  cases callee with
  | function own stamp =>
    have harity : own.arity = vs.length := Option.some.inj harity
    refine ⟨m.store, ?_, .refl _⟩
    exact (bind_of_ok (checkArity_of_eq paren harity m) _).trans
      (callClosure_of_deep run own paren vs hdeep)
  | «class» cls =>
    have harity : cls.arity = vs.length := Option.some.inj harity
    refine ⟨(m.receive cls closure).2.store, ?_, m.extends_receive cls closure⟩
    refine (bind_of_ok (checkArity_of_eq paren harity m) _).trans ?_
    rw [instantiate_of_some run hbody, bind_eq,
      callClosure_of_deep run _ paren vs (m := (m.receive cls closure).2) hdeep]
    rfl
  | _ => cases hbody

/-- Below the limit, or without a body to run, a call goes well if bodies do. -/
theorem callValue_of_shallow (harity : callee.arity? = some vs.length)
    (hshallow : callee.body? = none ∨ m.depth < maxDepth) (paren : Lexeme) :
    (∃ v n, callValue (fun _ => pure .normal) callee paren vs m = .ok v n) ∨
      callValue (fun _ => pure .normal) callee paren vs m = .error .awaitingClock m := by
  cases callee with
  | native name =>
    have harity : 0 = vs.length := Option.some.inj harity
    have hclock : callValue (fun _ => pure .normal) (.native name) paren vs m = readClock m :=
      bind_of_ok (checkArity_of_eq paren harity m) _
    rw [hclock, readClock]
    cases m.clock m.ticks with
    | none => exact .inr rfl
    | some reading => exact .inl ⟨_, _, rfl⟩
  | function own stamp =>
    have harity : own.arity = vs.length := Option.some.inj harity
    rcases hshallow with hnone | hdepth
    · cases hnone
    · exact .inl ⟨_, _, (bind_of_ok (checkArity_of_eq paren harity m) _).trans
        (callClosure_of_ok paren hdepth rfl)⟩
  | «class» cls =>
    have harity : cls.arity = vs.length := Option.some.inj harity
    have hcalled : callValue (fun _ => pure .normal) (.class cls) paren vs m =
        instantiate (fun _ => pure .normal) cls paren vs m :=
      bind_of_ok (checkArity_of_eq paren harity m) _
    rw [hcalled]
    cases hinit : cls.findMethod "init" with
    | none => exact .inl ⟨_, _, instantiate_of_none _ hinit paren vs m⟩
    | some init =>
      rcases hshallow with hnone | hdepth
      · cases hinit.symm.trans hnone
      · rw [instantiate_of_some _ hinit]
        exact .inl ⟨_, _, bind_of_ok
          (callClosure_of_ok paren (m := (m.receive cls init).2) hdepth rfl) _⟩
  | _ => cases harity

/-- A call whose arguments were counted is refused exactly where it has a body to run and
    the depth is the greatest one. -/
theorem Machine.refuses_iff (hm : m.depth ≤ maxDepth) (harity : callee.arity? = some vs.length)
    (paren : Lexeme) :
    m.Refuses callee paren vs ↔ (∃ closure, callee.body? = some closure) ∧ m.depth = maxDepth := by
  constructor
  · intro hrefuses
    -- It is refused even with bodies that do nothing, and below the limit it would not be.
    obtain ⟨n, hrefused⟩ := hrefuses fun _ => pure .normal
    have notOk : ¬(callee.body? = none ∨ m.depth < maxDepth) := by
      intro hshallow
      rcases callValue_of_shallow harity hshallow paren with ⟨v, n', hrun⟩ | hrun
      · cases hrefused.symm.trans hrun
      · cases hrefused.symm.trans hrun
    obtain ⟨hbody, hdeep⟩ := not_or.mp notOk
    exact ⟨Option.ne_none_iff_exists'.mp hbody, by omega⟩
  · rintro ⟨⟨closure, hbody⟩, hdeep⟩ run
    obtain ⟨s, hrun, -⟩ := callValue_of_deep harity hbody (Nat.le_of_eq hdeep.symm) run paren
    exact ⟨_, hrun⟩

/-- A body comes up in a call whose arguments were counted exactly where there is one and
    the depth is below the limit. -/
theorem Point.steps_of_call_iff {k : Nat} (harity : callee.arity? = some vs.length) :
    (∃ q, Point.Step ⟨k + 1, .call callee vs, m⟩ q) ↔
      (∃ closure, callee.body? = some closure) ∧ m.depth < maxDepth := by
  constructor
  · rintro ⟨q, hstep⟩
    cases hstep with
    | function _ hdepth => exact ⟨⟨_, rfl⟩, hdepth⟩
    | initializer hinit _ _ hdepth => exact ⟨⟨_, hinit⟩, hdepth⟩
  · rintro ⟨⟨closure, hbody⟩, hdepth⟩
    cases callee with
    | function own stamp => exact ⟨_, .function (Option.some.inj harity) hdepth⟩
    | «class» cls => exact ⟨_, .receive hbody (Option.some.inj harity) hdepth⟩
    | _ => cases hbody

end

/-! ## Main statement -/

/-- Begun inside at most so many calls as may be inside each other, a task keeps between its
    own depth and that limit, and so does every task in it, which ends where it began.
    Unless a call in it was refused, it ends in the same way, with the same output and the
    same store, from every smaller depth.
    A call whose arguments were counted is refused exactly where there is a body to run and
    the depth is the greatest one; below it the body is run.  A call that is refused leaves
    the frames and the instances that there are, and all but the store, as they were. -/
theorem call_depth_limit (k : Nat) (m : Machine) (hm : m.depth ≤ maxDepth) :
    (∀ task q, Point.Reaches ⟨k, task, m⟩ q → m.depth ≤ q.machine.depth ∧
      q.machine.depth ≤ maxDepth ∧ ∀ n, q.Leaves n → n.depth = q.machine.depth) ∧
    (∀ e : Expr, (e.eval (invoke k)).Transparent m) ∧
    (∀ s : Stmt, (s.exec (invoke k) k).Transparent m) ∧
    ∀ callee paren vs, callee.arity? = some vs.length →
      (m.Refuses callee paren vs ↔
        (∃ closure, callee.body? = some closure) ∧ m.depth = maxDepth) ∧
      ((∃ q, Point.Step ⟨k + 1, .call callee vs, m⟩ q) ↔
        (∃ closure, callee.body? = some closure) ∧ m.depth < maxDepth) ∧
      (m.Refuses callee paren vs → ∃ s, invoke (k + 1) callee paren vs m =
          .error (.error ⟨paren.line, .stackOverflow⟩) { m with store := s } ∧
        m.store.Extends s) := by
  have good := compositional_lowers
  refine ⟨fun task q hreaches => ?_,
    fun e => (good.eval (good.invoke k) e).transparent m,
    fun s => (good.exec (good.invoke k) k s).transparent m,
    fun callee paren vs harity => ⟨Machine.refuses_iff hm harity paren,
      Point.steps_of_call_iff harity, fun hrefuses => ?_⟩⟩
  · obtain ⟨hlow, hhigh⟩ := hreaches.depth hm
    exact ⟨hlow, hhigh, fun n hleaves => (hleaves.respects evolution_restored).depth⟩
  · obtain ⟨⟨closure, hbody⟩, hdeep⟩ := (Machine.refuses_iff hm harity paren).mp hrefuses
    exact callValue_of_deep harity hbody (Nat.le_of_eq hdeep.symm) _ paren

/-- One call below the limit a function with an empty body can be called, and so it can
    outside all calls; at the limit its call is refused. -/
theorem call_depth_limit_empty :
    let f := Value.function ⟨⟨⟨"f", 1⟩, [], []⟩, Store.globals, false⟩ 0
    let start := Machine.start .unlimited fun _ => none
    let m := { start with store := start.store.define Store.globals "f" f }
    (∃ n : Machine, (Expr.call (.name ⟨0, ⟨"f", 1⟩⟩) ⟨")", 1⟩ []).eval (invoke 1)
      (m.atDepth 0) = .ok .nil (n.atDepth 0)) ∧ (m.atDepth 1000).Refuses f ⟨")", 1⟩ [] := by
  intro f start m
  have hbelow := call_depth_limit 1 (m.atDepth 999) (by decide)
  have hlimit := call_depth_limit 0 (m.atDepth 1000) (Nat.le_refl _)
  have hcalled : ((Expr.call (.name ⟨0, ⟨"f", 1⟩⟩) ⟨")", 1⟩ []).eval (invoke 1)).answer?
      (m.atDepth 999) = some .nil := by cbv
  refine ⟨⟨_, (hbelow.2.1 _ 0 (Nat.zero_le _)).1 .nil _ (ok_of_answer? hcalled)⟩, ?_⟩
  exact (hlimit.2.2.2 f ⟨")", 1⟩ [] rfl).1.mpr ⟨⟨_, rfl⟩, rfl⟩

end Lox
