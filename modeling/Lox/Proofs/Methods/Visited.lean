/-
  Lox.Proofs.Methods.Visited

  What comes up in a visited point is visited.

    * `Stmt.keeps`, `callsKeep` — what is done at visited points keeps the store rooted;
    * `Point.Visited.enter` — the body of a rooted function is visited, at a seat of its
      own;
    * `Point.Visited.reaches` — every point that comes up from a visited one is visited;
    * `Point.visited_start` — so every point of the run of an accepted program is.
-/
import Lox.Proofs.Methods.Keeping
import Lox.Proofs.Renaming.Stability

namespace Lox

open RunM
open RunM (Keeps)
open Point (Visited)

variable {root : Point} {T : Table} {m : Machine} {k : Nat} {seat : Option Seat}

/-! ## Declarations -/

theorem keeps_defineFunction {decl : FunctionDecl} (hm : m.Rooted root T) (hat : m.At root seat)
    (hname : decl.name.Ordinary) (hdecl : decl.Anchored T (Seat.inner seat)) :
    Keeps root T (defineFunction decl) m fun _ _ => True := by
  have hlocal : Closure.Local root T m.store ⟨decl, m.env, false⟩ :=
    ⟨rfl, hat.lt, hat.bare, seat, hat.seated, hdecl⟩
  refine .get ((keeps_functionValue hm (.inl hlocal)).bind fun v n _ _ hn hv => ?_)
  exact keeps_define hname hn (hv.onward (n.store.steady_define n.env hname v))

/-- A class is rooted if its methods are anchored where they close over, and its
    superclass is rooted. -/
theorem keeps_bindClass {name : Lexeme} (hname : name.Ordinary) {methods : List FunctionDecl}
    {frame : FrameId} {parent : Option Class} (hm : m.Rooted root T)
    (hframe : frame < m.store.frames.size)
    (hmethods : ∀ decl ∈ methods, decl.Anchored T none ∨
      decl.Anchored T (some decl.seat) ∧ m.store.Inherits root frame decl)
    (hparent : ∀ cls, parent = some cls → cls.Rooted root T m.store) :
    Keeps root T (do
      let stamp ← make Store.newStamp
      define name.text (.class ⟨stamp, name.text, methodTable frame methods, parent⟩)) m
      fun _ _ => True := by
  have hsteady : m.store.Steady m.store.newStamp.2 := Store.steady_of_frames rfl
  refine Keeps.bind (Q := fun _ s => m.store.Steady s)
    (.make hm hsteady hm.store.newStamp hsteady) fun stamp n _ _ hn hsteady => ?_
  have hcls : Class.Rooted root T m.store
      ⟨stamp, name.text, methodTable frame methods, parent⟩ := by
    intro called method hfound
    rw [Class.findMethod.eq_def] at hfound
    dsimp only at hfound
    cases hown : (methodTable frame methods).get? called with
    | some own =>
      simp only [hown, Option.some.injEq] at hfound
      subst hfound
      -- A method of its own has the name it was declared with.
      obtain ⟨hmem, hclosed, hcalled, hinit⟩ := methodTable_get? hown
      subst hclosed
      exact ⟨hcalled, hinit.trans (by rw [hcalled]), hframe, hmethods _ hmem⟩
    | none =>
      simp only [hown] at hfound
      cases parent with
      | none => cases hfound
      | some cls => exact hparent cls rfl called method hfound
  have hvalue : Value.Rooted root T n.store
      (.class ⟨stamp, name.text, methodTable frame methods, parent⟩) := hcls.onward hsteady
  exact keeps_define hname hn (hvalue.onward (n.store.steady_define n.env hname _))

/-- A superclass clause yields the class that its name stands for. -/
theorem superclassOf_ok {use : Occurrence} {found : Option Class} {n : Machine}
    (h : superclassOf (some use) m = .ok found n) :
    ∃ parent, found = some parent ∧ m.lookUp use = .ok (.class parent) ∧ n = m := by
  obtain ⟨v, m₁, hread, h⟩ := bind_ok h
  obtain ⟨hlookUp, hsame⟩ := read_ok hread
  cases v with
  | «class» parent =>
    cases h
    exact ⟨parent, rfl, hlookUp, hsame⟩
  | _ => cases h

/-- The methods of a subclass close over a frame that is made where it is declared. -/
theorem keeps_methodFrame {name : Lexeme} {use : Occurrence} {methods : List FunctionDecl}
    (h : Visited root T seat ⟨k, .stmt (.class name (some use) methods), m⟩) {parent : Class}
    (hlookUp : m.lookUp use = .ok (.class parent)) (hparent : parent.Rooted root T m.store) :
    Keeps root T (methodFrame (some parent)) m fun frame s => frame < s.frames.size ∧
      ∀ decl ∈ methods, s.Inherits root frame decl := by
  refine .get (.make h.rooted (m.store.steady_newFrame _) ?_ ⟨?_, fun decl hmem => ?_⟩)
  · refine h.rooted.store.newFrame fun called v hv => ?_
    obtain ⟨-, rfl⟩ := Bindings.get?_single_eq_some hv
    exact hparent
  · show m.store.frames.size < (m.store.frames.push _).size
    rw [Array.size_push]
    exact Nat.lt_succ_self _
  · refine ⟨_, parent, h.reached, ⟨name, use, methods, rfl, hmem, hlookUp⟩, rfl,
      m.store.parent?_newFrame_self _, ?_⟩
    show (m.store.newFrame _).2.own? m.store.frames.size "super" = _
    rw [Store.own?_newFrame_self]
    rfl

theorem keeps_defineClass {name : Lexeme} {superclass : Option Occurrence}
    {methods : List FunctionDecl}
    (h : Visited root T seat ⟨k, .stmt (.class name superclass methods), m⟩) :
    Keeps root T (defineClass name superclass methods) m fun _ _ => True := by
  obtain ⟨hname, hmethods⟩ := h.task
  intro _ n hrun
  obtain ⟨found, m₁, hclause, hrun⟩ := bind_ok hrun
  cases superclass with
  | none =>
    cases hclause
    obtain ⟨frame, m₂, hframe, hrun⟩ := bind_ok hrun
    cases hframe
    exact keeps_bindClass hname h.rooted h.place.lt
      (fun _ hmem => .inl (hmethods.method hmem)) (fun _ hcls => by cases hcls) _ n hrun
  | some use =>
    obtain ⟨parent, rfl, hlookUp, hsame⟩ := superclassOf_ok hclause
    rw [hsame] at hrun
    -- The superclass was in a frame, and what frames have is rooted.
    obtain ⟨f, hown⟩ := Machine.own?_of_lookUp hlookUp
    have hparent : parent.Rooted root T m.store := h.rooted.store.vars f _ _ hown
    refine (?_ : Keeps root T _ m fun _ _ => True) _ n hrun
    refine (keeps_methodFrame h hlookUp hparent).bind fun frame n' _ hon hn' ⟨hlt, hinherits⟩ => ?_
    refine keeps_bindClass hname hn' hlt
      (fun _ hmem => .inr ⟨hmethods.method hmem, hinherits _ hmem⟩) fun cls hcls => ?_
    cases hcls
    exact hparent.onward hon.store

/-! ## Statements -/

theorem Expr.optionKeeps (hcalls : CallsKeep root T k) (e : Option Expr) (hm : m.Rooted root T)
    (h : ∀ some_, e = some some_ → Visited root T seat ⟨k, .expr some_, m⟩) :
    Keeps root T (Expr.optionEval (invoke k) e) m fun v s => v.Rooted root T s := by
  cases e with
  | none => exact .pure hm trivial
  | some e => exact Expr.keeps hcalls e (h e rfl)

/-- A loop keeps everything rooted if its body does. -/
theorem keeps_whileLoop (hcalls : CallsKeep root T k) {condition : Expr} {body : Stmt}
    (hbody : ∀ {m}, Visited root T seat ⟨k, .stmt body, m⟩ →
      Keeps root T (body.exec (invoke k) k) m fun flow s => flow.Rooted root T s)
    (left : Nat) {m : Machine} (h : Visited root T seat ⟨k, .rounds condition body left, m⟩) :
    Keeps root T (whileLoop (do return (← condition.eval (invoke k)).isTruthy)
      (body.exec (invoke k) k) left) m fun flow s => flow.Rooted root T s := by
  induction left generalizing m with
  | zero => exact .throw
  | succ left ih =>
    have hasked := Expr.keeps hcalls condition (h.part .asked h.task.1)
    refine Keeps.bind (Q := fun _ _ => True)
      (hasked.bind fun v n _ _ hn _ => .pure hn trivial) fun holds m₁ hholds hon hm₁ _ => ?_
    obtain ⟨v, m₁, hcondition, hpure⟩ := bind_ok hholds
    cases hpure
    cases htruthy : v.isTruthy with
    | false => exact .pure hm₁ trivial
    | true =>
      rw [if_pos rfl]
      have hround := hbody (h.behind (.round hcondition htruthy) hon hm₁ h.task.2)
      refine hround.bind fun flow m₂ hflow hon' hm₂ hrooted => ?_
      cases flow with
      | normal =>
        exact ih (h.behind (.again hcondition htruthy hflow) (hon.trans hon') hm₂ h.task)
      | broken => exact .pure hm₂ trivial
      | returned v => exact .pure hm₂ hrooted

/-- The body of a block is visited, one frame and one seat further in. -/
theorem Point.Visited.block {body : List Stmt}
    (h : Visited root T seat ⟨k, .stmt (.block body), m⟩) :
    Visited root T (Seat.inner seat) ⟨k, .stmts body, m.inBlock⟩ := by
  refine ⟨h.reached.tail .block, ⟨h.rooted.table, ?_⟩, ?_, h.task⟩
  · exact h.rooted.store.newFrame fun _ _ hv => by cases hv
  · exact Machine.At.newFrame rfl (h.place.seated.newFrame _) m.depth

mutual

/-- A statement at a visited point keeps everything rooted. -/
theorem Stmt.keeps (hcalls : CallsKeep root T k) (s : Stmt) {m : Machine} {seat : Option Seat}
    (h : Visited root T seat ⟨k, .stmt s, m⟩) :
    Keeps root T (s.exec (invoke k) k) m fun flow s => flow.Rooted root T s := by
  match s with
  | .expression value =>
    have hvalue := Expr.keeps hcalls value (h.part .expression h.task)
    exact hvalue.bind fun _ n _ _ hn _ => .pure hn trivial
  | .print value =>
    refine (Expr.keeps hcalls value (h.part .print h.task)).bind fun v n _ _ hn _ => ?_
    exact (keeps_print v hn).bind fun _ n' _ _ hn' _ => .pure hn' trivial
  | .var name initializer =>
    have hvalue := Expr.optionKeeps hcalls initializer h.rooted fun e he => by
      subst he
      exact h.part .var h.task.2
    refine hvalue.bind fun v n _ _ hn hv => ?_
    refine (keeps_define h.task.1 hn (hv.onward (n.store.steady_define n.env h.task.1 v))).bind
      fun _ n' _ _ hn' _ => .pure hn' trivial
  | .block body =>
    have hframe : m.store.Steady (m.store.child m.env).2 := m.store.steady_newFrame _
    refine .get (Keeps.bind (Q := fun _ _ => True)
      (.make h.rooted hframe (h.rooted.store.newFrame nofun) trivial) fun frame n hmade _ _ _ => ?_)
    cases hmade
    exact .withFrame (Stmt.listKeeps hcalls body h.block)
  | .ifElse condition yes none =>
    have hcondition := Expr.keeps hcalls condition (h.part .condition h.task.1)
    refine hcondition.bind fun v n hrun hon hn _ => ?_
    cases htruthy : v.isTruthy with
    | true => exact Stmt.keeps hcalls yes (h.behind (.yes hrun htruthy) hon hn h.task.2)
    | false => exact .pure hn trivial
  | .ifElse condition yes (some no) =>
    obtain ⟨hasked, hyes, hno⟩ := h.task
    refine (Expr.keeps hcalls condition (h.part .condition hasked)).bind fun v n hrun hon hn _ => ?_
    cases htruthy : v.isTruthy with
    | true => exact Stmt.keeps hcalls yes (h.behind (.yes hrun htruthy) hon hn hyes)
    | false => exact Stmt.keeps hcalls no (h.behind (.no hrun htruthy) hon hn hno)
  | .while condition body =>
    exact keeps_whileLoop hcalls (fun hbody => Stmt.keeps hcalls body hbody) k
      (h.part .loop h.task)
  | .break keyword => exact .pure h.rooted trivial
  | .function decl =>
    exact (keeps_defineFunction h.rooted h.place h.task.1 h.task.2).bind
      fun _ n _ _ hn _ => .pure hn trivial
  | .return keyword value =>
    have hvalue := Expr.optionKeeps hcalls value h.rooted fun e he => by
      subst he
      exact h.part .return h.task
    exact hvalue.bind fun v n _ _ hn hv => .pure hn hv
  | .class name superclass methods =>
    exact (keeps_defineClass h).bind fun _ n _ _ hn _ => .pure hn trivial

theorem Stmt.listKeeps (hcalls : CallsKeep root T k) (ss : List Stmt) {m : Machine}
    {seat : Option Seat} (h : Visited root T seat ⟨k, .stmts ss, m⟩) :
    Keeps root T (Stmt.listExec (invoke k) k ss) m fun flow s => flow.Rooted root T s := by
  match ss with
  | [] => exact .pure h.rooted trivial
  | s :: ss =>
    have hfirst := Stmt.keeps hcalls s (h.part .statement h.task.1)
    refine hfirst.bind fun flow n hrun hon hn hflow => ?_
    cases flow with
    | normal => exact Stmt.listKeeps hcalls ss (h.behind (.statements hrun) hon hn h.task.2)
    | broken => exact .pure hn trivial
    | returned v => exact .pure hn hflow

end

/-! ## Calls -/

theorem FunctionDecl.Anchored.body {decl : FunctionDecl} (h : decl.Anchored T seat) :
    Stmt.ListAnchored T seat decl.body := by
  cases decl
  exact h.2

/-- Parameters are no `this`. -/
theorem FunctionDecl.Anchored.bare {decl : FunctionDecl} (h : decl.Anchored T seat)
    (vs : List Value) : (parameterVars decl.parameters vs).get? "this" = none := by
  cases hthis : (parameterVars decl.parameters vs).get? "this" with
  | none => rfl
  | some v =>
    obtain ⟨⟨p, hp, hname⟩, -⟩ := parameterVars_get? hthis
    cases decl
    exact absurd hname (h.1 p hp).1

/-- The body of a function that can be called is visited in its frame: that of a local
    function one seat further in than the function, that of a method at the seat of the
    method. -/
theorem Closure.Callable.enter {closure : Closure} (h : closure.Callable root T m.store)
    (hm : m.Rooted root T) {vs : List Value} (hvs : ∀ v ∈ vs, v.Rooted root T m.store)
    {call : Point} (htask : ∃ f vs, call.task = .call f vs) (hreached : root.Reaches call)
    (hstep : call.Step ⟨k, .stmts closure.decl.body, m.enter closure vs⟩) :
    ∃ seat, Visited root T seat ⟨k, .stmts closure.decl.body, m.enter closure vs⟩ := by
  have hrooted : (m.enter closure vs).Rooted root T :=
    ⟨hm.table, hm.store.newFrame fun name v hv => hvs v (parameterVars_get? hv).2⟩
  have visit {seat : Option Seat} (hdecl : closure.decl.Anchored T seat)
      (hseated : (m.enter closure vs).store.Seated root m.store.frames.size seat) :
      Visited root T seat ⟨k, .stmts closure.decl.body, m.enter closure vs⟩ :=
    ⟨hreached.tail hstep, hrooted, .newFrame (hdecl.bare vs) hseated _, hdecl.body⟩
  have hsteady := m.store.steady_newFrame
    ⟨parameterVars closure.decl.parameters vs, some closure.frame⟩
  have haround : (m.enter closure vs).store.parent? m.store.frames.size = some closure.frame :=
    m.store.parent?_newFrame_self _
  rcases h with ⟨-, -, -, seat, hseated, hdecl⟩ | ⟨i, hthis, p, g, -, -, hclosed, hmethod⟩
  · exact ⟨_, visit hdecl (hseated.newFrame _)⟩
  · have hthis' : (m.enter closure vs).store.own? closure.frame "this" = some (.instance i) :=
      hsteady.own_this hthis
    rcases hmethod.anchored with hdecl | ⟨hdecl, hinherits⟩
    · -- The method is of a class without a superclass, where no `super` stands.
      exact ⟨none, visit hdecl nofun⟩
    · refine ⟨_, visit hdecl ?_⟩
      rintro _ ⟨⟩
      have hnamed : (m.enter closure vs).store.namedAt? m.store.frames.size 1 "this" =
          some (.instance i) := by
        rw [Store.namedAt?, Store.ancestor?_succ rfl haround]
        exact hthis'
      exact ⟨m.store.frames.size, closure.decl, rfl, rfl, call, i, closure.frame, g, hreached,
        ⟨htask, _, hstep, rfl, rfl, hnamed⟩, haround, hthis', hsteady.parent? hclosed,
        hinherits.onward hsteady⟩

/-- A call of a function that can be called keeps everything rooted. -/
theorem keeps_callClosure (hcalls : CallsKeep root T k) {closure : Closure} (paren : Lexeme)
    (hclosure : closure.Callable root T m.store) (hm : m.Rooted root T) {vs : List Value}
    (hvs : ∀ v ∈ vs, v.Rooted root T m.store) {call : Point}
    (htask : ∃ f vs, call.task = .call f vs) (hreached : root.Reaches call)
    (hstep : m.depth < maxDepth → call.Step ⟨k, .stmts closure.decl.body, m.enter closure vs⟩) :
    Keeps root T (callClosure (Stmt.listExec (invoke k) k) closure paren vs) m
      fun v s => v.Rooted root T s := by
  unfold callClosure
  refine .get ?_
  by_cases hdeep : maxDepth ≤ m.depth
  · rw [if_pos hdeep]
    exact .fail
  · rw [if_neg hdeep]
    obtain ⟨seat, hbody⟩ := hclosure.enter hm hvs htask hreached (hstep (Nat.not_le.mp hdeep))
    refine Keeps.bind (Q := fun _ _ => True)
      (.make hm (m.store.steady_newFrame _) hbody.rooted.store trivial)
      fun frame n hmade _ _ _ => ?_
    cases hmade
    refine (Keeps.deeper (.withFrame (Stmt.listKeeps hcalls _ hbody))).bind
      fun flow n' _ _ hn' hflow => ?_
    split
    · refine .inspect hn' ?_
      cases hthis : n'.store.own? closure.frame "this" with
      | none => trivial
      | some v => exact hn'.store.vars _ _ v hthis
    · refine .pure hn' ?_
      cases flow with
      | returned v => exact hflow
      | _ => trivial

/-- The initializer of a new instance is bound to it, and all is rooted. -/
theorem Machine.Rooted.receive {n : Machine} (hm : m.Rooted root T) {cls : Class}
    (hcls : cls.Rooted root T m.store) {vs : List Value}
    (hreached : root.Reaches ⟨k, .call (.class cls) vs, m⟩) {init closure : Closure}
    (hinit : cls.findMethod "init" = some init) (hreceive : m.receive cls init = (closure, n)) :
    m.Steady n ∧ n.Rooted root T ∧ closure.Bound root T n.store m.store.instances.size := by
  cases hreceive
  have hborn : m.store.Steady (m.store.newInstance cls).2 := Store.steady_of_frames rfl
  have hmethod := (hcls "init" init hinit).2.onward hborn
  exact ⟨⟨rfl, rfl, hborn.trans ((m.store.newInstance cls).2.steady_newFrame _)⟩,
    ⟨hm.table, (hm.store.newInstance hcls).bindMethod init _⟩,
    hmethod.bind hreached (.construction hinit)⟩

/-- Calls that come up from the root keep everything rooted. -/
theorem callsKeep (root : Point) (T : Table) (k : Nat) : CallsKeep root T k := by
  induction k with
  | zero => exact fun _ _ _ _ _ _ => .throw
  | succ k ih =>
    intro f vs paren m seat h
    obtain ⟨hf, hvs⟩ := h.task
    have hcounted {expected : Nat} : Keeps root T (checkArity paren expected vs.length) m
        fun _ _ => expected = vs.length :=
      .constant (checkArity_constant paren expected vs.length) h.rooted fun _ heq => heq
    cases f with
    | native name => exact hcounted.bind fun _ n _ _ hn _ => keeps_readClock hn
    | function closure stamp =>
      refine hcounted.bind fun _ n hchecked _ _ harity => ?_
      obtain ⟨-, rfl⟩ := checkArity_ok hchecked
      exact keeps_callClosure ih paren hf h.rooted hvs ⟨_, _, rfl⟩ h.reached
        fun hdepth => .function harity hdepth
    | «class» cls =>
      refine hcounted.bind fun _ n hchecked _ _ harity => ?_
      obtain ⟨-, rfl⟩ := checkArity_ok hchecked
      intro v n' hrun
      cases hinit : cls.findMethod "init" with
      | none =>
        rw [instantiate_of_none _ hinit] at hrun
        cases hrun
        have hborn : n.store.Steady (n.store.newInstance cls).2 := Store.steady_of_frames rfl
        exact ⟨⟨rfl, rfl, hborn⟩, ⟨h.rooted.table, h.rooted.store.newInstance hf⟩, trivial⟩
      | some init =>
        rw [instantiate_of_some _ hinit] at hrun
        obtain ⟨hon, hreceived, hbound⟩ := h.rooted.receive hf h.reached hinit rfl
        have hcalled := keeps_callClosure ih paren (.inr ⟨_, hbound⟩) hreceived
          (fun v hv => (hvs v hv).onward hon.store) ⟨_, _, rfl⟩ h.reached (.receive hinit harity)
        obtain ⟨w, _, hinside, hyield⟩ := bind_ok hrun
        cases hyield
        obtain ⟨hon', hn', -⟩ := hcalled w _ hinside
        exact ⟨hon.trans hon', hn', trivial⟩
    | _ => exact .fail

/-! ## Steps -/

/-- What comes up in a visited point is visited: the parts of a task at its seat, the
    body of a block one seat further in, that of a function at a seat of its own. -/
theorem Point.Visited.step {p q : Point} (h : Visited root T seat p) (hstep : p.Step q) :
    ∃ seat, Visited root T seat q := by
  have hcalls (k : Nat) : CallsKeep root T k := callsKeep root T k
  have after {k : Nat} {e : Expr} {m m' : Machine} {v : Value}
      (hv : Visited root T seat ⟨k, .expr e, m⟩) (hrun : e.eval (invoke k) m = .ok v m') :
      m.Steady m' ∧ m'.Rooted root T ∧ v.Rooted root T m'.store :=
    Expr.keeps (hcalls k) e hv v m' hrun
  cases hstep with
  | grouping => exact ⟨seat, h.part .grouping h.task⟩
  | operand => exact ⟨seat, h.part .operand h.task⟩
  | left => exact ⟨seat, h.part .left h.task.1⟩
  | right hrun =>
    obtain ⟨hon, hn, -⟩ := after (h.part .left h.task.1) hrun
    exact ⟨seat, h.behind (.right hrun) hon hn h.task.2⟩
  | first => exact ⟨seat, h.part .first h.task.1⟩
  | second hrun hdecided =>
    obtain ⟨hon, hn, -⟩ := after (h.part .first h.task.1) hrun
    exact ⟨seat, h.behind (.second hrun hdecided) hon hn h.task.2⟩
  | name => exact ⟨seat, h.part .name trivial⟩
  | assigned => exact ⟨seat, h.part .assigned h.task.2⟩
  | target hrun =>
    obtain ⟨hon, hn, -⟩ := after (h.part .assigned h.task.2) hrun
    exact ⟨seat, h.behind (.target hrun) hon hn trivial⟩
  | callee => exact ⟨seat, h.part .callee h.task.1⟩
  | arguments hrun =>
    obtain ⟨hon, hn, -⟩ := after (h.part .callee h.task.1) hrun
    exact ⟨seat, h.behind (.arguments hrun) hon hn h.task.2⟩
  | called hrun hrun' =>
    obtain ⟨hon, hn, hf⟩ := after (h.part .callee h.task.1) hrun
    have harguments := h.behind (.arguments hrun) hon hn h.task.2
    obtain ⟨hon', hn', hvs⟩ := Expr.listKeeps (hcalls _) _ harguments _ _ hrun'
    exact ⟨seat, h.behind (.called hrun hrun') (hon.trans hon') hn'
      ⟨hf.onward hon'.store, hvs⟩⟩
  | object => exact ⟨seat, h.part .object h.task⟩
  | holder => exact ⟨seat, h.part .holder h.task.1⟩
  | stored hrun =>
    obtain ⟨hon, hn, -⟩ := after (h.part .holder h.task.1) hrun
    exact ⟨seat, h.behind (.stored hrun) hon hn h.task.2⟩
  | this => exact ⟨seat, h.part .this trivial⟩
  | super => exact ⟨seat, h.part .super trivial⟩
  | head => exact ⟨seat, h.part .head h.task.1⟩
  | tail hrun =>
    obtain ⟨hon, hn, -⟩ := after (h.part .head h.task.1) hrun
    exact ⟨seat, h.behind (.tail hrun) hon hn h.task.2⟩
  | function harity hdepth =>
    exact Closure.Callable.enter h.task.1 h.rooted h.task.2 ⟨_, _, rfl⟩ h.reached
      (.function harity hdepth)
  | initializer hinit hreceive harity hdepth =>
    obtain ⟨hon, hn, hbound⟩ := h.rooted.receive h.task.1 h.reached hinit hreceive
    have hcallable : Closure.Callable root T _ _ := .inr ⟨_, hbound⟩
    exact hcallable.enter hn (fun v hv => (h.task.2 v hv).onward hon.store) ⟨_, _, rfl⟩ h.reached
      (.initializer hinit hreceive harity hdepth)
  | expression => exact ⟨seat, h.part .expression h.task⟩
  | print => exact ⟨seat, h.part .print h.task⟩
  | var => exact ⟨seat, h.part .var h.task.2⟩
  | block => exact ⟨_, h.block⟩
  | @condition _ _ _ _ no => cases no <;> exact ⟨seat, h.part .condition h.task.1⟩
  | @yes _ _ condition yes no _ _ hrun htruthy =>
    have hparts : condition.Anchored T seat ∧ yes.Anchored T seat := by
      cases no with
      | none => exact h.task
      | some no => exact ⟨h.task.1, h.task.2.1⟩
    obtain ⟨hon, hn, -⟩ := after (h.part .condition hparts.1) hrun
    exact ⟨seat, h.behind (.yes hrun htruthy) hon hn hparts.2⟩
  | no hrun htruthy =>
    obtain ⟨hon, hn, -⟩ := after (h.part .condition h.task.1) hrun
    exact ⟨seat, h.behind (.no hrun htruthy) hon hn h.task.2.2⟩
  | loop => exact ⟨seat, h.part .loop h.task⟩
  | «return» => exact ⟨seat, h.part .return h.task⟩
  | superclass => exact ⟨seat, h.part .superclass trivial⟩
  | statement => exact ⟨seat, h.part .statement h.task.1⟩
  | statements hrun =>
    have hfirst := h.part .statement h.task.1
    obtain ⟨hon, hn, -⟩ := Stmt.keeps (hcalls _) _ hfirst _ _ hrun
    exact ⟨seat, h.behind (.statements hrun) hon hn h.task.2⟩
  | asked => exact ⟨seat, h.part .asked h.task.1⟩
  | round hrun htruthy =>
    obtain ⟨hon, hn, -⟩ := after (h.part .asked h.task.1) hrun
    exact ⟨seat, h.behind (.round hrun htruthy) hon hn h.task.2⟩
  | again hrun htruthy hround =>
    obtain ⟨hon, hn, -⟩ := after (h.part .asked h.task.1) hrun
    have hbody := h.behind (.round hrun htruthy) hon hn h.task.2
    obtain ⟨hon', hn', -⟩ := Stmt.keeps (hcalls _) _ hbody _ _ hround
    exact ⟨seat, h.behind (.again hrun htruthy hround) (hon.trans hon') hn' h.task⟩

/-- Every point that comes up from a visited one is visited. -/
theorem Point.Visited.reaches {p q : Point} (h : Visited root T seat p) (hreaches : p.Reaches q) :
    ∃ seat, Visited root T seat q := by
  induction hreaches with
  | refl => exact ⟨seat, h⟩
  | tail _ hstep ih =>
    obtain ⟨seat', h'⟩ := ih
    exact h'.step hstep

/-! ## Programs -/

/-- The run of a program on a new machine. -/
def Point.start (out : Sink) (clock : Nat → Option Float) (fuel : Nat) (program : List Stmt)
    (A : Table) : Point :=
  ⟨fuel, .stmts program, { Machine.start out clock with table := A }⟩

/-- A new machine has nothing that could not be rooted, and is at no seat. -/
theorem Point.visited_start (out : Sink) (clock : Nat → Option Float) (fuel : Nat)
    {program : List Stmt} {A : Table} (h : Stmt.ListAnchored A none program) :
    Visited (.start out clock fuel program A) A none (.start out clock fuel program A) := by
  refine ⟨.refl, ⟨rfl, ⟨fun f name v hv => ?_, fun i name v hv => ?_, fun i name method hm => ?_⟩⟩,
    ⟨?_, ?_, nofun⟩, h⟩
  · rw [@Machine.own?_start out clock f name v hv]
    trivial
  · cases hv
  · cases hm
  · show 0 < (Machine.start out clock).store.frames.size
    exact Nat.zero_lt_one
  · rfl

/-- Every point of the run of an accepted program is visited. -/
theorem Point.visited_of_accepted {source : String} {program : List Stmt} {A : Table}
    (h : Mode.check parseProgram resolveProgram source = .ok (program, A)) (out : Sink)
    (clock : Nat → Option Float) (fuel : Nat) {p : Point}
    (hreaches : (Point.start out clock fuel program A).Reaches p) :
    ∃ seat, Visited (.start out clock fuel program A) A seat p := by
  obtain ⟨-, hparsed, hresolved⟩ := Mode.check_eq_ok.mp h
  obtain ⟨hproper, hfresh⟩ := parseProgram_fresh hparsed
  have hanchored := resolveProgram_anchored hresolved hproper hfresh
  exact (Point.visited_start out clock fuel hanchored).reaches hreaches

end Lox
