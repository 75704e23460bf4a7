/-
  Lox.Proofs.Properties.Origins

  Every class of a run was made where it is declared.

    * `Point.Ready` — a point that comes up from the root, where all classes are declared;
    * `Point.Ready.step` — what comes up in such a point is such a point, if the parts before
      keep it so;
    * `Point.Ready.kept_of_parts` — the point keeps it so if its parts do;
    * `Point.Ready.reaches` — by induction on points, all points that come up are such.
-/
import Lox.Proofs.Properties.Declared
import Lox.Proofs.Scoping.Parts

namespace Lox

open RunM
open RunM (KeepsDeclared)

variable {root p q : Point} {m n : Machine}

/-! ## Points -/

section

variable (root : Point)

/-- The values of a task are declared. -/
def Task.Declared : Task → Prop
  | .call f vs => f.Declared root ∧ ∀ v ∈ vs, v.Declared root
  | _ => True

/-- The point comes up from the root, and all its classes are declared. -/
structure Point.Ready (p : Point) : Prop where
  reached : root.Reaches p
  store : p.machine.store.Declared root
  task : p.task.Declared root

/-- What is to be done at the point leaves declared classes only, and yields no others. -/
def Point.Kept (p : Point) : Prop :=
  match p.task with
  | .expr e => KeepsDeclared root (e.eval (invoke p.bound)) p.machine (Value.Declared root)
  | .exprs es =>
    KeepsDeclared root (Expr.listEval (invoke p.bound) es) p.machine
      fun vs => ∀ v ∈ vs, v.Declared root
  | .stmt s => KeepsDeclared root (s.exec (invoke p.bound) p.bound) p.machine (Flow.Declared root)
  | .stmts ss =>
    KeepsDeclared root (Stmt.listExec (invoke p.bound) p.bound ss) p.machine (Flow.Declared root)
  | .rounds condition body left =>
    KeepsDeclared root (whileLoop (do return (← condition.eval (invoke p.bound)).isTruthy)
      (body.exec (invoke p.bound) p.bound) left) p.machine (Flow.Declared root)
  | .call f vs =>
    ∀ paren, KeepsDeclared root (invoke p.bound f paren vs) p.machine (Value.Declared root)
  | .look _ => True

end

/-- What a call begins with is declared if the call is. -/
theorem Store.Declared.enter {closure : Closure} {vs : List Value} (hm : m.store.Declared root)
    (hvs : ∀ v ∈ vs, v.Declared root) : (m.enter closure vs).store.Declared root :=
  hm.newFrame fun _ v hv => hvs v (parameterVars_get? hv).2

theorem Store.Declared.receive {cls : Class} (init : Closure) (hm : m.store.Declared root)
    (hcls : cls.Declared root) : (m.receive cls init).2.store.Declared root :=
  (hm.newInstance hcls).bindMethod init _

/-- What comes up in a point is ready, if the parts before keep it so. -/
theorem Point.Ready.step (hp : Ready root p)
    (hparts : ∀ q, p.Step q → Ready root q → Kept root q) (h : p.Step q) : Ready root q := by
  have hreached := hp.reached.tail h
  obtain ⟨hfrom, hm, htask⟩ := hp
  have first {k : Nat} {e : Expr} {v : Value} {n : Machine} (hstep : p.Step ⟨k, .expr e, p.machine⟩)
      (hrun : e.eval (invoke k) p.machine = .ok v n) :
      n.store.Declared root ∧ v.Declared root :=
    hparts _ hstep ⟨hfrom.tail hstep, hm, trivial⟩ v n hrun
  cases h with
  | right hleft => exact ⟨hreached, (first .left hleft).1, trivial⟩
  | second hleft _ => exact ⟨hreached, (first .first hleft).1, trivial⟩
  | target hvalue => exact ⟨hreached, (first .assigned hvalue).1, trivial⟩
  | arguments hcallee => exact ⟨hreached, (first .callee hcallee).1, trivial⟩
  | called hcallee harguments =>
    obtain ⟨hm', hf⟩ := first .callee hcallee
    have hlisted := hparts _ (.arguments hcallee) ⟨hfrom.tail (.arguments hcallee), hm', trivial⟩
    obtain ⟨hm'', hvs⟩ := hlisted _ _ harguments
    exact ⟨hreached, hm'', hf, hvs⟩
  | stored hobject => exact ⟨hreached, (first .holder hobject).1, trivial⟩
  | tail hhead => exact ⟨hreached, (first .head hhead).1, trivial⟩
  | function _ _ => exact ⟨hreached, hm.enter htask.2, trivial⟩
  | initializer _ hreceive _ _ =>
    cases hreceive
    exact ⟨hreached, (hm.receive _ htask.1).enter htask.2, trivial⟩
  | block =>
    refine ⟨hreached, hm.newFrame fun name v hv => ?_, trivial⟩
    cases hv
  | yes hcondition _ => exact ⟨hreached, (first .condition hcondition).1, trivial⟩
  | no hcondition _ => exact ⟨hreached, (first .condition hcondition).1, trivial⟩
  | statements hfirst =>
    have hkept := hparts _ .statement ⟨hfrom.tail .statement, hm, trivial⟩
    exact ⟨hreached, (hkept _ _ hfirst).1, trivial⟩
  | round hcondition _ => exact ⟨hreached, (first .asked hcondition).1, trivial⟩
  | again hcondition htruthy hround =>
    have hbody := hparts _ (.round hcondition htruthy)
      ⟨hfrom.tail (.round hcondition htruthy), (first .asked hcondition).1, trivial⟩
    exact ⟨hreached, (hbody _ _ hround).1, trivial⟩
  | _ => exact ⟨hreached, hm, trivial⟩

/-- The parts of an expression keep all classes declared, and so does the expression. -/
theorem Expr.kept {k : Nat} (e : Expr) (hp : Point.Ready root ⟨k, .expr e, m⟩)
    (hparts : ∀ q, Point.Step ⟨k, .expr e, m⟩ q → Point.Kept root q) :
    Point.Kept root ⟨k, .expr e, m⟩ := by
  obtain ⟨-, hm, -⟩ := hp
  cases e with
  | literal value => exact .pure hm (Value.free_ofLiteral value).declared
  | grouping inner => exact hparts ⟨k, .expr inner, m⟩ .grouping
  | unary op sign operand =>
    refine RunM.KeepsDeclared.bind (hparts _ .operand) fun v n _ hn _ => ?_
    exact .constant (op.unary_constant sign v) hn fun _ hv => hv.declared
  | binary op sign left right =>
    refine RunM.KeepsDeclared.bind (hparts _ .left) fun a n hleft _ _ => ?_
    refine RunM.KeepsDeclared.bind (hparts _ (.right hleft)) fun b n' _ hn' _ => ?_
    exact .constant (op.binary_constant sign a b) hn' fun _ hv => hv.declared
  | logical op sign left right =>
    refine RunM.KeepsDeclared.bind (hparts _ .first) fun a n hleft hn ha => ?_
    cases hdecided : op.decidedBy a with
    | true => exact .pure hn ha
    | false => exact hparts _ (.second hleft hdecided)
  | name use => exact .read use hm
  | assign target value =>
    refine RunM.KeepsDeclared.bind (hparts _ .assigned) fun v n _ hn hv => ?_
    exact (RunM.KeepsDeclared.write target hn hv).bind fun _ n' _ hn' _ => .pure hn' hv
  | call callee paren arguments =>
    refine RunM.KeepsDeclared.bind (hparts _ .callee) fun f n hcallee _ _ => ?_
    refine RunM.KeepsDeclared.bind (hparts _ (.arguments hcallee)) fun vs n' harguments _ _ => ?_
    exact hparts _ (.called hcallee harguments) paren
  | get object property =>
    refine RunM.KeepsDeclared.bind (hparts _ .object) fun o n _ hn _ => ?_
    refine RunM.KeepsDeclared.bind (.constant (asInstance_constant _ _ o) hn fun i hi => hi)
      fun i n' _ hn' _ => ?_
    exact .readProperty i property hn'
  | set object property value =>
    refine RunM.KeepsDeclared.bind (hparts _ .holder) fun o n hobject hn _ => ?_
    refine RunM.KeepsDeclared.bind (.constant (asInstance_constant _ _ o) hn fun i hi => hi)
      fun i n' hheld _ _ => ?_
    obtain ⟨rfl, rfl⟩ := asInstance_ok hheld
    refine RunM.KeepsDeclared.bind (hparts _ (.stored hobject)) fun v n'' _ hn'' hv => ?_
    have hset : KeepsDeclared root (change (·.setField i property.text v)) n'' fun _ => True := by
      rintro _ _ ⟨⟩
      exact ⟨hn''.setField hv, trivial⟩
    exact hset.bind fun _ l _ hl _ => .pure hl hv
  | this keyword => exact .read keyword hm
  | super keyword method => exact .superMethod keyword method hm

/-- So it is with statements. -/
theorem Stmt.kept {k : Nat} (s : Stmt) (hp : Point.Ready root ⟨k, .stmt s, m⟩)
    (hparts : ∀ q, Point.Step ⟨k, .stmt s, m⟩ q → Point.Kept root q) :
    Point.Kept root ⟨k, .stmt s, m⟩ := by
  obtain ⟨hreached, hm, -⟩ := hp
  match s with
  | .expression value =>
    exact RunM.KeepsDeclared.bind (hparts _ .expression) fun _ n _ hn _ => .pure hn trivial
  | .print value =>
    refine RunM.KeepsDeclared.bind (hparts _ .print) fun v n _ hn _ => ?_
    exact (RunM.KeepsDeclared.print v hn).bind fun _ n' _ hn' _ => .pure hn' trivial
  | .var name none =>
    have hnil : Value.Declared root .nil := trivial
    exact (RunM.KeepsDeclared.define name.text hm hnil).bind fun _ n _ hn _ => .pure hn trivial
  | .var name (some value) =>
    refine RunM.KeepsDeclared.bind (hparts _ .var) fun v n _ hn hv => ?_
    exact (RunM.KeepsDeclared.define name.text hn hv).bind fun _ n' _ hn' _ => .pure hn' trivial
  | .block body => exact .withFrame (hparts _ .block)
  | .ifElse condition yes none =>
    refine RunM.KeepsDeclared.bind (hparts _ .condition) fun v n hcondition hn _ => ?_
    cases htruthy : v.isTruthy with
    | true => exact hparts _ (.yes hcondition htruthy)
    | false => exact .pure hn trivial
  | .ifElse condition yes (some no) =>
    refine RunM.KeepsDeclared.bind (hparts _ .condition) fun v n hcondition _ _ => ?_
    cases htruthy : v.isTruthy with
    | true => exact hparts _ (.yes hcondition htruthy)
    | false => exact hparts _ (.no hcondition htruthy)
  | .while condition body => exact hparts ⟨k, .rounds condition body k, m⟩ .loop
  | .break keyword => exact .pure hm trivial
  | .function decl =>
    exact (RunM.KeepsDeclared.defineFunction decl hm).bind fun _ n _ hn _ => .pure hn trivial
  | .return keyword none => exact .pure hm trivial
  | .return keyword (some value) =>
    exact RunM.KeepsDeclared.bind (hparts _ .return) fun v n _ hn hv => .pure hn hv
  | .class name superclass methods =>
    exact (keepsDeclared_defineClass hreached hm).bind fun _ n _ hn _ => .pure hn trivial

/-- A call of a closure keeps all classes declared if its body does. -/
theorem keepsDeclared_callClosure {k : Nat} {closure : Closure} {vs : List Value} (paren : Lexeme)
    (hbody : m.depth < maxDepth →
      Point.Kept root ⟨k, .stmts closure.decl.body, m.enter closure vs⟩) :
    KeepsDeclared root (callClosure (Stmt.listExec (invoke k) k) closure paren vs) m
      (Value.Declared root) := by
  unfold callClosure
  refine .get ?_
  by_cases hdeep : maxDepth ≤ m.depth
  · rw [if_pos hdeep]
    exact .throw
  · rw [if_neg hdeep]
    have hinside := hbody (Nat.not_le.mp hdeep)
    have hcall : KeepsDeclared root (deeper (withFrame m.store.frames.size
        (Stmt.listExec (invoke k) k closure.decl.body)))
        { m with store := (m.enter closure vs).store } (Flow.Declared root) :=
      .deeper (.withFrame hinside)
    intro v n hrun
    obtain ⟨frame, m₁, hmade, hrest⟩ := bind_ok hrun
    cases hmade
    refine hcall.bind (fun flow n _ hn hflow => ?_) v n hrest
    split
    · rintro _ _ ⟨⟩
      refine ⟨hn, ?_⟩
      show Value.Declared root ((n.store.own? closure.frame "this").getD .nil)
      cases hthis : n.store.own? closure.frame "this" with
      | none => trivial
      | some v => exact hn.values.vars _ _ v hthis
    · refine .pure hn ?_
      cases flow with
      | returned v => exact hflow
      | _ => trivial

/-- So it is with calls: a class makes an instance and calls its initializer. -/
theorem Value.kept {k : Nat} {f : Value} {vs : List Value}
    (hp : Point.Ready root ⟨k + 1, .call f vs, m⟩)
    (hparts : ∀ q, Point.Step ⟨k + 1, .call f vs, m⟩ q → Point.Kept root q) :
    Point.Kept root ⟨k + 1, .call f vs, m⟩ := by
  obtain ⟨-, hm, hf, -⟩ := hp
  intro paren
  have counted {expected : Nat} {x : RunM Value}
      (h : expected = vs.length → KeepsDeclared root x m (Value.Declared root)) :
      KeepsDeclared root (checkArity paren expected vs.length >>= fun _ => x) m
        (Value.Declared root) := by
    intro v n hrun
    obtain ⟨_, m₁, hchecked, hrest⟩ := bind_ok hrun
    obtain ⟨harity, rfl⟩ := checkArity_ok hchecked
    exact h harity v n hrest
  cases f with
  | native name => exact counted fun _ => .readClock hm
  | function closure stamp =>
    exact counted fun harity => keepsDeclared_callClosure paren fun hdepth =>
      hparts _ (.function harity hdepth)
  | «class» cls =>
    refine counted fun harity v n hrun => ?_
    cases hinit : cls.findMethod "init" with
    | none =>
      rw [instantiate_of_none _ hinit] at hrun
      cases hrun
      exact ⟨hm.newInstance hf, trivial⟩
    | some init =>
      rw [instantiate_of_some _ hinit] at hrun
      obtain ⟨w, n', hcalled, hyield⟩ := bind_ok hrun
      cases hyield
      have hinside : KeepsDeclared root (callClosure (Stmt.listExec (invoke k) k)
          (m.receive cls init).1 paren vs) (m.receive cls init).2 (Value.Declared root) :=
        keepsDeclared_callClosure paren fun hdepth => hparts _ (.receive hinit harity hdepth)
      exact ⟨(hinside w n hcalled).1, trivial⟩
  | _ => exact .throw

/-- What is to be done at a point that is ready is kept if its parts are. -/
theorem Point.Ready.kept_of_parts (hp : Ready root p) (hparts : ∀ q, p.Step q → Kept root q) :
    Kept root p := by
  match p with
  | ⟨k, .expr e, m⟩ => exact e.kept hp hparts
  | ⟨k, .exprs [], m⟩ => exact .pure hp.store (List.forall_mem_nil _)
  | ⟨k, .exprs (e :: es), m⟩ =>
    refine RunM.KeepsDeclared.bind (hparts _ .head) fun v n hhead _ hv => ?_
    refine RunM.KeepsDeclared.bind (hparts _ (.tail hhead)) fun vs n' _ hn' hvs => ?_
    exact .pure hn' (List.forall_mem_cons.mpr ⟨hv, hvs⟩)
  | ⟨k, .stmt s, m⟩ => exact s.kept hp hparts
  | ⟨k, .stmts [], m⟩ => exact .pure hp.store trivial
  | ⟨k, .stmts (s :: ss), m⟩ =>
    refine RunM.KeepsDeclared.bind (hparts _ .statement) fun flow n hfirst hn hflow => ?_
    cases flow with
    | normal => exact hparts _ (.statements hfirst)
    | broken => exact .pure hn trivial
    | returned v => exact .pure hn hflow
  | ⟨k, .rounds condition body 0, m⟩ => exact .throw
  | ⟨k, .rounds condition body (left + 1), m⟩ =>
    show KeepsDeclared root (whileLoop _ _ (left + 1)) m (Flow.Declared root)
    rw [whileLoop, bind_assoc]
    refine RunM.KeepsDeclared.bind (hparts _ .asked) fun v n hcondition hn _ => ?_
    rw [pure_bind]
    cases htruthy : v.isTruthy with
    | false => exact .pure hn trivial
    | true =>
      refine RunM.KeepsDeclared.bind (hparts _ (.round hcondition htruthy))
        fun flow n' hround hn' hflow => ?_
      cases flow with
      | normal => exact hparts _ (.again hcondition htruthy hround)
      | broken => exact .pure hn' trivial
      | returned v => exact .pure hn' hflow
  | ⟨0, .call f vs, m⟩ => exact fun _ => .throw
  | ⟨k + 1, .call f vs, m⟩ => exact Value.kept hp hparts
  | ⟨k, .look use, m⟩ => trivial

theorem Point.Ready.kept (hp : Ready root p) : Kept root p := by
  induction p using Point.induction with
  | h p ih =>
    refine hp.kept_of_parts fun q hstep => ih q hstep ?_
    exact hp.step (fun q hstep hq => ih q hstep hq) hstep

/-- What comes up in the course of a ready point is ready. -/
theorem Point.Ready.reaches (hp : Ready root p) (h : p.Reaches q) : Ready root q := by
  induction h with
  | refl => exact hp
  | tail _ hstep ih => exact ih.step (fun _ _ hq => hq.kept) hstep

/-- The beginning of a run is ready: there are no classes. -/
theorem Point.ready_start (out : Sink) (clock : Nat → Option Float) (fuel : Nat)
    (program : List Stmt) (A : Table) :
    Ready (.start out clock fuel program A) (.start out clock fuel program A) := by
  refine ⟨.refl, ⟨⟨fun f name v hv => ?_, fun i name v hv => ?_, fun _ _ _ _ => trivial⟩,
    fun i cls hcls => ?_⟩, trivial⟩
  · rw [@Machine.own?_start out clock f name v hv]
    trivial
  · cases hv
  · cases hcls

end Lox
