/-
  Lox.Proofs.Region.Running

  Programs run in the same way on machines that are the same inside a region, and
  spare what is outside.

    * `Expr.alike`, `Stmt.alike` — for trees whose code belongs to the region, given
      that calls run so;
    * `invoke_alike` — calls run so.

  The two runs may have different bounds: the first one has the smaller one.  Where the
  region does not allow a run to go out of fuel, there are no loops, and the bound on
  calls together with the depth exceeds the greatest depth.
-/
import Lox.Proofs.Region.Together

namespace Lox

open RunM

variable {G : Region} {d : Nat} {m m' : Machine} {call call' : Invoke}

theorem Code.Uses.left {C : Code} {us vs : List Use} (h : C.Uses (us ++ vs)) : C.Uses us :=
  fun use huse => h use (List.mem_append_left _ huse)

theorem Code.Uses.right {C : Code} {us vs : List Use} (h : C.Uses (us ++ vs)) : C.Uses vs :=
  fun use huse => h use (List.mem_append_right _ huse)

/-- Two ways of calling that do the same inside the region, at a depth. -/
def Invoke.Alike (G : Region) (d : Nat) (call call' : Invoke) : Prop :=
  ∀ ⦃m m' : Machine⦄ ⦃f : Value⦄ (paren : Lexeme) ⦃vs : List Value⦄,
    m.Alike G m' → m.depth = d → f.Within G → (∀ v ∈ vs, v.Within G) →
      RunM.Alike G (call f paren vs) (call' f paren vs) m m' (Value.Within G)

/-! ## Expressions -/

mutual

theorem Expr.alike (hcall : Invoke.Alike G d call call') (e : Expr) (he : G.Uses e.uses)
    {m m' : Machine} (h : m.Together G d m') :
    RunM.Alike G (e.eval call) (e.eval call') m m' (Value.Within G) := by
  cases e with
  | literal value => exact .pure h.toAlike (Value.free_ofLiteral value).within
  | grouping inner => exact Expr.alike hcall inner he h
  | unary op sign operand =>
    apply (Expr.alike hcall operand he h).bind
    intro v n n' hn _
    exact .constant (op.unary_constant sign v) hn.alike fun _ hfree => hfree.within
  | binary op sign left right =>
    apply (Expr.alike hcall left he.left h).bind
    intro a n n' hn _
    -- Behind the left operand the machines are in one frame and at one depth again.
    apply (Expr.alike hcall right he.right (h.follow hn)).bind
    intro b k k' hk _
    exact .constant (op.binary_constant sign a b) hk.alike fun _ hfree => hfree.within
  | logical op sign left right =>
    apply (Expr.alike hcall left he.left h).bind
    intro a n n' hn ha
    split
    · exact .pure hn.alike ha
    · exact Expr.alike hcall right he.right (h.follow hn)
  | name use => exact alike_read h (he _ List.mem_cons_self)
  | assign target value =>
    obtain ⟨htarget, hvalue⟩ := List.forall_mem_cons.mp he
    apply (Expr.alike hcall value hvalue h).bind
    intro v n n' hn hv
    apply (alike_write (h.follow hn) htarget hv).bind
    intro _ k k' hk _
    exact .pure hk.alike hv
  | call callee paren arguments =>
    apply (Expr.alike hcall callee he.left h).bind
    intro f n n' hn hf
    apply (Expr.listAlike hcall arguments he.right (h.follow hn)).bind
    intro vs k k' hk hvs
    exact hcall paren hk.alike ((h.follow hn).follow hk).level hf hvs
  | get object property =>
    apply (Expr.alike hcall object he h).bind
    intro v n n' hn hv
    apply (alike_asInstance property .propertyOfNonInstance hn.alike hv).bind
    intro i k k' hk hi
    exact alike_readProperty hk.alike hi property
  | set object property value =>
    apply (Expr.alike hcall object he.left h).bind
    intro o n n' hn ho
    apply (alike_asInstance property .fieldOfNonInstance hn.alike ho).bind
    intro i k k' hk hi
    apply (Expr.alike hcall value he.right ((h.follow hn).follow hk)).bind
    intro v l l' hl hv
    apply (alike_setField hl.alike hi property.text hv).bind
    intro _ j j' hj _
    exact .pure hj.alike hv
  | this keyword => exact alike_read h (he _ List.mem_cons_self)
  | super keyword method => exact alike_superMethod h (he _ List.mem_cons_self) method

theorem Expr.listAlike (hcall : Invoke.Alike G d call call') (es : List Expr)
    (hes : G.Uses (Expr.listUses es)) {m m' : Machine} (h : m.Together G d m') :
    RunM.Alike G (Expr.listEval call es) (Expr.listEval call' es) m m'
      fun vs => ∀ v ∈ vs, v.Within G := by
  cases es with
  | nil => exact .pure h.toAlike nofun
  | cons e es =>
    apply (Expr.alike hcall e hes.left h).bind
    intro v n n' hn hv
    apply (Expr.listAlike hcall es hes.right (h.follow hn)).bind
    intro vs k k' hk hvs
    exact .pure hk.alike (List.forall_mem_cons.mpr ⟨hv, hvs⟩)

end

theorem Expr.optionAlike (hcall : Invoke.Alike G d call call') (e : Option Expr)
    (he : G.Uses (Expr.optionUses e)) (h : m.Together G d m') :
    RunM.Alike G (Expr.optionEval call e) (Expr.optionEval call' e) m m' (Value.Within G) := by
  cases e with
  | none => exact .pure h.toAlike trivial
  | some e => exact Expr.alike hcall e he h

/-! ## Statements -/

def Flow.Within (G : Region) : Flow → Prop
  | .returned v => v.Within G
  | _ => True

theorem alike_whileLoop {condition condition' : RunM Bool} {body body' : RunM Flow}
    (hloops : G.loops)
    (hcondition : ∀ {n n' : Machine}, n.Together G d n' →
      RunM.Alike G condition condition' n n' fun _ => True)
    (hbody : ∀ {n n' : Machine}, n.Together G d n' →
      RunM.Alike G body body' n n' (Flow.Within G))
    {bound bound' : Nat} (hbound : bound ≤ bound') (h : m.Together G d m') :
    RunM.Alike G (whileLoop condition body bound) (whileLoop condition' body' bound') m m'
      (Flow.Within G) := by
  -- Induction on the smaller bound: the other loop has a round left where this one has.
  induction bound generalizing bound' m m' with
  | zero => exact .outOfFuel (.refl m) h.toWithin (G.bounds hloops)
  | succ bound ih =>
    obtain ⟨left, rfl⟩ : ∃ left, bound' = left + 1 := ⟨bound' - 1, by omega⟩
    apply (hcondition h).bind
    intro holds n n' hn _
    split
    · apply (hbody (h.follow hn)).bind
      intro flow k k' hk hflow
      cases flow with
      | normal => exact ih (Nat.le_of_succ_le_succ hbound) ((h.follow hn).follow hk)
      | broken => exact .pure hk.alike trivial
      | returned v => exact .pure hk.alike hflow
    · exact .pure hn.alike trivial

theorem alike_defineFunction {decl : FunctionDecl} (hdecl : G.decl decl) (h : m.Together G d m') :
    RunM.Alike G (defineFunction decl) (defineFunction decl) m m' fun _ => True := by
  refine .get ?_
  rw [h.env]
  have hclosure : Closure.Within G ⟨decl, m.env, false⟩ := ⟨h.inside, hdecl⟩
  apply (alike_functionValue h.toAlike hclosure).bind
  intro v n n' hn hv
  exact alike_define (h.follow hn) decl.name.text hv

/-- Own methods close over a frame inside, and those of the superclass are inside. -/
theorem Class.within_of_methods {methods : List FunctionDecl} (hmethods : ∀ d ∈ methods, G.decl d)
    {frame : FrameId} (hframe : G.frame frame) {parent : Option Class}
    (hparent : ∀ cls, parent = some cls → cls.Within G) (stamp : Nat) (name : String) :
    Class.Within G ⟨stamp, name, methodTable frame methods, parent⟩ := by
  intro text method hfound
  rw [Class.findMethod.eq_def] at hfound
  dsimp only at hfound
  cases hown : (methodTable frame methods).get? text with
  | some own =>
    rw [hown] at hfound
    cases hfound
    obtain ⟨hmem, hsame, -⟩ := methodTable_get? hown
    refine ⟨?_, hmethods _ hmem⟩
    rw [hsame]
    exact hframe
  | none =>
    rw [hown] at hfound
    cases parent with
    | none => cases hfound
    | some cls => exact hparent cls rfl text method hfound

theorem alike_superclassOf {superclass : Option Occurrence}
    (huse : G.Uses (superclass.map (Use.mk .read)).toList) (h : m.Together G d m') :
    RunM.Alike G (superclassOf superclass) (superclassOf superclass) m m'
      fun parent => ∀ cls, parent = some cls → cls.Within G := by
  cases superclass with
  | none => exact .pure h.toAlike nofun
  | some use =>
    apply (alike_read h (huse _ List.mem_cons_self)).bind
    intro v n n' hn hv
    split
    · next cls =>
      refine .pure hn.alike fun parent hparent => ?_
      cases hparent
      exact hv
    · exact .fail hn.alike _ _

theorem alike_methodFrame {parent : Option Class}
    (hparent : ∀ cls, parent = some cls → cls.Within G)
    (h : m.Together G d m') :
    RunM.Alike G (methodFrame parent) (methodFrame parent) m m' G.frame := by
  cases parent with
  | none =>
    refine .get ?_
    rw [h.env]
    exact .pure h.toAlike h.inside
  | some cls =>
    refine .get ?_
    rw [h.env]
    refine alike_newFrame h.toAlike ⟨fun g hg => ?_, fun name v hv => ?_⟩
    · cases hg
      exact h.inside
    · simp only [Bindings.single, Bindings.get?, Bindings.find?] at hv
      split at hv
      · cases hv
        exact hparent cls rfl
      · cases hv

theorem alike_defineClass (name : Lexeme) {superclass : Option Occurrence}
    (huse : G.Uses (superclass.map (Use.mk .read)).toList) {methods : List FunctionDecl}
    (hmethods : ∀ d ∈ methods, G.decl d) (h : m.Together G d m') :
    RunM.Alike G (defineClass name superclass methods) (defineClass name superclass methods) m m'
      fun _ => True := by
  apply (alike_superclassOf huse h).bind
  intro parent n n' hn hparent
  apply (alike_methodFrame hparent (h.follow hn)).bind
  intro frame k k' hk hframe
  apply (alike_newStamp hk.alike).bind
  intro stamp l l' hl _
  exact alike_define (((h.follow hn).follow hk).follow hl) name.text
    (Class.within_of_methods hmethods hframe hparent stamp name.text)

/-- The body of a block begins in a frame inside. -/
theorem Machine.Together.inBlock (h : m.Together G d m') {n n' : Machine}
    (hn : m.Follows G m' n n') {frame : FrameId} (hframe : G.frame frame) :
    Machine.Together G d { n with env := frame } { n' with env := frame } := by
  have hdepth : n.depth = d := hn.first.depth.trans h.level
  exact ⟨⟨⟨hn.alike.store, hn.alike.closing, hn.alike.waiting⟩, hn.alike.depth, hn.alike.clock,
    hn.alike.ticks, hn.alike.out, hn.alike.table, hn.alike.alike⟩, rfl, hframe, hdepth⟩

mutual

theorem Stmt.alike (hcall : Invoke.Alike G d call call') {bound bound' : Nat}
    (hbound : bound ≤ bound') (s : Stmt) (hs : s.Within G.toCode) {m m' : Machine}
    (h : m.Together G d m') :
    RunM.Alike G (s.exec call bound) (s.exec call' bound') m m' (Flow.Within G) := by
  match s with
  | .expression value =>
    apply (Expr.alike hcall value hs h).bind
    intro _ n n' hn _
    exact .pure hn.alike trivial
  | .print value =>
    apply (Expr.alike hcall value hs h).bind
    intro v n n' hn hv
    apply (alike_print hn.alike hv).bind
    intro _ k k' hk _
    exact .pure hk.alike trivial
  | .var name initializer =>
    apply (Expr.optionAlike hcall initializer hs h).bind
    intro v n n' hn hv
    apply (alike_define (h.follow hn) name.text hv).bind
    intro _ k k' hk _
    exact .pure hk.alike trivial
  | .block body =>
    refine .get ?_
    rw [h.env]
    have hempty : Frame.Within G ⟨.empty, some m.env⟩ := by
      refine ⟨fun g hg => ?_, nofun⟩
      cases hg
      exact h.inside
    apply (alike_newFrame h.toAlike hempty).bind
    intro frame n n' hn hframe
    exact .withFrame (Stmt.listAlike hcall hbound body hs (h.inBlock hn hframe))
  | .ifElse condition yes none =>
    apply (Expr.alike hcall condition hs.1 h).bind
    intro v n n' hn _
    split
    · exact Stmt.alike hcall hbound yes hs.2 (h.follow hn)
    · exact .pure hn.alike trivial
  | .ifElse condition yes (some no) =>
    apply (Expr.alike hcall condition hs.1 h).bind
    intro v n n' hn _
    split
    · exact Stmt.alike hcall hbound yes hs.2.1 (h.follow hn)
    · exact Stmt.alike hcall hbound no hs.2.2 (h.follow hn)
  | .while condition body =>
    refine alike_whileLoop hs.1 (fun hn => ?_) (fun hn => ?_) hbound h
    · apply (Expr.alike hcall condition hs.2.1 hn).bind
      intro _ k k' hk _
      exact .pure hk.alike trivial
    · exact Stmt.alike hcall hbound body hs.2.2 hn
  | .break keyword => exact .pure h.toAlike trivial
  | .function decl =>
    apply (alike_defineFunction hs h).bind
    intro _ n n' hn _
    exact .pure hn.alike trivial
  | .return keyword value =>
    apply (Expr.optionAlike hcall value hs h).bind
    intro v n n' hn hv
    exact .pure hn.alike hv
  | .class name superclass methods =>
    apply (alike_defineClass name hs.1 hs.2 h).bind
    intro _ n n' hn _
    exact .pure hn.alike trivial

theorem Stmt.listAlike (hcall : Invoke.Alike G d call call') {bound bound' : Nat}
    (hbound : bound ≤ bound') (ss : List Stmt) (hss : Stmt.ListWithin G.toCode ss)
    {m m' : Machine} (h : m.Together G d m') :
    RunM.Alike G (Stmt.listExec call bound ss) (Stmt.listExec call' bound' ss) m m'
      (Flow.Within G) := by
  match ss with
  | [] => exact .pure h.toAlike trivial
  | s :: ss =>
    apply (Stmt.alike hcall hbound s hss.1 h).bind
    intro flow n n' hn hflow
    cases flow with
    | normal => exact Stmt.listAlike hcall hbound ss hss.2 (h.follow hn)
    | broken => exact .pure hn.alike trivial
    | returned v => exact .pure hn.alike hflow

end

/-! ## Calls -/

theorem alike_checkArity (paren : Lexeme) (expected got : Nat) (h : m.Alike G m') :
    RunM.Alike G (checkArity paren expected got) (checkArity paren expected got) m m'
      fun _ => True :=
  .constant (checkArity_constant paren expected got) h fun _ _ => trivial

/-- The frame of a call holds the arguments, inside the frame of the closure. -/
theorem Closure.Within.callFrame {closure : Closure} (h : closure.Within G) {vs : List Value}
    (hvs : ∀ v ∈ vs, v.Within G) :
    Frame.Within G ⟨parameterVars closure.decl.parameters vs, some closure.frame⟩ := by
  refine ⟨fun g hg => ?_, fun name v hv => hvs v (parameterVars_get? hv).2⟩
  cases hg
  exact h.1

/-- Two ways of running bodies that do the same inside the region, one call deeper. -/
def RunsAlike (G : Region) (d : Nat) (run run' : List Stmt → RunM Flow) : Prop :=
  ∀ ⦃m m' : Machine⦄ ⦃body : List Stmt⦄, d < maxDepth → Stmt.ListWithin G.toCode body →
    m.Together G (d + 1) m' → RunM.Alike G (run body) (run' body) m m' (Flow.Within G)

variable {run run' : List Stmt → RunM Flow}

theorem alike_receiver {closure : Closure} (hclosure : closure.Within G) (h : m.Alike G m') :
    RunM.Alike G (receiver closure) (receiver closure) m m' (Value.Within G) := by
  refine .inspect h (by rw [h.alike.own? hclosure.1]) ?_
  cases hthis : m.store.own? closure.frame "this" with
  | none => trivial
  | some v => exact h.store.var _ _ v hclosure.1 hthis

theorem alike_callClosure (hrun : RunsAlike G d run run') (h : m.Alike G m') (hd : m.depth = d)
    {closure : Closure} (hclosure : closure.Within G) (paren : Lexeme) {vs : List Value}
    (hvs : ∀ v ∈ vs, v.Within G) :
    RunM.Alike G (callClosure run closure paren vs) (callClosure run' closure paren vs) m m'
      (Value.Within G) := by
  refine .get ?_
  rw [h.depth]
  split
  · exact .fail h _ _
  · next hshallow =>
    apply (alike_newFrame h (hclosure.callFrame hvs)).bind
    intro frame n n' hn hframe
    have hdepth : n.depth = d := hn.first.depth.trans hd
    -- The body runs in a frame inside, one call deeper, on both machines.
    have hinside : Machine.Together G (d + 1) { n with depth := n.depth + 1, env := frame }
        { n' with depth := n'.depth + 1, env := frame } :=
      ⟨⟨⟨hn.alike.store, hn.alike.closing, hn.alike.waiting⟩, congrArg (· + 1) hn.alike.depth,
        hn.alike.clock, hn.alike.ticks, hn.alike.out, hn.alike.table, hn.alike.alike⟩, rfl,
        hframe, congrArg (· + 1) hdepth⟩
    have hbody := hrun (by omega) (G.body _ hclosure.2) hinside
    apply (RunM.Alike.deeper (RunM.Alike.withFrame hbody)).bind
    intro flow k k' hk hflow
    split
    · exact alike_receiver hclosure hk.alike
    · refine .pure hk.alike ?_
      cases flow with
      | returned v => exact hflow
      | _ => trivial

theorem alike_instantiate (hrun : RunsAlike G d run run') (h : m.Alike G m') (hd : m.depth = d)
    {cls : Class} (hcls : cls.Within G) (paren : Lexeme) {vs : List Value}
    (hvs : ∀ v ∈ vs, v.Within G) :
    RunM.Alike G (instantiate run cls paren vs) (instantiate run' cls paren vs) m m'
      (Value.Within G) := by
  apply (alike_newInstance h hcls).bind
  intro i n n' hn hi
  cases hinit : cls.findMethod "init" with
  | none => exact .pure hn.alike hi
  | some init =>
    apply (alike_bindMethod hn.alike (hcls _ init hinit) hi).bind
    intro closure k k' hk hclosure
    have hdepth : k.depth = d := (hn.trans hk).first.depth.trans hd
    apply (alike_callClosure hrun hk.alike hdepth hclosure paren hvs).bind
    intro _ l l' hl _
    exact .pure hl.alike hi

theorem alike_callValue (hrun : RunsAlike G d run run') :
    Invoke.Alike G d (callValue run) (callValue run') := by
  intro m m' f paren vs h hd hf hvs
  cases f with
  | native name =>
    apply (alike_checkArity paren 0 vs.length h).bind
    intro _ n n' hn _
    exact alike_readClock hn.alike
  | function closure stamp =>
    apply (alike_checkArity paren closure.arity vs.length h).bind
    intro _ n n' hn _
    exact alike_callClosure hrun hn.alike (hn.first.depth.trans hd) hf paren hvs
  | «class» cls =>
    apply (alike_checkArity paren cls.arity vs.length h).bind
    intro _ n n' hn _
    exact alike_instantiate hrun hn.alike (hn.first.depth.trans hd) hf paren hvs
  | _ => exact .fail h paren .notCallable

/-- Calls that go at most `k` deep suffice at a depth: the region allows a run to go out
    of fuel, or the greatest depth comes first. -/
def Region.Suffices (G : Region) (k d : Nat) : Prop :=
  G.stops .outOfFuel ∨ d ≤ maxDepth ∧ maxDepth < k + d

/-- Every call does the same on machines that are the same inside. -/
theorem invoke_alike {k k' : Nat} (hk : k ≤ k') (hfuel : G.Suffices k d) :
    Invoke.Alike G d (invoke k) (invoke k') := by
  induction k generalizing k' d with
  | zero =>
    intro m m' f paren vs h _ _ _
    refine .outOfFuel (.refl m) h.toWithin ?_
    -- No call at all is allowed here only where the depth is the greatest one.
    rcases hfuel with hstops | ⟨hle, hlt⟩
    · exact hstops
    · omega
  | succ k ih =>
    obtain ⟨left, rfl⟩ : ∃ left, k' = left + 1 := ⟨k' - 1, by omega⟩
    have hle := Nat.le_of_succ_le_succ hk
    have hrun : RunsAlike G d (Stmt.listExec (invoke k) k) (Stmt.listExec (invoke left) left) := by
      intro m m' body hshallow hbody h
      have hcall : Invoke.Alike G (d + 1) (invoke k) (invoke left) := by
        refine ih hle ?_
        rcases hfuel with hstops | ⟨_, hlt⟩
        · exact .inl hstops
        · exact .inr ⟨hshallow, by omega⟩
      exact Stmt.listAlike hcall hle body hbody h
    exact alike_callValue hrun

/-! ## Whole trees -/

variable {fuel fuel' : Nat}

theorem alike_evaluate (hle : fuel ≤ fuel') (hfuel : G.Suffices fuel d) {e : Expr}
    (he : G.Uses e.uses) (h : m.Together G d m') :
    RunM.Alike G (evaluate fuel e) (evaluate fuel' e) m m' (Value.Within G) :=
  Expr.alike (invoke_alike hle hfuel) e he h

theorem alike_execute (hle : fuel ≤ fuel') (hfuel : G.Suffices fuel d) {s : Stmt}
    (hs : s.Within G.toCode) (h : m.Together G d m') :
    RunM.Alike G (execute fuel s) (execute fuel' s) m m' (Flow.Within G) :=
  Stmt.alike (invoke_alike hle hfuel) hle s hs h

theorem alike_interpret (hle : fuel ≤ fuel') (hfuel : G.Suffices fuel d) {program : List Stmt}
    (hprogram : Stmt.ListWithin G.toCode program) (h : m.Together G d m') :
    RunM.Alike G (interpret fuel program) (interpret fuel' program) m m' fun _ => True :=
  (Stmt.listAlike (invoke_alike hle hfuel) hle program hprogram h).bind fun _ _ _ hn _ =>
    .pure hn.alike trivial

end Lox
