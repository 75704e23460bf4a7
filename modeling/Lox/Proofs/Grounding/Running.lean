/-
  Lox.Proofs.Grounding.Running

  Programs make nothing but moves.

    * `RunM.Grounds` — however an action ends, its store comes by moves from the one before;
      and where it succeeds, its answer is as told;
    * `Expr.grounds`, `Stmt.grounds` — proper trees run so on grounded machines, with calls
      that do;
    * `defineClass_eq` — on a grounded machine a class can be bound in two steps;
    * `invoke_grounds` — calls of grounded values do.

  Nothing is asked of the table: a tree need not be resolved, and distances may be wrong.
-/
import Lox.Proofs.Grounding.Stores

namespace Lox

open RunM

/-- However the action ends, the machine goes on; and `Q` holds of its answer. -/
def RunM.Grounds {α : Type} (p : RunM α) (m : Machine) (Q : α → Store → Prop) : Prop :=
  m.Goes (p.after m) ∧ ∀ a n, p m = .ok a n → Q a n.store

variable {m : Machine} {α β : Type}

/-! ## Actions -/

namespace RunM.Grounds

variable {p : RunM α} {Q : α → Store → Prop} {f : α → RunM β} {after : β → Store → Prop}

/-- Where the action succeeds, it has gone on. -/
theorem ok (h : Grounds p m Q) {a : α} {n : Machine} (hrun : p m = .ok a n) :
    m.Goes n ∧ Q a n.store := by
  obtain ⟨hgoes, hQ⟩ := h
  rw [after_of_ok hrun] at hgoes
  exact ⟨hgoes, hQ a n hrun⟩

/-- What an action does on the machine is all that counts. -/
theorem of_eq {p' : RunM α} (h : p m = p' m) (hp : Grounds p' m Q) : Grounds p m Q := by
  have hafter : p.after m = p'.after m := by
    unfold RunM.after
    rw [h]
  obtain ⟨hgoes, hQ⟩ := hp
  refine ⟨?_, fun a n hrun => hQ a n (h.symm.trans hrun)⟩
  rw [hafter]
  exact hgoes

theorem bind (hm : m.Grounded) (hp : Grounds p m Q)
    (hf : ∀ a n, m.Goes n → n.Grounded → Q a n.store → Grounds (f a) n after) :
    Grounds (p >>= f) m after := by
  cases hrun : p m with
  | ok a n =>
    obtain ⟨hgoes, ha⟩ := hp.ok hrun
    obtain ⟨hgoes', hafter⟩ := hf a n hgoes (hgoes.grounded hm) ha
    refine ⟨?_, fun b n' hrun' => hafter b n' ?_⟩
    · rw [after_bind_of_ok hrun]
      exact hgoes.trans hgoes'
    · exact ok_of_bind_ok hrun' hrun
  | error halt n =>
    have hgoes := hp.1
    rw [after_of_error hrun] at hgoes
    refine ⟨?_, fun b n' hrun' => ?_⟩
    · rw [after_bind_of_error hrun]
      exact hgoes
    · obtain ⟨a, n₁, hfirst, -⟩ := bind_ok hrun'
      rw [hrun] at hfirst
      cases hfirst

theorem pure {a : α} (ha : Q a m.store) : Grounds (pure a : RunM α) m Q := by
  refine ⟨.refl m, ?_⟩
  rintro _ _ ⟨⟩
  exact ha

theorem throw {halt : Halt} : Grounds (throw halt : RunM α) m Q := ⟨.refl m, nofun⟩

theorem fail {at_ : Lexeme} {fault : RuntimeFault} : Grounds (RunM.fail at_ fault : RunM α) m Q :=
  throw

/-- An action that does not look at the machine. -/
theorem constant {P : α → Prop} (hp : p.Constant P) (hQ : ∀ a, P a → Q a m.store) :
    Grounds p m Q := by
  rcases hp with ⟨a, rfl, ha⟩ | ⟨at_, fault, rfl⟩
  · exact .pure (hQ a ha)
  · exact .fail

theorem get {f : Machine → RunM β} (h : Grounds (f m) m after) : Grounds (get >>= f) m after := h

theorem inspect {g : Store → α} (hg : Q (g m.store) m.store) : Grounds (RunM.inspect g) m Q := by
  refine ⟨.refl m, ?_⟩
  rintro _ _ ⟨⟩
  exact hg

theorem make {g : Store → α × Store} (hmoves : m.store.Moves (g m.store).2)
    (ha : Q (g m.store).1 (g m.store).2) : Grounds (RunM.make g) m Q := by
  refine ⟨⟨rfl, .single hmoves⟩, ?_⟩
  rintro _ _ ⟨⟩
  exact ha

theorem change {g : Store → Store} {Q : Unit → Store → Prop} (hmoves : m.store.Moves (g m.store))
    (ha : Q () (g m.store)) : Grounds (RunM.change g) m Q := by
  refine ⟨⟨rfl, .single hmoves⟩, ?_⟩
  rintro _ _ ⟨⟩
  exact ha

theorem withFrame {g : FrameId} (h : Grounds p { m with env := g } Q) :
    Grounds (RunM.withFrame g p) m Q := by
  obtain ⟨hgoes, hQ⟩ := h
  refine ⟨?_, fun a n hrun => ?_⟩
  · unfold RunM.after RunM.withFrame
    cases hrun : p { m with env := g } with
    | ok a n =>
      rw [after_of_ok hrun] at hgoes
      exact ⟨rfl, hgoes.store⟩
    | error halt n =>
      rw [after_of_error hrun] at hgoes
      exact ⟨rfl, hgoes.store⟩
  · obtain ⟨n', hinner, rfl⟩ := withFrame_ok hrun
    exact hQ a n' hinner

theorem deeper (h : Grounds p { m with depth := m.depth + 1 } Q) :
    Grounds (RunM.deeper p) m Q := by
  obtain ⟨hgoes, hQ⟩ := h
  refine ⟨?_, fun a n hrun => ?_⟩
  · unfold RunM.after RunM.deeper
    cases hrun : p { m with depth := m.depth + 1 } with
    | ok a n =>
      rw [after_of_ok hrun] at hgoes
      exact ⟨hgoes.env, hgoes.store⟩
    | error halt n =>
      rw [after_of_error hrun] at hgoes
      exact ⟨hgoes.env, hgoes.store⟩
  · obtain ⟨n', hinner, rfl⟩ := deeper_ok hrun
    exact hQ a n' hinner

end RunM.Grounds

/-! ## Names -/

section

variable (hm : m.Grounded)
include hm

theorem grounds_read (use : Occurrence) : Grounds (read use) m fun v s => v.Grounded s := by
  refine ⟨?_, fun v n hrun => ?_⟩
  · unfold RunM.after
    rw [read_eq]
    cases m.lookUp use <;> exact .refl m
  · obtain ⟨hv, rfl⟩ := read_ok hrun
    obtain ⟨f, hf⟩ := Machine.own?_of_lookUp hv
    exact hm.store.values.vars f _ v hf

omit hm in
theorem grounds_define {name : Lexeme} (hname : name.Ordinary) {v : Value}
    (hv : v.Grounded m.store) : Grounds (define name.text v) m fun _ _ => True :=
  .get (.change (.bound m.env hname hv) trivial)

omit hm in
theorem grounds_write {use : Occurrence} (hname : use.name.Ordinary) {v : Value}
    (hv : v.Grounded m.store) : Grounds (write use v) m fun _ _ => True := by
  refine ⟨?_, fun _ _ _ => trivial⟩
  unfold RunM.after RunM.write
  cases target? m use with
  | none => exact .refl m
  | some f => exact ⟨rfl, .single (.bound f hname hv)⟩

/-- Whatever `super` means where it stands, it is grounded. -/
theorem grounds_superBinding (keyword : Occurrence) :
    Grounds (superBinding keyword) m fun found s =>
      found.1.Grounded s ∧ found.2 < s.instances.size := by
  refine .get ?_
  split
  · exact .fail
  · next d _ =>
    dsimp only
    split
    · next parent i hparent hreceiver =>
      have hgrounded {d : Nat} {name : String} {v : Value}
          (h : m.store.namedAt? m.env d name = some v) : v.Grounded m.store := by
        obtain ⟨f, -, hf⟩ := Option.bind_eq_some_iff.mp h
        exact hm.store.values.vars f _ v hf
      refine .pure ⟨hgrounded hparent, ?_⟩
      split at hreceiver
      · cases hreceiver
      · exact hgrounded hreceiver
    · exact .fail

/-! ## The world -/

omit hm in
theorem grounds_print (v : Value) : Grounds (print v) m fun _ _ => True := by
  refine ⟨?_, fun _ _ _ => trivial⟩
  unfold RunM.after RunM.print
  dsimp only
  cases (m.out.write (v.text m.store ++ "\n")).1 <;> exact ⟨rfl, .refl⟩

omit hm in
theorem grounds_readClock : Grounds readClock m fun v s => v.Grounded s := by
  unfold Grounds RunM.after readClock
  cases m.clock m.ticks with
  | none => exact ⟨.refl m, nofun⟩
  | some reading =>
    refine ⟨⟨rfl, .refl⟩, ?_⟩
    rintro _ _ ⟨⟩
    trivial

/-! ## Methods -/

omit hm in
theorem grounds_functionValue {closure : Closure} (hclosure : closure.Grounded m.store) :
    Grounds (make (·.functionValue closure)) m fun v s => v.Grounded s :=
  .make .stamped (hclosure.onward (Store.Moves.onward .stamped))

omit hm in
/-- A method that is bound closes over the new frame. -/
theorem grounds_bindMethod {method : Closure} {i : InstanceId}
    (hmethod : method.Grounded m.store) (hi : i < m.store.instances.size) :
    Grounds (make (·.bindMethod method i)) m fun closure s => closure.Grounded s := by
  exact .make (.received hmethod hi) ⟨m.store.size_lt_newFrame _, hmethod.proper⟩

theorem grounds_boundMethod {method : Closure} {i : InstanceId}
    (hmethod : method.Grounded m.store) (hi : i < m.store.instances.size) :
    Grounds (boundMethod method i) m fun v s => v.Grounded s :=
  (grounds_bindMethod hmethod hi).bind hm fun _ _ _ _ hclosure => grounds_functionValue hclosure

theorem grounds_readProperty {i : InstanceId} (hi : i < m.store.instances.size)
    (property : Lexeme) : Grounds (readProperty i property) m fun v s => v.Grounded s := by
  refine .of_eq (readProperty_eq i property m) ?_
  split
  · next v hfield => exact .pure (hm.store.values.fields i _ v hfield)
  · split
    · next method hmethod =>
      exact grounds_boundMethod hm (hm.store.values.methods i _ method hmethod) hi
    · exact .fail

theorem grounds_superMethod (keyword : Occurrence) (method : Lexeme) :
    Grounds (superMethod keyword method) m fun v s => v.Grounded s := by
  refine (grounds_superBinding hm keyword).bind hm fun found n _ hn hfound => ?_
  obtain ⟨parent, i⟩ := found
  dsimp only
  split
  · next called hcalled => exact grounds_boundMethod hn (hfound.1.method hcalled) hfound.2
  · exact .fail

end

/-! ## Expressions -/

/-- Calls of grounded values on grounded machines make moves. -/
def CallsGround (call : Invoke) : Prop :=
  ∀ f paren vs m, m.Grounded → f.Grounded m.store → (∀ v ∈ vs, v.Grounded m.store) →
    Grounds (call f paren vs) m fun v s => v.Grounded s

mutual

/-- A proper expression makes moves, and yields a grounded value. -/
theorem Expr.grounds {call : Invoke} (hcall : CallsGround call) (e : Expr) (he : e.Proper)
    {m : Machine} (hm : m.Grounded) :
    Grounds (e.eval call) m fun v s => v.Grounded s := by
  cases e with
  | literal value => exact .pure (Value.free_ofLiteral value |>.grounded _)
  | grouping inner => exact Expr.grounds hcall inner he hm
  | unary op sign operand =>
    refine (Expr.grounds hcall operand he.2 hm).bind hm fun v n _ _ _ => ?_
    exact .constant (op.unary_constant sign v) fun _ hv => hv.grounded _
  | binary op sign left right =>
    refine (Expr.grounds hcall left he.2.1 hm).bind hm fun a m₁ _ hm₁ _ => ?_
    refine (Expr.grounds hcall right he.2.2 hm₁).bind hm₁ fun b m₂ _ _ _ => ?_
    exact .constant (op.binary_constant sign a b) fun _ hv => hv.grounded _
  | logical op sign left right =>
    refine (Expr.grounds hcall left he.1 hm).bind hm fun a m₁ _ hm₁ ha => ?_
    split
    · exact .pure ha
    · exact Expr.grounds hcall right he.2 hm₁
  | name use => exact grounds_read hm use
  | assign target value =>
    refine (Expr.grounds hcall value he.2 hm).bind hm fun v m₁ _ hm₁ hv => ?_
    -- What was written is grounded in the store before, and so in the one after.
    exact (grounds_write he.1 hv).bind hm₁ fun _ _ hgoes _ _ =>
      .pure (hv.onward hgoes.store.onward)
  | call callee paren arguments =>
    refine (Expr.grounds hcall callee he.1 hm).bind hm fun f m₁ _ hm₁ hf => ?_
    refine ((Expr.listGrounds hcall arguments he.2 hm₁)).bind hm₁ fun vs m₂ hgoes hm₂ hvs => ?_
    exact hcall f paren vs m₂ hm₂ (hf.onward hgoes.store.onward) hvs
  | get object property =>
    refine (Expr.grounds hcall object he hm).bind hm fun v m₁ _ hm₁ hv => ?_
    refine Grounds.bind (Q := fun i s => i < s.instances.size) hm₁
      (.constant (asInstance_constant _ _ v) fun i hi => ?_) fun i m₂ _ hm₂ hi =>
        grounds_readProperty hm₂ hi property
    rw [hi] at hv
    exact hv
  | set object property value =>
    refine (Expr.grounds hcall object he.1 hm).bind hm fun o m₁ _ hm₁ _ => ?_
    refine Grounds.bind (Q := fun _ _ => True) hm₁
      (.constant (asInstance_constant _ _ o) fun _ _ => trivial) fun i m₂ _ hm₂ _ => ?_
    refine (Expr.grounds hcall value he.2 hm₂).bind hm₂ fun v m₃ _ hm₃ hv => ?_
    exact Grounds.bind (Q := fun _ _ => True) hm₃ (.change (.fielded i _ hv) trivial)
      fun _ _ hgoes _ _ => .pure (hv.onward hgoes.store.onward)
  | this keyword => exact grounds_read hm keyword
  | super keyword method => exact grounds_superMethod hm keyword method

theorem Expr.listGrounds {call : Invoke} (hcall : CallsGround call) (es : List Expr)
    (hes : Expr.ListProper es) {m : Machine} (hm : m.Grounded) :
    Grounds (Expr.listEval call es) m fun vs s => ∀ v ∈ vs, v.Grounded s := by
  cases es with
  | nil => exact .pure nofun
  | cons e es =>
    refine (Expr.grounds hcall e hes.1 hm).bind hm fun v m₁ _ hm₁ hv => ?_
    refine (Expr.listGrounds hcall es hes.2 hm₁).bind hm₁ fun vs m₂ hgoes _ hvs => .pure ?_
    exact List.forall_mem_cons.mpr ⟨hv.onward hgoes.store.onward, hvs⟩

end

theorem Expr.optionGrounds {call : Invoke} (hcall : CallsGround call) (e : Option Expr)
    (he : Expr.OptionProper e) (hm : m.Grounded) :
    Grounds (Expr.optionEval call e) m fun v s => v.Grounded s := by
  cases e with
  | none => exact .pure trivial
  | some e => exact e.grounds hcall he hm

/-! ## Declarations -/

section

variable (hm : m.Grounded)
include hm

theorem grounds_defineFunction {decl : FunctionDecl} (hname : decl.name.Ordinary)
    (hdecl : decl.Proper) : Grounds (defineFunction decl) m fun _ _ => True :=
  .get ((grounds_functionValue ⟨hm.env, hdecl⟩).bind hm fun _ _ _ _ hv => grounds_define hname hv)

theorem grounds_superclassOf (superclass : Option Occurrence) :
    Grounds (superclassOf superclass) m fun parent s => ∀ cls, parent = some cls →
      cls.Grounded s := by
  cases superclass with
  | none => exact .pure nofun
  | some use =>
    refine (grounds_read hm use).bind hm fun v n _ _ hv => ?_
    split
    · exact .pure fun cls hcls => Option.some.inj hcls ▸ hv
    · exact .fail

/-- The frame of the methods is there, be it one of their own or not. -/
theorem grounds_methodFrame {parent : Option Class}
    (hparent : ∀ cls, parent = some cls → cls.Grounded m.store) :
    Grounds (methodFrame parent) m fun frame s => frame < s.frames.size := by
  cases parent with
  | none => exact .get (.pure hm.env)
  | some parent =>
    exact .get (.make (.derived hm.env (hparent parent rfl)) (m.store.size_lt_newFrame _))

omit hm in
theorem FunctionDecl.ListProper.mem {ds : List FunctionDecl}
    (h : FunctionDecl.ListProper ds) : ∀ d ∈ ds, d.Proper := by
  induction ds with
  | nil => nofun
  | cons d ds ih =>
    intro d' hd'
    rcases List.mem_cons.mp hd' with rfl | hmem
    · exact h.1
    · exact ih h.2 d' hmem

/-- The frame of the methods is the same if a name of the current frame was bound before. -/
theorem methodFrame_define (parent : Option Class) (name : String) (v : Value) :
    ∃ frame s, m.env < s.frames.size ∧ methodFrame parent m = .ok frame { m with store := s } ∧
      methodFrame parent { m with store := m.store.define m.env name v } =
        .ok frame { m with store := s.define m.env name v } := by
  cases parent with
  | none => exact ⟨m.env, m.store, hm.env, rfl, rfl⟩
  | some parent =>
    let frame : Frame := ⟨.single "super" (.class parent), some m.env⟩
    have hrun : methodFrame (some parent) { m with store := m.store.define m.env name v } =
        .ok ((m.store.define m.env name v).newFrame frame).1
          { m with store := ((m.store.define m.env name v).newFrame frame).2 } := rfl
    refine ⟨_, _, Nat.lt_trans hm.env (m.store.size_lt_newFrame frame), rfl, ?_⟩
    rw [hrun, Store.newFrame_define hm.env]

/-- On a grounded machine it is the same to bind a class when it is made, or to bind its name
    to `nil` before, and to assign the class to the name. -/
theorem defineClass_eq (name : Lexeme) (superclass : Option Occurrence)
    (methods : List FunctionDecl) :
    defineClass name superclass methods m =
      (do
        let parent ← superclassOf superclass
        define name.text .nil
        let frame ← methodFrame parent
        let stamp ← make Store.newStamp
        let n ← get
        let s ← ofExcept (n.store.assign n.env name
          (.class ⟨stamp, name.text, methodTable frame methods, parent⟩))
        change fun _ => s) m := by
  unfold defineClass
  cases hclause : superclassOf superclass m with
  | error halt n => rw [bind_of_error hclause, bind_of_error hclause]
  | ok parent n =>
    rw [bind_of_ok hclause, bind_of_ok hclause]
    have hn : n.Grounded := ((grounds_superclassOf hm superclass).ok hclause).1.grounded hm
    obtain ⟨frame, s, henv, hframe, hbound⟩ := methodFrame_define hn parent name.text .nil
    let cls : Value := .class ⟨s.nextStamp, name.text, methodTable frame methods, parent⟩
    let bound := s.newStamp.2.define n.env name.text .nil
    -- The name is found where it was bound, so this is where the class is assigned.
    have hown : bound.own? n.env name.text = some .nil :=
      Store.own?_define_self (Array.getElem?_eq_getElem henv) name.text .nil
    have hassign : bound.assign n.env name cls = .ok (s.newStamp.2.define n.env name.text cls) := by
      rw [Store.assign_here hown, Store.define_define]
    have hlast : (do
        let t ← ofExcept (bound.assign n.env name cls)
        change fun _ => t) { n with store := bound } =
        .ok () { n with store := s.newStamp.2.define n.env name.text cls } := by
      rw [hassign]
      rfl
    refine (bind_of_ok hframe _).trans (Eq.trans ?_ (bind_of_ok hbound _).symm)
    exact hlast.symm

theorem grounds_defineClass {name : Lexeme} (hname : name.Ordinary)
    (superclass : Option Occurrence) {methods : List FunctionDecl}
    (hmethods : FunctionDecl.ListProper methods) :
    Grounds (defineClass name superclass methods) m fun _ _ => True := by
  refine (grounds_superclassOf hm superclass).bind hm fun parent m₁ _ hm₁ hparent => ?_
  refine (grounds_methodFrame hm₁ hparent).bind hm₁ fun frame m₂ hgoes hm₂ hframe => ?_
  -- The class has a stamp of its own, which is greater than those of all classes before; so
  -- its superclass is older.
  have hcls : Class.Grounded m₂.store.newStamp.2
      ⟨m₂.store.nextStamp, name.text, methodTable frame methods, parent⟩ := by
    refine .make (fun called method hmethod => ?_) fun cls hcls =>
      (hparent cls hcls).onward hgoes.store.onward
    obtain ⟨hmem, hclosed, -⟩ := methodTable_get? hmethod
    exact ⟨hclosed ▸ hframe, hmethods.mem _ hmem⟩
  refine Grounds.bind (Q := fun stamp s => Class.Grounded s
    ⟨stamp, name.text, methodTable frame methods, parent⟩) hm₂ (.make .stamped hcls)
    fun stamp m₃ _ _ hcls => ?_
  exact grounds_define hname (v := .class _) hcls

end

/-! ## Statements -/

/-- A value that a `return` carries is grounded. -/
def Flow.Grounded (s : Store) : Flow → Prop
  | .returned v => v.Grounded s
  | _ => True

/-- A loop makes moves if its condition and its body do. -/
theorem grounds_whileLoop {condition : RunM Bool} {body : RunM Flow}
    (hcondition : ∀ {m}, m.Grounded → Grounds condition m fun _ _ => True)
    (hbody : ∀ {m}, m.Grounded → Grounds body m fun flow s => flow.Grounded s) (bound : Nat)
    {m : Machine} (hm : m.Grounded) :
    Grounds (whileLoop condition body bound) m fun flow s => flow.Grounded s := by
  induction bound generalizing m with
  | zero => exact .throw
  | succ bound ih =>
    refine (hcondition hm).bind hm fun holds m₁ _ hm₁ _ => ?_
    split
    · refine (hbody hm₁).bind hm₁ fun flow m₂ _ hm₂ hflow => ?_
      cases flow with
      | normal => exact ih hm₂
      | broken => exact .pure trivial
      | returned v => exact .pure hflow
    · exact .pure trivial

/-- The frame of a block is made by a move. -/
theorem Machine.Grounded.moves_inBlock (hm : m.Grounded) :
    m.store.Moves (m.store.child m.env).2 := by
  refine .opened hm.env fun name v hv => ?_
  rw [Bindings.get?_empty] at hv
  cases hv

mutual

/-- A proper statement makes moves. -/
theorem Stmt.grounds {call : Invoke} (hcall : CallsGround call) (bound : Nat) (s : Stmt)
    (hs : s.Proper) {m : Machine} (hm : m.Grounded) :
    Grounds (s.exec call bound) m fun flow s => flow.Grounded s := by
  match s with
  | .expression value =>
    exact (value.grounds hcall hs hm).bind hm fun _ _ _ _ _ => .pure trivial
  | .print value =>
    refine (value.grounds hcall hs hm).bind hm fun v n _ hn _ => ?_
    exact (grounds_print v).bind hn fun _ _ _ _ _ => .pure trivial
  | .var name initializer =>
    refine (Expr.optionGrounds hcall initializer hs.2 hm).bind hm fun v n _ hn hv => ?_
    exact (grounds_define hs.1 hv).bind hn fun _ _ _ _ _ => .pure trivial
  | .block body =>
    refine .get (Grounds.bind (Q := fun frame s => frame < s.frames.size) hm
      (.make hm.moves_inBlock (m.store.size_lt_newFrame _)) fun frame n _ hn hframe => ?_)
    exact .withFrame (Stmt.listGrounds hcall bound body hs ⟨hn.store, hframe⟩)
  | .ifElse condition yes none =>
    refine (condition.grounds hcall hs.1 hm).bind hm fun v n _ hn _ => ?_
    split
    · exact Stmt.grounds hcall bound yes hs.2.1 hn
    · exact .pure trivial
  | .ifElse condition yes (some no) =>
    obtain ⟨hcondition, hyes, -, hno, -⟩ := hs
    refine (condition.grounds hcall hcondition hm).bind hm fun v n _ hn _ => ?_
    split
    · exact Stmt.grounds hcall bound yes hyes hn
    · exact Stmt.grounds hcall bound no hno hn
  | .while condition body =>
    refine grounds_whileLoop (fun hm => ?_)
      (fun hm => Stmt.grounds hcall bound body hs.2.1 hm) bound hm
    exact (condition.grounds hcall hs.1 hm).bind hm fun _ _ _ _ _ => .pure trivial
  | .break keyword => exact .pure trivial
  | .function decl =>
    exact (grounds_defineFunction hm hs.1 hs.2).bind hm fun _ _ _ _ _ => .pure trivial
  | .return keyword value =>
    exact (Expr.optionGrounds hcall value hs hm).bind hm fun _ _ _ _ hv => .pure hv
  | .class name superclass methods =>
    exact (grounds_defineClass hm hs.1 superclass hs.2).bind hm fun _ _ _ _ _ => .pure trivial

theorem Stmt.listGrounds {call : Invoke} (hcall : CallsGround call) (bound : Nat)
    (ss : List Stmt) (hss : Stmt.ListProper ss) {m : Machine} (hm : m.Grounded) :
    Grounds (Stmt.listExec call bound ss) m fun flow s => flow.Grounded s := by
  match ss with
  | [] => exact .pure trivial
  | s :: ss =>
    refine (Stmt.grounds hcall bound s hss.1 hm).bind hm fun flow n _ hn hflow => ?_
    cases flow with
    | normal => exact Stmt.listGrounds hcall bound ss hss.2 hn
    | broken => exact .pure trivial
    | returned v => exact .pure hflow

end

/-! ## Calls -/

theorem FunctionDecl.Proper.body {decl : FunctionDecl} (h : decl.Proper) :
    Stmt.ListProper decl.body := by
  cases decl
  exact h.2

/-- The frame of a call is one for ordinary names. -/
theorem Closure.Grounded.opens {s : Store} {closure : Closure} (h : closure.Grounded s)
    {vs : List Value} (hvs : ∀ v ∈ vs, v.Grounded s) :
    s.Moves (s.newFrame
      ⟨parameterVars closure.decl.parameters vs, some closure.frame⟩).2 := by
  refine .opened h.frame fun name v hv => ?_
  obtain ⟨⟨p, hp, rfl⟩, hmem⟩ := parameterVars_get? hv
  obtain ⟨⟨_, _, _⟩, _, _⟩ := closure
  obtain ⟨hthis, hsuper⟩ := h.proper.1 p hp
  exact ⟨hthis, hsuper, hvs v hmem⟩

/-- So the body of a function begins on a grounded machine. -/
theorem Machine.Grounded.enter (hm : m.Grounded) {closure : Closure}
    (hclosure : closure.Grounded m.store) {vs : List Value}
    (hvs : ∀ v ∈ vs, v.Grounded m.store) : (m.enter closure vs).Grounded := by
  exact ⟨(hclosure.opens hvs).grounded hm.store, m.store.size_lt_newFrame _⟩

section

variable {run : List Stmt → RunM Flow}
  (hrun : ∀ body, Stmt.ListProper body → ∀ {m}, m.Grounded →
    Grounds (run body) m fun flow s => flow.Grounded s)
include hrun

theorem grounds_callClosure {closure : Closure} (hm : m.Grounded)
    (hclosure : closure.Grounded m.store) (paren : Lexeme) {vs : List Value}
    (hvs : ∀ v ∈ vs, v.Grounded m.store) :
    Grounds (callClosure run closure paren vs) m fun v s => v.Grounded s := by
  refine .get ?_
  split
  · exact .fail
  · refine Grounds.bind (Q := fun frame s => frame < s.frames.size) hm
      (.make (hclosure.opens hvs) (m.store.size_lt_newFrame _)) fun frame n _ hn hframe => ?_
    have hinside : Machine.Grounded { n with env := frame, depth := n.depth + 1 } :=
      ⟨hn.store, hframe⟩
    refine Grounds.bind (Q := fun flow s => flow.Grounded s) hn
      (.deeper (.withFrame (hrun _ hclosure.proper.body hinside))) fun flow n' _ hn' hflow => ?_
    split
    · -- An initializer yields what its frame has for `this`, or `nil`.
      refine .inspect ?_
      cases hthis : n'.store.own? closure.frame "this" with
      | none => trivial
      | some v => exact hn'.store.values.vars _ _ v hthis
    · refine .pure ?_
      cases flow with
      | returned v => exact hflow
      | _ => trivial

theorem grounds_instantiate {cls : Class} (hm : m.Grounded) (hcls : cls.Grounded m.store)
    (paren : Lexeme) {vs : List Value} (hvs : ∀ v ∈ vs, v.Grounded m.store) :
    Grounds (instantiate run cls paren vs) m fun v s => v.Grounded s := by
  refine Grounds.bind (Q := fun i s => i < s.instances.size) hm
    (.make (.born hcls) (m.store.size_lt_newInstance cls)) fun i m₁ hgoes hm₁ hi => ?_
  split
  · exact .pure hi
  · next init hinit =>
    have hmethod := (hcls.method hinit).onward hgoes.store.onward
    refine (grounds_bindMethod hmethod hi).bind hm₁ fun closure m₂ hgoes' hm₂ hclosure => ?_
    have hvs' : ∀ v ∈ vs, v.Grounded m₂.store := fun v hv =>
      (hvs v hv).onward (hgoes.trans hgoes').store.onward
    exact (grounds_callClosure hrun hm₂ hclosure paren hvs').bind hm₂ fun _ n hgoes'' _ _ =>
      .pure (Nat.lt_of_lt_of_le hi (hgoes'.trans hgoes'').store.onward.instances)

end

/-- Calls of grounded values make moves, however deep they go. -/
theorem invoke_grounds (n : Nat) : CallsGround (invoke n) := by
  -- Bodies are run with calls that may go one less deep.
  induction n with
  | zero => exact fun _ _ _ _ _ _ _ => .throw
  | succ n ih =>
    intro f paren vs m hm hf hvs
    have hrun := fun body hbody {m} (hm : Machine.Grounded m) =>
      Stmt.listGrounds ih n body hbody hm
    have hcounted {expected : Nat} : Grounds (checkArity paren expected vs.length) m
        fun _ s => m.store.Onward s :=
      .constant (checkArity_constant paren expected vs.length) fun _ _ => .refl _
    cases f with
    | native name => exact hcounted.bind hm fun _ _ _ _ _ => grounds_readClock
    | function closure stamp =>
      refine hcounted.bind hm fun _ n _ hn honward => ?_
      exact grounds_callClosure hrun hn (Closure.Grounded.onward hf honward) paren
        fun v hv => (hvs v hv).onward honward
    | «class» cls =>
      refine hcounted.bind hm fun _ n _ hn honward => ?_
      exact grounds_instantiate hrun hn (Class.Grounded.onward hf honward) paren
        fun v hv => (hvs v hv).onward honward
    | _ => exact .fail

end Lox
