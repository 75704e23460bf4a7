/-
  Lox.Proofs.Relabelling.Simulation

  Two runs of one program, the second one relabelled and on an output of its own.

    * `Pairing` — new lines and numbers, and which outputs of the two runs correspond;
    * `Machine.Paired` — machines that are the same but for that;
    * `Pairing.Tracks` — an action is followed by another one on such machines: the two
      end in the same way, or the output of the second one refused a text that the
      first one could write.

  `Pairing.interpret` says that every program is followed by the relabelled one.  What
  is special to a pairing stands in its laws, which speak of single texts only.
-/
import Lox.Proofs.Comparison
import Lox.Proofs.Evolution
import Lox.Proofs.Operators
import Lox.Proofs.Output.Sinks
import Lox.Proofs.Relabelling.Stores

namespace Lox

open RunM Comparison

/-- How two runs of one program differ. -/
structure Pairing where
  labels : Relabelling
  /-- Outputs that correspond. -/
  out : Sink → Sink → Prop
  /-- The second output refused a text, and the first one is at least as far. -/
  cut : Sink → Sink → Prop
  write {o o' : Sink} (text : String) : out o o' →
    (o'.write text).1 = (o.write text).1 ∧ out (o.write text).2 (o'.write text).2 ∨
    (o'.write text).1 = false ∧ cut (o.write text).2 (o'.write text).2
  later {o t o' : Sink} : cut o o' → o.Grows t → cut t o'

section

variable (P : Pairing)

/-- The machines are the same but for labels and output. -/
structure Machine.Paired (m m' : Machine) : Prop where
  store : m'.store = m.store.relabel P.labels
  env : m'.env = m.env
  depth : m'.depth = m.depth
  table : ∀ id, m'.table[P.labels.id id]? = m.table[id]?
  clock : m'.clock = m.clock
  ticks : m'.ticks = m.ticks
  out : P.out m.out m'.out

/-- Runs on paired machines. -/
def Pairing.machines : Comparison Halt Machine where
  stopped := Machine.Paired P
  cut m m' := P.cut m.out m'.out
  grows m n := m.out.Grows n.out
  stop := Halt.relabel P.labels
  closed := .closed
  refl m := .refl m.out
  trans := .trans
  later := P.later

/-- The second action follows the first one, with the answers that `g` tells. -/
def Pairing.Tracks {α β : Type} (g : α → β) (p : RunM α) (p' : RunM β) : Prop :=
  P.machines.Tracks (Machine.Paired P) (Machine.Paired P) g p p'

end

namespace Pairing

variable {P : Pairing} {α β γ δ : Type} {g : α → β} {h : γ → δ}

/-! ## Actions in general -/

namespace Tracks

theorem pure (a : α) : P.Tracks g (Pure.pure a) (Pure.pure (g a)) := Comparison.Tracks.pure a

theorem throw (halt : Halt) :
    P.Tracks g (MonadExcept.throw halt) (MonadExcept.throw (halt.relabel P.labels)) :=
  Comparison.Tracks.throw (C := P.machines) halt fun _ _ hm => hm

theorem bind {p : RunM α} {p' : RunM β} {f : α → RunM γ} {f' : β → RunM δ}
    (hp : P.Tracks g p p') (hf : ∀ a, P.Tracks h (f a) (f' (g a))) :
    P.Tracks h (p >>= f) (p' >>= f') :=
  Comparison.Tracks.bind hp hf

theorem fail (at_ : Lexeme) (fault : RuntimeFault) :
    P.Tracks g (RunM.fail at_ fault) (RunM.fail (at_.relabel P.labels) fault) :=
  throw _

/-- Of the machine an action may use the current frame and the depth of calls, which are
    the same in both runs. -/
theorem bindGet {f : Machine → RunM γ} {f' : Machine → RunM δ}
    (hf : ∀ m m' : Machine, m'.env = m.env → m'.depth = m.depth → P.Tracks h (f m) (f' m')) :
    P.Tracks h (get >>= f) (get >>= f') :=
  ⟨fun m => (hf m m rfl rfl).grows m, fun m m' hm => (hf m m' hm.env hm.depth).ends m m' hm⟩

/-! ## The store -/

theorem inspect {t : Store → α} {t' : Store → β} (ht : ∀ s, t' (s.relabel P.labels) = g (t s)) :
    P.Tracks g (RunM.inspect t) (RunM.inspect t') := by
  refine ⟨fun m => .refl m.out, fun m m' hm => ?_⟩
  show P.machines.Ends (Machine.Paired P) g (.ok (t m.store) m) (.ok (t' m'.store) m')
  rw [hm.store, ht]
  exact .ok hm

theorem make {t : Store → α × Store} {t' : Store → β × Store}
    (hvalue : ∀ s, (t' (s.relabel P.labels)).1 = g (t s).1)
    (hstore : ∀ s, (t' (s.relabel P.labels)).2 = (t s).2.relabel P.labels) :
    P.Tracks g (RunM.make t) (RunM.make t') := by
  refine ⟨fun m => .refl m.out, fun m m' hm => ?_⟩
  show P.machines.Ends (Machine.Paired P) g (.ok (t m.store).1 { m with store := (t m.store).2 })
    (.ok (t' m'.store).1 { m' with store := (t' m'.store).2 })
  rw [hm.store, hvalue, hstore]
  exact .ok ⟨rfl, hm.env, hm.depth, hm.table, hm.clock, hm.ticks, hm.out⟩

theorem change {t t' : Store → Store}
    (ht : ∀ s, t' (s.relabel P.labels) = (t s).relabel P.labels) :
    P.Tracks id (RunM.change t) (RunM.change t') := by
  show P.Tracks id (RunM.make fun s => ((), t s)) (RunM.make fun s => ((), t' s))
  exact make (fun _ => rfl) ht

theorem newFrame (frame : Frame) :
    P.Tracks id (RunM.make (·.newFrame frame)) (RunM.make (·.newFrame (frame.relabel P.labels))) :=
  make (fun s => s.size_relabel) fun s => (s.relabel_newFrame frame).symm

theorem define (name : String) (v : Value) :
    P.Tracks id (RunM.define name v) (RunM.define name (v.relabel P.labels)) := by
  refine bindGet fun m m' henv _ => ?_
  rw [henv]
  exact change fun s => (s.relabel_define m.env name v).symm

theorem ofExcept (answer : Except RuntimeError α) :
    P.Tracks g (RunM.ofExcept answer)
      (RunM.ofExcept ((answer.map g).mapError (RuntimeError.relabel P.labels))) := by
  cases answer with
  | ok a => exact pure a
  | error e => exact throw (.error e)

end Tracks

/-- What an occurrence means is the same in both runs. -/
theorem lookUp_relabel {m m' : Machine} (hm : m.Paired P m') (use : Occurrence) :
    m'.lookUp (use.relabel P.labels) =
      ((m.lookUp use).map (Value.relabel P.labels)).mapError (RuntimeError.relabel P.labels) := by
  have hplace : m'.table[(use.relabel P.labels).id]? = m.table[use.id]? := hm.table use.id
  unfold Machine.lookUp
  rw [hplace, hm.store, hm.env]
  cases m.table[use.id]? with
  | none =>
    show Store.get _ _ _ = Except.mapError _ (Except.map _ (Store.get _ _ _))
    simp only [Store.get, Occurrence.relabel, Lexeme.relabel_text, Store.owner?_relabel]
    cases m.store.owner? use.name.text Store.globals with
    | none => rfl
    | some f =>
      simp only [Option.bind_some, Store.own?_relabel]
      cases m.store.own? f use.name.text <;> rfl
  | some d =>
    show Store.getAt _ _ _ _ = Except.mapError _ (Except.map _ (Store.getAt _ _ _ _))
    simp only [Store.getAt, Occurrence.relabel, Lexeme.relabel_text, Store.namedAt?_relabel]
    cases m.store.namedAt? m.env d use.name.text <;> rfl

theorem target?_relabel {m m' : Machine} (hm : m.Paired P m') (use : Occurrence) :
    target? m' (use.relabel P.labels) = target? m use := by
  have hplace : m'.table[(use.relabel P.labels).id]? = m.table[use.id]? := hm.table use.id
  unfold target?
  rw [hplace, hm.store, hm.env]
  cases m.table[use.id]? with
  | none => exact m.store.owner?_relabel use.name.text Store.globals
  | some d => exact m.store.ancestor?_relabel m.env d

namespace Tracks

theorem read (use : Occurrence) :
    P.Tracks (Value.relabel P.labels) (RunM.read use) (RunM.read (use.relabel P.labels)) := by
  constructor
  · intro m
    rw [read_eq]
    exact (ofExcept (P := P) (g := id) (m.lookUp use)).grows m
  · intro m m' hm
    rw [read_eq, read_eq, lookUp_relabel hm]
    exact (ofExcept (m.lookUp use)).ends m m' hm

theorem write (use : Occurrence) (v : Value) :
    P.Tracks id (RunM.write use v) (RunM.write (use.relabel P.labels) (v.relabel P.labels)) := by
  constructor
  · intro m
    unfold RunM.write
    cases target? m use <;> exact .refl m.out
  · intro m m' hm
    unfold RunM.write
    rw [target?_relabel hm]
    cases target? m use with
    | none => exact .error hm
    | some f =>
      refine .ok ⟨?_, hm.env, hm.depth, hm.table, hm.clock, hm.ticks, hm.out⟩
      show m'.store.define f use.name.text _ = _
      rw [hm.store, Store.relabel_define]

/-! ## Scopes, calls and the world -/

theorem withFrame (f : FrameId) {p : RunM α} {p' : RunM β} (hp : P.Tracks g p p') :
    P.Tracks g (RunM.withFrame f p) (RunM.withFrame f p') := by
  constructor
  · intro m
    have hinside := hp.grows { m with env := f }
    unfold RunM.withFrame
    cases hrun : p { m with env := f } <;> rw [hrun] at hinside <;> exact hinside
  · intro m m' hm
    have hentered : Machine.Paired P { m with env := f } { m' with env := f } :=
      ⟨hm.store, rfl, hm.depth, hm.table, hm.clock, hm.ticks, hm.out⟩
    have hback {n n' : Machine} (hn : n.Paired P n') :
        Machine.Paired P { n with env := m.env } { n' with env := m'.env } :=
      ⟨hn.store, hm.env, hn.depth, hn.table, hn.clock, hn.ticks, hn.out⟩
    unfold RunM.withFrame
    match p { m with env := f }, p' { m' with env := f }, hp.ends _ _ hentered with
    | _, _, .ok hn => exact .ok (hback hn)
    | _, _, .error hn => exact .error (hback hn)
    | .ok a n, _, .cut hcut => exact .cut hcut
    | .error halt n, _, .cut hcut => exact .cut hcut

theorem deeper {p : RunM α} {p' : RunM β} (hp : P.Tracks g p p') :
    P.Tracks g (RunM.deeper p) (RunM.deeper p') := by
  constructor
  · intro m
    have hinside := hp.grows { m with depth := m.depth + 1 }
    unfold RunM.deeper
    cases hrun : p { m with depth := m.depth + 1 } <;> rw [hrun] at hinside <;> exact hinside
  · intro m m' hm
    have hentered :
        Machine.Paired P { m with depth := m.depth + 1 } { m' with depth := m'.depth + 1 } :=
      ⟨hm.store, hm.env, congrArg (· + 1) hm.depth, hm.table, hm.clock, hm.ticks, hm.out⟩
    have hback {n n' : Machine} (hn : n.Paired P n') :
        Machine.Paired P { n with depth := n.depth - 1 } { n' with depth := n'.depth - 1 } :=
      ⟨hn.store, hn.env, congrArg (· - 1) hn.depth, hn.table, hn.clock, hn.ticks, hn.out⟩
    unfold RunM.deeper
    match p { m with depth := m.depth + 1 }, p' { m' with depth := m'.depth + 1 },
      hp.ends _ _ hentered with
    | _, _, .ok hn => exact .ok (hback hn)
    | _, _, .error hn => exact .error (hback hn)
    | .ok a n, _, .cut hcut => exact .cut hcut
    | .error halt n, _, .cut hcut => exact .cut hcut

theorem print (v : Value) : P.Tracks id (RunM.print v) (RunM.print (v.relabel P.labels)) := by
  constructor
  · intro m
    have hwrite := m.out.grows_write (v.text m.store ++ "\n")
    unfold RunM.print
    dsimp only
    split <;> exact hwrite
  · intro m m' hm
    unfold RunM.print
    rw [hm.store, Value.text_relabel]
    dsimp only
    rcases P.write (v.text m.store ++ "\n") hm.out with ⟨htaken, hout⟩ | ⟨hrefused, hcut⟩
    · have hn : Machine.Paired P { m with out := (m.out.write (v.text m.store ++ "\n")).2 }
          { m' with out := (m'.out.write (v.text m.store ++ "\n")).2 } :=
        ⟨hm.store, hm.env, hm.depth, hm.table, hm.clock, hm.ticks, hout⟩
      rw [hm.store] at hn
      rw [htaken]
      split
      · exact .ok hn
      · exact Ends.error (C := P.machines) (e := Halt.closed) hn
    · rw [hrefused]
      refine .cut ?_
      split <;> exact hcut

theorem readClock : P.Tracks (Value.relabel P.labels) RunM.readClock RunM.readClock := by
  constructor
  · intro m
    unfold RunM.readClock
    cases m.clock m.ticks <;> exact .refl m.out
  · intro m m' hm
    unfold RunM.readClock
    rw [hm.clock, hm.ticks]
    cases m.clock m.ticks with
    | none => exact .error hm
    | some reading =>
      exact .ok ⟨hm.store, hm.env, hm.depth, hm.table, rfl, rfl, hm.out⟩

end Tracks

/-! ## Operators and properties -/

theorem unary (sign : Lexeme) (op : TokenKind) (v : Value) :
    P.Tracks (Value.relabel P.labels) (op.applyUnary sign v)
      (op.applyUnary (sign.relabel P.labels) (v.relabel P.labels)) := by
  rcases op.inFront_or_fails with hop | hfails
  · cases hop with
    | not =>
      show P.Tracks _ (Pure.pure _) (Pure.pure (Value.bool !(v.relabel P.labels).isTruthy))
      rw [Value.isTruthy_relabel]
      exact .pure _
    | negate =>
      cases v with
      | number x => exact .pure _
      | _ => exact .fail _ _
  · rw [hfails, hfails]
    exact .fail _ _

theorem numberOperands (sign : Lexeme) (a b : Value) :
    P.Tracks id (Lox.numberOperands sign a b)
      (Lox.numberOperands (sign.relabel P.labels) (a.relabel P.labels) (b.relabel P.labels)) := by
  cases a with
  | number x =>
    cases b with
    | number y => exact .pure _
    | _ => exact .fail _ _
  | _ => exact .fail _ _

theorem addition (sign : Lexeme) (a b : Value) :
    P.Tracks (Value.relabel P.labels) (Lox.addition sign a b)
      (Lox.addition (sign.relabel P.labels) (a.relabel P.labels) (b.relabel P.labels)) := by
  cases a with
  | number x =>
    cases b with
    | number y => exact .pure _
    | _ => exact .fail _ _
  | string s =>
    cases b with
    | string t => exact .pure _
    | _ => exact .fail _ _
  | _ => exact .fail _ _

theorem binary (sign : Lexeme) (op : TokenKind) (a b : Value) :
    P.Tracks (Value.relabel P.labels) (op.applyBinary sign a b)
      (op.applyBinary (sign.relabel P.labels) (a.relabel P.labels) (b.relabel P.labels)) := by
  rcases op.inBetween_or_fails with ⟨rule, hop⟩ | hfails
  · cases hop with
    | add => exact addition sign a b
    | equal =>
      show P.Tracks _ (Pure.pure _) (Pure.pure (Value.bool _))
      rw [Value.equals_relabel]
      exact .pure _
    | notEqual =>
      show P.Tracks _ (Pure.pure _) (Pure.pure (Value.bool !_))
      rw [Value.equals_relabel]
      exact .pure _
    | _ => exact (numberOperands sign a b).bind fun _ => .pure _
  · rw [hfails, hfails]
    exact .fail _ _

theorem asInstance (at_ : Lexeme) (fault : RuntimeFault) (v : Value) :
    P.Tracks id (Lox.asInstance at_ fault v)
      (Lox.asInstance (at_.relabel P.labels) fault (v.relabel P.labels)) := by
  cases v with
  | «instance» i => exact .pure _
  | _ => exact .fail _ _

theorem bindMethod (method : Closure) (i : InstanceId) :
    P.Tracks (Closure.relabel P.labels) (make (·.bindMethod method i))
      (make (·.bindMethod (method.relabel P.labels) i)) := by
  refine .make (fun s => ?_) fun s => ?_
  · show { method.relabel P.labels with frame := (s.relabel P.labels).frames.size } = _
    rw [Store.size_relabel]
    rfl
  · exact (s.relabel_newFrame ⟨.single "this" (.instance i), some method.frame⟩).symm

theorem functionValue (closure : Closure) :
    P.Tracks (Value.relabel P.labels) (make (·.functionValue closure))
      (make (·.functionValue (closure.relabel P.labels))) :=
  .make (fun _ => rfl) fun _ => rfl

theorem boundMethod (method : Closure) (i : InstanceId) :
    P.Tracks (Value.relabel P.labels) (Lox.boundMethod method i)
      (Lox.boundMethod (method.relabel P.labels) i) :=
  (bindMethod method i).bind fun closure => functionValue closure

theorem readProperty (i : InstanceId) (property : Lexeme) :
    P.Tracks (Value.relabel P.labels) (Lox.readProperty i property)
      (Lox.readProperty i (property.relabel P.labels)) := by
  apply (Tracks.inspect fun s => s.field?_relabel i property.text).bind
  rintro (_ | v)
  · apply (Tracks.inspect fun s => s.method?_relabel i property.text).bind
    rintro (_ | method)
    · exact .fail _ _
    · exact boundMethod method i
  · exact .pure v

/-- Finding out what `super` means changes nothing. -/
theorem left_superBinding (keyword : Occurrence) (m : Machine) :
    left (Lox.superBinding keyword m) = m := by
  obtain ⟨body, hbody, hconstant⟩ : ∃ body : Machine → RunM (Class × InstanceId),
      Lox.superBinding keyword = get >>= body ∧ ∀ m, (body m).Constant fun _ => True := by
    refine ⟨_, rfl, fun m => ?_⟩
    split
    · exact .inr ⟨_, _, rfl⟩
    · dsimp only
      split
      · exact .inl ⟨_, rfl, trivial⟩
      · exact .inr ⟨_, _, rfl⟩
  rw [hbody]
  show left (body m m) = m
  rcases hconstant m with ⟨found, heq, _⟩ | ⟨at_, fault, heq⟩ <;> rw [heq] <;> rfl

theorem superBinding (keyword : Occurrence) :
    P.Tracks (fun found => (found.1.relabel P.labels, found.2)) (Lox.superBinding keyword)
      (Lox.superBinding (keyword.relabel P.labels)) := by
  constructor
  · intro m
    rw [left_superBinding]
    exact .refl m.out
  · intro m m' hm
    have hget (f : Machine → RunM (Class × InstanceId)) (n : Machine) : (get >>= f) n = f n n := rfl
    have hplace : m'.table[(keyword.relabel P.labels).id]? = m.table[keyword.id]? :=
      hm.table keyword.id
    unfold Lox.superBinding
    rw [hget, hget, hplace]
    cases m.table[keyword.id]? with
    | none => exact .error hm
    | some d =>
      dsimp only
      have hreceiver : (if d = 0 then none else m'.store.namedAt? m'.env (d - 1) "this") =
          (if d = 0 then none else m.store.namedAt? m.env (d - 1) "this").map
            (Value.relabel P.labels) := by
        rw [hm.store, hm.env, Store.namedAt?_relabel]
        split <;> rfl
      rw [hreceiver, hm.store, hm.env, Store.namedAt?_relabel]
      cases m.store.namedAt? m.env d "super" with
      | none => exact .error hm
      | some parent =>
        cases parent with
        | «class» parent =>
          cases (if d = 0 then none else m.store.namedAt? m.env (d - 1) "this") with
          | none => exact .error hm
          | some receiver =>
            cases receiver with
            | «instance» i => exact .ok hm
            | _ => exact .error hm
        | _ => exact .error hm

theorem superMethod (keyword : Occurrence) (method : Lexeme) :
    P.Tracks (Value.relabel P.labels) (Lox.superMethod keyword method)
      (Lox.superMethod (keyword.relabel P.labels) (method.relabel P.labels)) := by
  apply (superBinding keyword).bind
  rintro ⟨parent, i⟩
  dsimp only
  rw [Lexeme.relabel_text, Class.findMethod_relabel]
  cases parent.findMethod method.text with
  | none => exact .fail _ _
  | some found => exact boundMethod found i

/-! ## Expressions -/

/-- Calls follow each other, for every callee and all arguments. -/
def Calls (P : Pairing) (call call' : Invoke) : Prop :=
  ∀ f paren vs, P.Tracks (Value.relabel P.labels) (call f paren vs)
    (call' (f.relabel P.labels) (paren.relabel P.labels) (vs.map (Value.relabel P.labels)))

variable {call call' : Invoke}

mutual

/-- An expression is followed by the relabelled one. -/
theorem eval (hcall : P.Calls call call') (e : Expr) :
    P.Tracks (Value.relabel P.labels) (e.eval call) ((e.relabel P.labels).eval call') := by
  cases e with
  | literal value =>
    have hvalue := Tracks.pure (P := P) (g := Value.relabel P.labels) (Value.ofLiteral value)
    rw [Value.relabel_ofLiteral] at hvalue
    exact hvalue
  | grouping inner => exact eval hcall inner
  | unary op sign operand => exact (eval hcall operand).bind fun v => unary sign op v
  | binary op sign left right =>
    exact (eval hcall left).bind fun a => (eval hcall right).bind fun b => binary sign op a b
  | logical op sign left right =>
    refine (eval hcall left).bind fun a => ?_
    have hdecided : op.decidedBy (a.relabel P.labels) = op.decidedBy a := by
      cases op <;> simp [LogicalOp.decidedBy]
    rw [hdecided]
    split
    · exact .pure _
    · exact eval hcall right
  | name use => exact .read use
  | assign target value =>
    exact (eval hcall value).bind fun v => (Tracks.write target v).bind fun _ => .pure v
  | call callee paren arguments =>
    exact (eval hcall callee).bind fun f =>
      (listEval hcall arguments).bind fun vs => hcall f paren vs
  | get object property =>
    exact (eval hcall object).bind fun v =>
      (asInstance property _ v).bind fun i => readProperty i property
  | set object property value =>
    exact (eval hcall object).bind fun o => (asInstance property _ o).bind fun i =>
      (eval hcall value).bind fun v =>
        (Tracks.change fun s => (s.relabel_setField i property.text v).symm).bind fun _ => .pure v
  | this keyword => exact .read keyword
  | super keyword method => exact superMethod keyword method

theorem listEval (hcall : P.Calls call call') (es : List Expr) :
    P.Tracks (List.map (Value.relabel P.labels)) (Expr.listEval call es)
      (Expr.listEval call' (Expr.listRelabel P.labels es)) := by
  cases es with
  | nil => exact .pure _
  | cons e es =>
    exact (eval hcall e).bind fun v => (listEval hcall es).bind fun vs => .pure (v :: vs)

end

theorem optionEval (hcall : P.Calls call call') (e : Option Expr) :
    P.Tracks (Value.relabel P.labels) (Expr.optionEval call e)
      (Expr.optionEval call' (e.map (Expr.relabel P.labels))) := by
  cases e with
  | none => exact .pure _
  | some e => exact eval hcall e

/-! ## Statements -/

theorem whileLoop {condition condition' : RunM Bool} {body body' : RunM Flow}
    (hcondition : P.Tracks id condition condition')
    (hbody : P.Tracks (Flow.relabel P.labels) body body') (bound : Nat) :
    P.Tracks (Flow.relabel P.labels) (Lox.whileLoop condition body bound)
      (Lox.whileLoop condition' body' bound) := by
  induction bound with
  | zero => exact .throw _
  | succ bound ih =>
    refine hcondition.bind fun holds => ?_
    cases holds with
    | false => exact .pure _
    | true =>
      refine hbody.bind fun flow => ?_
      cases flow with
      | normal => exact ih
      | broken => exact .pure _
      | returned v => exact .pure _

theorem defineFunction (decl : FunctionDecl) :
    P.Tracks id (Lox.defineFunction decl) (Lox.defineFunction (decl.relabel P.labels)) := by
  refine .bindGet fun m m' henv _ => ?_
  rw [henv, FunctionDecl.relabel_name]
  exact (functionValue ⟨decl, m.env, false⟩).bind fun v => .define decl.name.text v

theorem superclassOf (superclass : Option Occurrence) :
    P.Tracks (Option.map (Class.relabel P.labels)) (Lox.superclassOf superclass)
      (Lox.superclassOf (superclass.map (Occurrence.relabel P.labels))) := by
  cases superclass with
  | none => exact .pure none
  | some use =>
    refine (Tracks.read use).bind fun v => ?_
    cases v with
    | «class» parent => exact .pure (some parent)
    | _ => exact .fail _ _

theorem methodFrame (parent : Option Class) :
    P.Tracks id (Lox.methodFrame parent)
      (Lox.methodFrame (parent.map (Class.relabel P.labels))) := by
  cases parent with
  | none =>
    refine .bindGet fun m m' henv _ => ?_
    rw [henv]
    exact .pure m.env
  | some parent =>
    refine .bindGet fun m m' henv _ => ?_
    rw [henv]
    exact .newFrame ⟨.single "super" (.class parent), some m.env⟩

theorem methodTable_relabel (r : Relabelling) (frame : FrameId) (methods : List FunctionDecl) :
    methodTable frame (FunctionDecl.listRelabel r methods) =
      (methodTable frame methods).map (Closure.relabel r) := by
  suffices hfold : ∀ table : Bindings Closure,
      (FunctionDecl.listRelabel r methods).foldl
          (fun table d => table.insert d.name.text ⟨d, frame, d.name.text = "init"⟩)
          (table.map (Closure.relabel r)) =
        (methods.foldl (fun table d => table.insert d.name.text ⟨d, frame, d.name.text = "init"⟩)
          table).map (Closure.relabel r) from
    hfold .empty
  induction methods with
  | nil => exact fun _ => rfl
  | cons d ds ih =>
    intro table
    have hinsert := table.map_insert (Closure.relabel r) d.name.text
      ⟨d, frame, d.name.text = "init"⟩
    rw [FunctionDecl.listRelabel, List.foldl_cons, List.foldl_cons, ← ih, hinsert]
    simp only [FunctionDecl.relabel_name, Lexeme.relabel_text, Closure.relabel]

theorem defineClass (name : Lexeme) (superclass : Option Occurrence)
    (methods : List FunctionDecl) :
    P.Tracks id (Lox.defineClass name superclass methods)
      (Lox.defineClass (name.relabel P.labels) (superclass.map (Occurrence.relabel P.labels))
        (FunctionDecl.listRelabel P.labels methods)) := by
  refine (superclassOf superclass).bind fun parent => (methodFrame parent).bind fun frame => ?_
  have hstamp : P.Tracks id (make Store.newStamp) (make Store.newStamp) :=
    .make (fun _ => rfl) fun _ => rfl
  refine hstamp.bind fun stamp => ?_
  have hvalue :
      (Value.class ⟨stamp, name.text, methodTable frame methods, parent⟩).relabel P.labels =
      .class ⟨stamp, name.text, methodTable frame (FunctionDecl.listRelabel P.labels methods),
        parent.map (Class.relabel P.labels)⟩ := by
    rw [methodTable_relabel, Value.relabel, Class.relabel_mk]
  have hdefine := Tracks.define (P := P) name.text
    (.class ⟨stamp, name.text, methodTable frame methods, parent⟩)
  rw [hvalue] at hdefine
  exact hdefine

mutual

/-- A statement is followed by the relabelled one. -/
theorem exec (hcall : P.Calls call call') (bound : Nat) (s : Stmt) :
    P.Tracks (Flow.relabel P.labels) (s.exec call bound)
      ((s.relabel P.labels).exec call' bound) := by
  match s with
  | .expression value => exact (eval hcall value).bind fun _ => .pure Flow.normal
  | .print value =>
    exact (eval hcall value).bind fun v => (Tracks.print v).bind fun _ => .pure Flow.normal
  | .var name initializer =>
    exact (optionEval hcall initializer).bind fun v =>
      (Tracks.define name.text v).bind fun _ => .pure Flow.normal
  | .block body =>
    refine .bindGet fun m m' henv _ => ?_
    rw [henv]
    exact (Tracks.newFrame ⟨.empty, some m.env⟩).bind fun frame =>
      .withFrame frame (listExec hcall bound body)
  | .ifElse condition yes none =>
    refine (eval hcall condition).bind fun v => ?_
    rw [Value.isTruthy_relabel]
    split
    · exact exec hcall bound yes
    · exact .pure Flow.normal
  | .ifElse condition yes (some no) =>
    refine (eval hcall condition).bind fun v => ?_
    rw [Value.isTruthy_relabel]
    split
    · exact exec hcall bound yes
    · exact exec hcall bound no
  | .while condition body =>
    refine whileLoop ((eval hcall condition).bind fun v => ?_) (exec hcall bound body) bound
    rw [Value.isTruthy_relabel]
    exact .pure _
  | .break keyword => exact .pure Flow.broken
  | .function decl => exact (defineFunction decl).bind fun _ => .pure Flow.normal
  | .return keyword value => exact (optionEval hcall value).bind fun v => .pure (Flow.returned v)
  | .class name superclass methods =>
    exact (defineClass name superclass methods).bind fun _ => .pure Flow.normal

theorem listExec (hcall : P.Calls call call') (bound : Nat) (ss : List Stmt) :
    P.Tracks (Flow.relabel P.labels) (Stmt.listExec call bound ss)
      (Stmt.listExec call' bound (Stmt.listRelabel P.labels ss)) := by
  match ss with
  | [] => exact .pure Flow.normal
  | s :: ss =>
    refine (exec hcall bound s).bind fun flow => ?_
    cases flow with
    | normal => exact listExec hcall bound ss
    | broken => exact .pure _
    | returned v => exact .pure _

end

/-! ## Calls -/

theorem checkArity (paren : Lexeme) (expected got : Nat) :
    P.Tracks id (Lox.checkArity paren expected got)
      (Lox.checkArity (paren.relabel P.labels) expected got) := by
  unfold Lox.checkArity
  split
  · exact .pure _
  · exact .fail _ _

theorem parameterVars_relabel (r : Relabelling) (parameters : List Lexeme) (vs : List Value) :
    parameterVars (parameters.map (Lexeme.relabel r)) (vs.map (Value.relabel r)) =
      (parameterVars parameters vs).map (Value.relabel r) := by
  suffices hfold : ∀ vars : Bindings Value,
      ((parameters.map (Lexeme.relabel r)).zip (vs.map (Value.relabel r))).foldl
          (fun vars p => vars.insert p.1.text p.2) (vars.map (Value.relabel r)) =
        ((parameters.zip vs).foldl (fun vars p => vars.insert p.1.text p.2) vars).map
          (Value.relabel r) from
    hfold .empty
  rw [List.zip_map]
  induction parameters.zip vs with
  | nil => exact fun _ => rfl
  | cons p ps ih =>
    intro vars
    rw [List.map_cons, List.foldl_cons, List.foldl_cons, ← ih, Bindings.map_insert]
    rfl

/-- What bodies do is followed by what relabelled ones do. -/
def Runs (P : Pairing) (run run' : List Stmt → RunM Flow) : Prop :=
  ∀ body, P.Tracks (Flow.relabel P.labels) (run body) (run' (Stmt.listRelabel P.labels body))

variable {run run' : List Stmt → RunM Flow}

theorem callClosure (hrun : P.Runs run run') (closure : Closure) (paren : Lexeme)
    (vs : List Value) :
    P.Tracks (Value.relabel P.labels) (Lox.callClosure run closure paren vs)
      (Lox.callClosure run' (closure.relabel P.labels) (paren.relabel P.labels)
        (vs.map (Value.relabel P.labels))) := by
  refine .bindGet fun m m' _ hdepth => ?_
  rw [hdepth]
  split
  · exact .fail _ _
  have hframe : P.Tracks id
      (make (·.newFrame ⟨parameterVars closure.decl.parameters vs, some closure.frame⟩))
      (make (·.newFrame ⟨parameterVars (closure.relabel P.labels).decl.parameters
        (vs.map (Value.relabel P.labels)), some (closure.relabel P.labels).frame⟩)) := by
    rw [Closure.relabel, FunctionDecl.relabel_parameters, parameterVars_relabel]
    exact .newFrame ⟨parameterVars closure.decl.parameters vs, some closure.frame⟩
  have hbody : P.Tracks (Flow.relabel P.labels) (run closure.decl.body)
      (run' (closure.relabel P.labels).decl.body) := by
    rw [Closure.relabel, FunctionDecl.relabel_body]
    exact hrun closure.decl.body
  refine hframe.bind fun frame => (Tracks.deeper (.withFrame frame hbody)).bind fun flow => ?_
  show P.Tracks _ (if closure.isInitializer then _ else _) (if closure.isInitializer then _ else _)
  split
  · refine .inspect fun s => ?_
    show ((s.relabel P.labels).own? closure.frame "this").getD .nil = _
    rw [Store.own?_relabel]
    cases s.own? closure.frame "this" <;> rfl
  · rw [Flow.result_relabel]
    exact .pure _

theorem instantiate (hrun : P.Runs run run') (cls : Class) (paren : Lexeme) (vs : List Value) :
    P.Tracks (Value.relabel P.labels) (Lox.instantiate run cls paren vs)
      (Lox.instantiate run' (cls.relabel P.labels) (paren.relabel P.labels)
        (vs.map (Value.relabel P.labels))) := by
  have hborn : P.Tracks id (make (·.newInstance cls))
      (make (·.newInstance (cls.relabel P.labels))) :=
    .make (fun s => Array.size_map) fun s => (s.relabel_newInstance cls).symm
  refine hborn.bind fun i => ?_
  rw [Class.findMethod_relabel]
  cases cls.findMethod "init" with
  | none => exact .pure (Value.instance i)
  | some init =>
    exact (bindMethod init i).bind fun closure =>
      (callClosure hrun closure paren vs).bind fun _ => .pure (Value.instance i)

theorem callValue (hrun : P.Runs run run') : P.Calls (Lox.callValue run) (Lox.callValue run') := by
  intro f paren vs
  cases f with
  | native name =>
    simp only [Value.relabel, Lox.callValue, List.length_map]
    exact (checkArity paren 0 vs.length).bind fun _ => .readClock
  | function closure stamp =>
    simp only [Value.relabel, Lox.callValue, List.length_map, Closure.relabel_arity]
    exact (checkArity paren closure.arity vs.length).bind fun _ => callClosure hrun closure paren vs
  | «class» cls =>
    simp only [Value.relabel, Lox.callValue, List.length_map, Class.relabel_arity]
    exact (checkArity paren cls.arity vs.length).bind fun _ => instantiate hrun cls paren vs
  | _ => exact .fail _ _

/-- Every call is followed by the relabelled one, however deep it may go. -/
theorem invoke (n : Nat) : P.Calls (Lox.invoke n) (Lox.invoke n) := by
  induction n with
  | zero => exact fun _ _ _ => .throw _
  | succ n ih => exact callValue fun body => listExec ih n body

/-! ## Whole trees -/

theorem evaluate (fuel : Nat) (e : Expr) :
    P.Tracks (Value.relabel P.labels) (Lox.evaluate fuel e)
      (Lox.evaluate fuel (e.relabel P.labels)) :=
  eval (invoke fuel) e

theorem execute (fuel : Nat) (s : Stmt) :
    P.Tracks (Flow.relabel P.labels) (Lox.execute fuel s)
      (Lox.execute fuel (s.relabel P.labels)) :=
  exec (invoke fuel) fuel s

theorem interpret (fuel : Nat) (program : List Stmt) :
    P.Tracks id (Lox.interpret fuel program)
      (Lox.interpret fuel (Stmt.listRelabel P.labels program)) :=
  (listExec (invoke fuel) fuel program).bind fun _ => .pure ()

end Pairing

end Lox
