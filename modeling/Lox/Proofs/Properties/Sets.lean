/-
  Lox.Proofs.Properties.Sets

  At every point of a run the fields are what the sets so far have made of them.

    * `Machine.Through` — points come up and end one after the other, and no field is set
      between them;
    * `Point.Leaves.through` — so do the parts of a point, and behind them it does what it
      does of its own;
    * `Point.Leaves.wrote`, `Point.Comes.wrote` — by induction on points, the fields where a
      point ends, and where another one comes up in it.
-/
import Lox.Proofs.Grounding.Points
import Lox.Proofs.Properties.Logs

namespace Lox

open RunM

variable {p q r : Point} {m n l : Machine} {log rest : List FieldSet}

/-! ## From part to part -/

/-- From the first machine the points come up and end one after the other, up to the last
    machine, and between them no field is set. -/
inductive Machine.Through : Machine → List Point → Machine → Prop
  | done {a c : Machine} : a.SameFields c → Through a [] c
  | part {a b c : Machine} {q : Point} {qs : List Point} :
      a.SameFields q.machine → q.Leaves b → Through b qs c → Through a (q :: qs) c

namespace Machine.Through

variable {α β : Type} {x : RunM α} {f : α → RunM β} {k : Nat} {task : Task} {qs : List Point}

/-- Behind a part there are others, if it goes well. -/
theorem bind {next : α → Machine → List Point} (hx : Point.Leaves ⟨k, task, m⟩ (x.after m))
    (hf : ∀ a n, x m = .ok a n → Through n (next a n) ((f a).after n)) :
    Through m (⟨k, task, m⟩ :: x.behind m next) ((x >>= f).after m) := by
  refine .part (.refl m) hx ?_
  cases hrun : x m with
  | ok a n =>
    rw [after_of_ok hrun, behind_of_ok hrun, after_bind_of_ok hrun]
    exact hf a n hrun
  | error halt n =>
    rw [after_of_error hrun, behind_of_error hrun, after_bind_of_error hrun]
    exact .done (.refl n)

/-- Behind the only part no field is set. -/
theorem only (hx : Point.Leaves ⟨k, task, m⟩ (x.after m)) (hf : ∀ a, SetsNothing (f a)) :
    Through m [⟨k, task, m⟩] ((x >>= f).after m) :=
  .part (.refl m) hx (.done (SetsNothing.behind hf m))

/-- The part is a look-up, and no field is set. -/
theorem look {use : Use} (hx : SetsNothing x) : Through m [⟨k, .look use, m⟩] (x.after m) :=
  .part (.refl m) rfl (.done (hx m))

/-- There are no parts, and no field is set. -/
theorem none (hx : SetsNothing x) : Through m [] (x.after m) := .done (hx m)

/-- The way may begin at an earlier machine with the same fields. -/
theorem since (hmn : m.SameFields n) (h : Through n qs l) : Through m qs l := by
  cases h with
  | done hsame => exact .done (hmn.same hsame)
  | part hsame hq hrest => exact .part (hmn.same hsame) hq hrest

/-- An action without parts comes first, and goes well. -/
theorem first {a : α} (hx : x m = .ok a n) (hmn : m.SameFields n)
    (h : Through n qs ((f a).after n)) : Through m qs ((x >>= f).after m) := by
  rw [after_bind_of_ok hx]
  exact h.since hmn

end Machine.Through

open Machine (Through)

/-- A field of an instance is set behind the instance and the value. -/
theorem Expr.through_set {k : Nat} {object value : Expr} {property : Lexeme} {i : InstanceId}
    (hm : m.Grounded) (he : (Expr.set object property value).Proper)
    (hheld : object.eval (invoke k) m = .ok (.instance i) n) :
    ∃ l, Through m ((Expr.set object property value).parts k m) l ∧
      l.Wrote (Point.own ⟨k, .expr (.set object property value), m⟩)
        (((Expr.set object property value).eval (invoke k)).after m) := by
  have hparts : (Expr.set object property value).parts k m =
      [⟨k, .expr object, m⟩, ⟨k, .expr value, n⟩] := by
    simp only [Expr.parts, behind_of_ok hheld]
  have hown : Point.own ⟨k, .expr (.set object property value), m⟩ =
      (value.eval (invoke k)).behind n fun v _ => [⟨i, property.text, v⟩] :=
    behind_of_ok hheld
  have hafter : ((Expr.set object property value).eval (invoke k)).after m =
      (value.eval (invoke k) >>= fun v =>
        change (·.setField i property.text v) >>= fun _ => pure v).after n :=
    after_bind_of_ok hheld
  obtain ⟨hgoes, hi⟩ := (object.grounds (invoke_grounds k) he.1 hm).ok hheld
  have hvalue := value.grounds (invoke_grounds k) he.2 (hgoes.grounded hm)
  rw [hparts, hown, hafter]
  refine ⟨(value.eval (invoke k)).after n,
    .part (.refl m) (after_of_ok hheld).symm (.part (.refl n) rfl (.done (.refl _))), ?_⟩
  cases hstored : value.eval (invoke k) n with
  | error halt l =>
    rw [behind_of_error hstored, after_of_error hstored, after_bind_of_error hstored]
    exact Machine.SameFields.refl l
  | ok v l =>
    rw [behind_of_ok hstored, after_of_ok hstored, after_bind_of_ok hstored]
    have honward := (hvalue.ok hstored).1.store.onward
    exact l.wrote_setField (Nat.lt_of_lt_of_le hi honward.instances) property.text v

/-- A set expression sets the field behind its parts, and other ones set none. -/
theorem Expr.through {k : Nat} (e : Expr) (m : Machine) (hm : m.Grounded) (he : e.Proper) :
    ∃ l, Through m (e.parts k m) l ∧
      l.Wrote (Point.own ⟨k, .expr e, m⟩) ((e.eval (invoke k)).after m) := by
  have whole {e : Expr} (hown : Point.own ⟨k, .expr e, m⟩ = [])
      (h : Through m (e.parts k m) ((e.eval (invoke k)).after m)) :
      ∃ l, Through m (e.parts k m) l ∧
        l.Wrote (Point.own ⟨k, .expr e, m⟩) ((e.eval (invoke k)).after m) := by
    rw [hown]
    exact ⟨_, h, Machine.SameFields.refl _⟩
  cases e with
  | literal value => exact whole rfl (.done (.refl m))
  | grouping inner => exact whole rfl (.part (.refl m) rfl (.done (.refl _)))
  | unary op sign operand =>
    exact whole rfl (.only rfl fun v => .constant (op.unary_constant sign v))
  | binary op sign left right =>
    refine whole rfl (.bind rfl fun a n _ => .only rfl fun b => ?_)
    exact .constant (op.binary_constant sign a b)
  | logical op sign left right =>
    refine whole rfl (.bind rfl fun a n _ => ?_)
    cases op.decidedBy a with
    | true => exact .done (.refl n)
    | false => exact .part (.refl n) rfl (.done (.refl _))
  | name use => exact whole rfl (.look (.read use))
  | assign target value =>
    exact whole rfl (.bind rfl fun v n _ => .look (.bind (.write target v) fun _ => .pure v))
  | call callee paren arguments =>
    refine whole rfl (.bind rfl fun f n _ => .bind rfl fun vs n' _ => ?_)
    exact .part (.refl n') ⟨paren, rfl⟩ (.done (.refl _))
  | get object property =>
    refine whole rfl (.only rfl fun o => .bind (.constant (asInstance_constant _ _ o)) fun i => ?_)
    exact .readProperty i property
  | set object property value =>
    cases hheld : object.eval (invoke k) m with
    | error halt m₁ =>
      refine whole (behind_of_error hheld) (.bind rfl fun o n hrun => ?_)
      rw [hheld] at hrun
      cases hrun
    | ok o m₁ =>
      cases o with
      | «instance» i => exact Expr.through_set hm he hheld
      | _ =>
        -- What is no instance is refused, and the value is not asked for.
        refine whole (behind_of_ok hheld) (.bind rfl fun o n hrun => ?_)
        rw [hheld] at hrun
        cases hrun
        exact .done (.refl m₁)
  | this keyword => exact whole rfl (.look (.read keyword))
  | super keyword method => exact whole rfl (.look (.superMethod keyword method))

theorem store_after_withFrame {α : Type} (f : FrameId) (x : RunM α) (m : Machine) :
    ((withFrame f x).after m).store = (x.after { m with env := f }).store := by
  unfold RunM.after withFrame
  cases x { m with env := f } <;> rfl

theorem store_after_deeper {α : Type} (x : RunM α) (m : Machine) :
    ((deeper x).after m).store = (x.after { m with depth := m.depth + 1 }).store := by
  unfold RunM.after deeper
  cases x { m with depth := m.depth + 1 } <;> rfl

theorem Machine.SameFields.of_store (h : n.store = m.store) : m.SameFields n :=
  .of_fields fun _ _ => by rw [h]

/-- Statements set nothing but in their parts. -/
theorem Stmt.through (k : Nat) (s : Stmt) (m : Machine) :
    Through m (s.parts k m) ((s.exec (invoke k) k).after m) := by
  match s with
  | .expression value => exact .only rfl fun _ => .pure _
  | .print value => exact .only rfl fun v => .bind (.print v) fun _ => .pure _
  | .var name none =>
    exact .none (.bind (.pure _) fun v => .bind (.define _ v) fun _ => .pure _)
  | .var name (some value) => exact .only rfl fun v => .bind (.define _ v) fun _ => .pure _
  | .block body =>
    refine .part (.of_fields fun _ _ => rfl) rfl (.done (.of_store ?_))
    exact store_after_withFrame m.inBlock.env (Stmt.listExec (invoke k) k body)
      { m with store := m.inBlock.store }
  | .ifElse condition yes none =>
    refine .bind rfl fun v n _ => ?_
    cases v.isTruthy with
    | true => exact .part (.refl n) rfl (.done (.refl _))
    | false => exact .done (.refl n)
  | .ifElse condition yes (some no) =>
    refine .bind rfl fun v n _ => ?_
    cases v.isTruthy with
    | true => exact .part (.refl n) rfl (.done (.refl _))
    | false => exact .part (.refl n) rfl (.done (.refl _))
  | .while condition body => exact .part (.refl m) rfl (.done (.refl _))
  | .break keyword => exact .done (.refl m)
  | .function decl =>
    exact .none (.bind (.defineFunction decl) fun _ => .pure _)
  | .return keyword none =>
    exact .none (.bind (.pure _) fun v => .pure _)
  | .return keyword (some value) => exact .only rfl fun v => .pure _
  | .class name none methods =>
    exact .none (.bind (.defineClass name none methods) fun _ => .pure _)
  | .class name (some use) methods =>
    exact .look (.bind (.defineClass name (some use) methods) fun _ => .pure _)

/-- A round sets nothing but in the condition, the body and the rounds behind it. -/
theorem Machine.Through.round {k : Nat} (condition : Expr) (body : Stmt) (left : Nat)
    (m : Machine) : Through m (Point.parts ⟨k, .rounds condition body left, m⟩)
      ((whileLoop (do return (← condition.eval (invoke k)).isTruthy)
        (body.exec (invoke k) k) left).after m) := by
  cases left with
  | zero => exact .done (.refl m)
  | succ left =>
    rw [whileLoop, bind_assoc]
    refine .bind rfl fun v n _ => ?_
    rw [pure_bind]
    cases v.isTruthy with
    | false => exact .done (.refl n)
    | true =>
      refine .bind rfl fun flow n' _ => ?_
      cases flow with
      | normal => exact .part (.refl n') rfl (.done (.refl _))
      | _ => exact .done (.refl n')

/-- A call of a closure sets nothing but in the body. -/
theorem Closure.through {closure : Closure} {k : Nat} {vs : List Value} (paren : Lexeme)
    (harity : closure.arity = vs.length) (m : Machine) :
    Through m (closure.parts k vs m)
      ((callClosure (Stmt.listExec (invoke k) k) closure paren vs).after m) := by
  unfold Closure.parts callClosure
  by_cases hdeep : maxDepth ≤ m.depth
  · rw [if_neg fun h => Nat.not_le.mpr h.2 hdeep]
    refine .first (x := get) rfl (.refl m) ?_
    rw [if_pos hdeep]
    exact .done (.refl m)
  · rw [if_pos ⟨harity, Nat.not_le.mp hdeep⟩]
    refine .first (x := get) rfl (.refl m) ?_
    rw [if_neg hdeep]
    refine .part (.of_fields fun _ _ => rfl) rfl (.done ?_)
    -- The call goes back to its frame and depth, and may look up the receiver.
    have hinside : ((Stmt.listExec (invoke k) k closure.decl.body).after
        (m.enter closure vs)).SameFields
          ((deeper (withFrame m.store.frames.size
            (Stmt.listExec (invoke k) k closure.decl.body))).after
              { m with store := (m.enter closure vs).store }) := by
      refine .of_store ?_
      rw [store_after_deeper, store_after_withFrame]
      rfl
    refine hinside.same (SetsNothing.behind (fun flow => ?_) _)
    split
    · exact fun n => .refl n
    · exact .pure _

/-- A call sets nothing but in the body. -/
theorem Value.through (k : Nat) (f : Value) (paren : Lexeme) (vs : List Value) (m : Machine) :
    Through m (f.parts k vs m) ((invoke (k + 1) f paren vs).after m) := by
  have counted {expected : Nat} {qs : List Point} {x : RunM Value}
      (hequal : expected = vs.length → Through m qs (x.after m))
      (hother : expected ≠ vs.length → qs = []) :
      Through m qs ((checkArity paren expected vs.length >>= fun _ => x).after m) := by
    by_cases harity : expected = vs.length
    · exact .first (checkArity_of_eq paren harity m) (.refl m) (hequal harity)
    · rw [hother harity, checkArity, if_neg harity]
      exact .done (.refl m)
  cases f with
  | native name => exact counted (fun _ => .none .readClock) fun _ => rfl
  | function closure stamp =>
    refine counted (fun harity => closure.through paren harity m) fun harity => ?_
    exact if_neg fun h => harity h.1
  | «class» cls =>
    have hborn : m.SameFields { m with store := (m.store.newInstance cls).2 } :=
      .of_fields (m.store.sameFields_newInstance cls)
    cases hinit : cls.findMethod "init" with
    | none =>
      simp only [Value.parts, hinit]
      refine counted (fun _ => ?_) fun _ => rfl
      rw [after_of_ok (instantiate_of_none _ hinit paren vs m)]
      exact .done hborn
    | some init =>
      simp only [Value.parts, hinit]
      have hcounted : cls.arity = (m.receive cls init).1.arity := by
        rw [Class.arity, hinit]
        rfl
      refine counted (fun harity => ?_) fun harity => if_neg fun h => harity (hcounted.trans h.1)
      show Through m _ ((instantiate (Stmt.listExec (invoke k) k) cls paren vs).after m)
      rw [after_instantiate _ hinit]
      have hcalled := (m.receive cls init).1.through (k := k) paren (hcounted.symm.trans harity)
        (m.receive cls init).2
      exact hcalled.since (.of_fields (m.store.sameFields_newInstance cls))
  | _ => exact .done (.refl m)

/-- From where a point comes up to where it ends, its parts come up and end one after the
    other, and behind them it does what it does of its own. -/
theorem Point.Leaves.through (h : p.Leaves n) (hp : p.Grounded) :
    ∃ l, Through p.machine p.parts l ∧ l.Wrote p.own n := by
  have whole (hown : p.own = []) (hthrough : Through p.machine p.parts n) :
      ∃ l, Through p.machine p.parts l ∧ l.Wrote p.own n := by
    rw [hown]
    exact ⟨n, hthrough, Machine.SameFields.refl n⟩
  obtain ⟨hm, htask⟩ := hp
  match p with
  | ⟨k, .expr e, m⟩ =>
    cases h
    exact Expr.through e m hm htask
  | ⟨k, .exprs [], m⟩ =>
    cases h
    exact whole rfl (.none (.pure _))
  | ⟨k, .exprs (e :: es), m⟩ =>
    cases h
    exact whole rfl (.bind rfl fun v n _ => .only rfl fun vs => .pure _)
  | ⟨k, .stmt s, m⟩ =>
    cases h
    exact whole rfl (s.through k m)
  | ⟨k, .stmts [], m⟩ =>
    cases h
    exact whole rfl (.none (.pure _))
  | ⟨k, .stmts (s :: ss), m⟩ =>
    cases h
    refine whole rfl (.bind rfl fun flow n _ => ?_)
    cases flow with
    | normal => exact .part (.refl n) rfl (.done (.refl _))
    | _ => exact .done (.refl n)
  | ⟨k, .rounds condition body left, m⟩ =>
    cases h
    exact whole rfl (.round condition body left m)
  | ⟨0, .call f vs, m⟩ =>
    obtain ⟨paren, rfl⟩ := h
    exact whole rfl (.done (.refl _))
  | ⟨k + 1, .call f vs, m⟩ =>
    obtain ⟨paren, rfl⟩ := h
    exact whole rfl (f.through k paren vs m)
  | ⟨k, .look use, m⟩ =>
    cases h
    exact whole rfl (.done (.refl _))

/-! ## What a run has set -/

/-- Whatever is to be done at a point ends somewhere, be it well or not. -/
theorem Point.exists_leaves (p : Point) : ∃ n, p.Leaves n := by
  obtain ⟨k, task, m⟩ := p
  cases task with
  | call f vs => exact ⟨_, ⟨"", 0⟩, rfl⟩
  | _ => exact ⟨_, rfl⟩

/-- If it is so in the parts, the fields on the way are what the parts before have made of
    them. -/
theorem Machine.Through.wrote {before later : List Point}
    (h : Through m (before ++ later) l)
    (hparts : ∀ q ∈ before, ∀ n, q.Leaves n → q.machine.Wrote q.sets n) :
    ∃ n, m.Wrote (before.flatMap Point.sets) n ∧ Through n later l := by
  induction before generalizing m with
  | nil => exact ⟨m, Machine.SameFields.refl m, h⟩
  | cons q before ih =>
    cases h with
    | part hsame hq hrest =>
      obtain ⟨hfirst, hothers⟩ := List.forall_mem_cons.mp hparts
      obtain ⟨n, hwrote, hlater⟩ := ih hrest hothers
      have hset := hsame.trans (hfirst _ hq)
      exact ⟨n, hset.trans hwrote, hlater⟩

/-- Where a point ends, the fields are what the sets in the course of it have made of
    them. -/
theorem Point.Leaves.wrote (h : p.Leaves n) (hp : p.Grounded) : p.machine.Wrote p.sets n := by
  induction p using Point.induction generalizing n with
  | h p ih =>
    obtain ⟨l, hthrough, hown⟩ := h.through hp
    have hparts (q : Point) (hq : q ∈ p.parts) (n : Machine) (hn : q.Leaves n) :
        q.machine.Wrote q.sets n := by
      have hstep := Point.mem_parts.mp hq
      exact ih q hstep hn (hp.step hstep).1
    -- No part is left behind all of them, only what the point sets of its own.
    rw [← List.append_nil p.parts] at hthrough
    obtain ⟨n', hwrote, hrest⟩ := hthrough.wrote hparts
    cases hrest with
    | done hsame =>
      rw [Point.sets_eq]
      exact (hwrote.same hsame).trans hown

/-- Where a point comes up, the fields are what the sets before have made of them. -/
theorem Point.Comes.wrote (h : p.Comes log q) (hp : p.Grounded) :
    p.machine.Wrote log q.machine := by
  induction h with
  | here => exact Machine.SameFields.refl _
  | @inside p q r before later log hparts _ ih =>
    obtain ⟨n, hn⟩ := p.exists_leaves
    obtain ⟨l, hthrough, -⟩ := hn.through hp
    have hstep (q : Point) (hq : q ∈ p.parts) : q.Grounded :=
      (hp.step (Point.mem_parts.mp hq)).1
    rw [hparts] at hthrough hstep
    obtain ⟨n', hwrote, hlater⟩ := hthrough.wrote fun q hq n hn =>
      hn.wrote (hstep q (List.mem_append_left _ hq))
    -- Of the parts that are left the first one is that in which the point comes up.
    cases hlater with
    | part hsame _ _ =>
      exact (hwrote.same hsame).trans (ih (hstep q (List.mem_append_right _ List.mem_cons_self)))

end Lox
