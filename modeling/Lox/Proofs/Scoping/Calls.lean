/-
  Lox.Proofs.Scoping.Calls

  What a call has done.

    * `callClosure_ok`, `callClosure_of_ok` — where it went well, the body was run in a frame
      of its own, and how it ended decides what the call yields;
    * `invoke_function_cases`, `invoke_class_cases` — the arguments were counted, then the
      body was run, or an instance made and its initializer called;
    * `after_instantiate`, `after_invoke` — however it ended, nothing was done behind the
      initializer, and nothing depends on the line of the call.
-/
import Lox.Proofs.Scoping.Points

namespace Lox

open RunM

variable {m n : Machine} {k : Nat}

/-! ## Arguments -/

theorem checkArity_ok {paren : Lexeme} {expected got : Nat} {u : Unit}
    (h : checkArity paren expected got m = .ok u n) : expected = got ∧ n = m := by
  unfold checkArity at h
  split at h
  · next heq =>
    cases h
    exact ⟨heq, rfl⟩
  · cases h

theorem checkArity_of_eq (paren : Lexeme) {expected got : Nat} (h : expected = got) (m : Machine) :
    checkArity paren expected got m = .ok () m := by
  unfold checkArity
  rw [if_pos h]
  rfl

/-! ## Functions -/

/-- However the body of a closure ends, the call ends with a value, in the frame in which
    it began and one call further out than the body ended. -/
theorem callClosure_of_ok {run : List Stmt → RunM Flow} {closure : Closure} (paren : Lexeme)
    {vs : List Value} {flow : Flow} (hdepth : m.depth < maxDepth)
    (hbody : run closure.decl.body (m.enter closure vs) = .ok flow n) :
    callClosure run closure paren vs m =
      .ok (if closure.isInitializer then (n.store.own? closure.frame "this").getD .nil
        else flow.result) { n with env := m.env, depth := n.depth - 1 } := by
  -- The machine in which the frame of the call was made.
  let made := m.store.newFrame
    ⟨parameterVars closure.decl.parameters vs, some closure.frame⟩
  have hinside : deeper (withFrame made.1 (run closure.decl.body)) { m with store := made.2 } =
      .ok flow { n with env := m.env, depth := n.depth - 1 } :=
    deeper_of_ok (withFrame_of_ok hbody)
  have hshallow : ¬maxDepth ≤ m.depth := Nat.not_le.mpr hdepth
  refine (bind_of_ok (p := get) rfl _).trans ?_
  rw [if_neg hshallow]
  refine (bind_of_ok (p := make _) rfl _).trans ((bind_of_ok hinside _).trans ?_)
  cases closure.isInitializer <;> rfl

/-- A call of a closure ends with a value only if its body ended. -/
theorem callClosure_ok {run : List Stmt → RunM Flow} {closure : Closure} {paren : Lexeme}
    {vs : List Value} {v : Value} (h : callClosure run closure paren vs m = .ok v n) :
    ∃ flow n', run closure.decl.body (m.enter closure vs) = .ok flow n' ∧
      v = (if closure.isInitializer then (n'.store.own? closure.frame "this").getD .nil
        else flow.result) ∧
      n = { n' with env := m.env, depth := n'.depth - 1 } := by
  obtain ⟨m₀, m₁, hget, h⟩ := bind_ok h
  cases hget
  by_cases hdeep : maxDepth ≤ m.depth
  · rw [if_pos hdeep] at h
    cases h
  · rw [if_neg hdeep] at h
    obtain ⟨frame, m₁, hmade, h⟩ := bind_ok h
    cases hmade
    obtain ⟨flow, m₂, hinside, h⟩ := bind_ok h
    obtain ⟨m₃, hframed, rfl⟩ := deeper_ok hinside
    obtain ⟨n', hbody, rfl⟩ := withFrame_ok hframed
    refine ⟨flow, n', hbody, ?_⟩
    cases hinit : closure.isInitializer with
    | true =>
      rw [hinit, if_pos rfl] at h
      cases h
      exact ⟨rfl, rfl⟩
    | false =>
      rw [hinit, if_neg Bool.false_ne_true] at h
      cases h
      exact ⟨rfl, rfl⟩

/-- A call of a function that goes well has called its closure. -/
theorem invoke_function_cases {closure : Closure} {stamp : Nat} {paren : Lexeme} {vs : List Value}
    {v : Value} (h : invoke (k + 1) (.function closure stamp) paren vs m = .ok v n) :
    closure.arity = vs.length ∧
      callClosure (Stmt.listExec (invoke k) k) closure paren vs m = .ok v n := by
  obtain ⟨_, m₁, hchecked, h⟩ := bind_ok h
  obtain ⟨harity, hsame⟩ := checkArity_ok hchecked
  rw [hsame] at h
  exact ⟨harity, h⟩

/-! ## Classes -/

/-- Without an initializer a new instance is all that there is to make. -/
theorem instantiate_of_none (run : List Stmt → RunM Flow) {cls : Class}
    (h : cls.findMethod "init" = none) (paren : Lexeme) (vs : List Value) (m : Machine) :
    instantiate run cls paren vs m =
      .ok (.instance m.store.instances.size) { m with store := (m.store.newInstance cls).2 } := by
  unfold instantiate
  rw [h]
  rfl

/-- With an initializer, that of the new instance is called before the instance is
    yielded. -/
theorem instantiate_of_some (run : List Stmt → RunM Flow) {cls : Class} {init : Closure}
    (h : cls.findMethod "init" = some init) (paren : Lexeme) (vs : List Value) (m : Machine) :
    instantiate run cls paren vs m =
      (callClosure run (m.receive cls init).1 paren vs >>= fun _ =>
        pure (.instance m.store.instances.size)) (m.receive cls init).2 := by
  unfold instantiate
  rw [h]
  rfl

/-- However that call ends, nothing comes behind it. -/
theorem after_instantiate (run : List Stmt → RunM Flow) {cls : Class} {init : Closure}
    (h : cls.findMethod "init" = some init) (paren : Lexeme) (vs : List Value) (m : Machine) :
    (instantiate run cls paren vs).after m =
      (callClosure run (m.receive cls init).1 paren vs).after (m.receive cls init).2 := by
  have hyielded : (instantiate run cls paren vs).after m =
      (callClosure run (m.receive cls init).1 paren vs >>= fun _ =>
        pure (Value.instance m.store.instances.size)).after (m.receive cls init).2 := by
    unfold RunM.after
    rw [instantiate_of_some _ h]
  exact hyielded.trans (after_bind_pure _ _ _)

/-- A call of a class that goes well yields the instance that it makes, behind a call of the
    initializer that goes well if there is one. -/
theorem invoke_class_cases {cls : Class} {paren : Lexeme} {vs : List Value} {v : Value}
    (h : invoke (k + 1) (.class cls) paren vs m = .ok v n) :
    cls.arity = vs.length ∧ v = .instance m.store.instances.size ∧
      (cls.findMethod "init" = none ∧ n = { m with store := (m.store.newInstance cls).2 } ∨
        ∃ init w, cls.findMethod "init" = some init ∧
          callClosure (Stmt.listExec (invoke k) k) (m.receive cls init).1 paren vs
            (m.receive cls init).2 = .ok w n) := by
  obtain ⟨_, m₁, hchecked, h⟩ := bind_ok h
  obtain ⟨harity, hsame⟩ := checkArity_ok hchecked
  rw [hsame] at h
  cases hinit : cls.findMethod "init" with
  | none =>
    rw [instantiate_of_none _ hinit] at h
    cases h
    exact ⟨harity, rfl, .inl ⟨rfl, rfl⟩⟩
  | some init =>
    rw [instantiate_of_some _ hinit] at h
    obtain ⟨w, n', hcalled, hyield⟩ := bind_ok h
    cases hyield
    exact ⟨harity, rfl, .inr ⟨init, w, rfl, hcalled⟩⟩

/-- The step from a call of a class to the body of its initializer. -/
theorem Point.Step.receive {cls : Class} {init : Closure}
    (hinit : cls.findMethod "init" = some init) {vs : List Value}
    (harity : cls.arity = vs.length) (hdepth : (m.receive cls init).2.depth < maxDepth) :
    Point.Step ⟨k + 1, .call (.class cls) vs, m⟩ ⟨k, .stmts (m.receive cls init).1.decl.body,
      (m.receive cls init).2.enter (m.receive cls init).1 vs⟩ := by
  refine .initializer hinit rfl ?_ hdepth
  rw [← harity, Class.arity, hinit]
  rfl

/-! ## Lines of calls -/

section

variable (paren paren' : Lexeme) (vs : List Value) (m : Machine)

theorem after_checkArity {expected got : Nat} {rest rest' : RunM Value}
    (hrest : rest.after m = rest'.after m) :
    (checkArity paren expected got >>= fun _ => rest).after m =
      (checkArity paren' expected got >>= fun _ => rest').after m := by
  by_cases harity : expected = got
  · rw [after_bind_of_ok (checkArity_of_eq paren harity m),
      after_bind_of_ok (checkArity_of_eq paren' harity m), hrest]
  · unfold checkArity
    rw [if_neg harity, if_neg harity]
    rfl

theorem after_callClosure (run : List Stmt → RunM Flow) (closure : Closure) :
    (callClosure run closure paren vs).after m = (callClosure run closure paren' vs).after m := by
  unfold callClosure
  rw [after_bind_of_ok (p := get) rfl, after_bind_of_ok (p := get) rfl]
  by_cases hdeep : maxDepth ≤ m.depth
  · rw [if_pos hdeep, if_pos hdeep]
    rfl
  · rw [if_neg hdeep, if_neg hdeep]

/-- The line of a call shows in its failures only. -/
theorem after_invoke (k : Nat) (callee : Value) :
    (invoke k callee paren vs).after m = (invoke k callee paren' vs).after m := by
  cases k with
  | zero => rfl
  | succ k =>
    cases callee with
    | native name => exact after_checkArity paren paren' m rfl
    | function closure stamp =>
      exact after_checkArity paren paren' m (after_callClosure paren paren' vs m _ closure)
    | «class» cls =>
      refine after_checkArity paren paren' m ?_
      cases hinit : cls.findMethod "init" with
      | none =>
        unfold RunM.after
        rw [instantiate_of_none _ hinit, instantiate_of_none _ hinit]
      | some init =>
        rw [after_instantiate _ hinit, after_instantiate _ hinit]
        exact after_callClosure paren paren' vs _ _ _
    | _ => rfl

end

end Lox
