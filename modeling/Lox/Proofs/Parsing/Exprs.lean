/-
  Lox.Proofs.Parsing.Exprs

  The rules for expressions side by side: with anything beyond the bounds on the one
  hand, and as they are in the parser on the other.

    * `Gathered` — what the two runs have read so far, the second one perhaps after
      something else;
    * `coupled_chain`, `coupled_suffixes`, `coupled_argumentsFrom` — repetitions;
    * `coupled_operation`, `coupled_expression` — operations and whole expressions.

  The bound of the first run has to exceed the number of tokens left.  That of the
  second one may also be that number itself, as where nothing is left a rule that has
  used up its bound does the same as one that has not.
-/
import Lox.Proofs.Parsing.Beyond
import Lox.Proofs.Parsing.Coupling

namespace Lox

/-- What two runs have read so far, the second one after `before`. -/
def Gathered {α : Type} (rel : α → α → Prop) (before : List α) (a a' : Array α) : Prop :=
  ∃ read, a'.toList = before ++ read ∧ List.Forall₂ rel a.toList read

namespace Gathered

variable {α : Type} {rel : α → α → Prop} {before : List α} {a a' : Array α}

theorem empty : Gathered rel [] (#[] : Array α) #[] := ⟨[], rfl, .nil⟩

theorem forall₂ (h : Gathered rel [] a a') : List.Forall₂ rel a.toList a'.toList := by
  obtain ⟨read, hread, hrel⟩ := h
  rwa [hread]

theorem size_eq (h : Gathered rel [] a a') : a'.size = a.size := h.forall₂.length_eq.symm

theorem push (h : Gathered rel before a a') {x x' : α} (hx : rel x x') :
    Gathered rel before (a.push x) (a'.push x') := by
  obtain ⟨read, hread, hrel⟩ := h
  refine ⟨read ++ [x'], ?_, ?_⟩
  · rw [Array.toList_push, hread, List.append_assoc]
  · rw [Array.toList_push]
    exact List.rel_append hrel (.cons hx .nil)

end Gathered

namespace Parser

variable {L : Likeness} {C : Places L} {x : Beyond} {n bound bound' : Nat}

/-! ## The end of a text -/

/-- Where nothing is left, a repetition of signs goes on no more than one that has used up
    its bound. -/
theorem coupled_takeEnd {α γ : Type} {rel : α → α → Prop} {select : TokenKind → Option γ}
    {f : Option (γ × Token) → Parser α} {a a' : α} (hf : f none = pure a) (h : rel a a') :
    Coupled C C.here C.here 0 1 rel (take? select >>= f) (pure a') := by
  intro s s' hs hlt
  have hrest : s.rest = [] := List.length_eq_zero_iff.mp (Nat.lt_one_iff.mp hlt)
  have hrun : (take? select >>= f) s = .ok a s := by
    show EStateM.bind (take? select) f s = _
    simp only [EStateM.bind, take?, hrest, hf]
    rfl
  rw [hrun]
  exact .ok hs h (Nat.le_refl _)

section

variable {s : ParseState} (hrest : s.rest = []) (hending : s.ending.kind = .eof)
include hrest hending

theorem primary_end (expression : Parser Expr) :
    primary expression s = .error (diagnostic s.current .expression) s := by
  have hcurrent : s.current = s.ending := by rw [ParseState.current, hrest]; rfl
  have hkind : s.current.kind = .eof := by rw [hcurrent, hending]
  unfold primary
  show EStateM.bind peek _ s = _
  simp only [EStateM.bind, peek, hkind]
  rfl

omit hrest hending in
theorem Beyond.level_error {α : Type} {select : TokenKind → Option α}
    {node : α → Lexeme → Expr → Expr → Expr} {operand : Parser Expr} {d : Diagnostic}
    (h : operand s = .error d s) : x.level select node bound operand s = .error d s := by
  show EStateM.bind operand _ s = _
  rw [EStateM.bind, h]

theorem Beyond.operation_end (expression : Parser Expr) :
    x.operation (bound + 1) expression s = .error (diagnostic s.current .expression) s := by
  have hprimary := primary_end hrest hending expression
  unfold Beyond.operation
  iterate 6 refine level_error ?_
  show EStateM.bind (x.unaryOps (bound + 1) []) _ s = _
  have hops : x.unaryOps (bound + 1) [] s = .ok [] s := by
    show EStateM.bind (take? unaryOp) _ s = _
    simp only [EStateM.bind, take?, hrest]
    rfl
  simp only [EStateM.bind, hops]
  show EStateM.bind (EStateM.bind (primary expression) _) _ s = _
  simp only [EStateM.bind, hprimary]

/-- Where nothing is left, no expression is read. -/
theorem Beyond.expressionWithin_end :
    x.expressionWithin (bound + 1) s = .error (diagnostic s.current .expression) s := by
  show EStateM.bind (x.operation (bound + 1) (x.expressionWithin bound)) _ s = _
  simp only [EStateM.bind, operation_end hrest hending]

end

/-! ## Levels -/

/-- A node of an operator. -/
def NodeLaw (L : Likeness) {γ : Type} (node : γ → Lexeme → Expr → Expr → Expr) : Prop :=
  ∀ op {g g' a a' b b'}, L.sign g g' → L.expr a a' → L.expr b b' →
    L.expr (node op g a b) (node op g' a' b')

section

variable {γ : Type} {select : TokenKind → Option γ} {node : γ → Lexeme → Expr → Expr → Expr}
  (hname : select .identifier = none) (hsemicolon : select (.symbol .semicolon) = none)
  (hnode : NodeLaw L node) {operand operand' : Parser Expr}
include hname hsemicolon hnode

theorem coupled_chain (hoperand : Coupled C C.here C.here 0 n L.expr operand operand')
    (hbound : n ≤ bound) (hbound' : n ≤ bound' + 1) {left left' : Expr}
    (hleft : L.expr left left') :
    Coupled C C.here C.here 0 n L.expr (x.chain select node operand bound left)
      (chain select node operand' bound' left') := by
  induction n generalizing bound bound' left left' with
  | zero => exact .none
  | succ n ih =>
    obtain ⟨bound, rfl⟩ := Nat.exists_eq_add_one_of_ne_zero (by omega : bound ≠ 0)
    cases bound' with
    | zero =>
      -- No token is left, so there is no operator either.
      obtain rfl : n = 0 := by omega
      exact coupled_takeEnd rfl hleft
    | succ bound' =>
      have hshorter := hoperand.shorter (Nat.le_succ n)
      refine .bindTake select hname hsemicolon (Nat.le_refl _) (.pure hleft) fun op t t' ht => ?_
      exact hshorter.bind fun right right' hright =>
        ih hshorter (by omega) (by omega) (hnode op ht hleft hright)

variable (select node) in
theorem coupled_level (hoperand : Coupled C C.here C.here 0 n L.expr operand operand')
    (hbound : n ≤ bound) (hbound' : n ≤ bound' + 1) :
    Coupled C C.here C.here 0 n L.expr (x.level select node bound operand)
      (level select node bound' operand') :=
  hoperand.bind fun _ _ hleft =>
    coupled_chain hname hsemicolon hnode hoperand hbound hbound' hleft

end

/-! ## Operators in front of an operand -/

/-- Operators with their signs. -/
def OpsRel (L : Likeness) : List (TokenKind × Lexeme) → List (TokenKind × Lexeme) → Prop :=
  List.Forall₂ fun op op' => op'.1 = op.1 ∧ L.sign op.2 op'.2

theorem coupled_unaryOps (hbound : n ≤ bound) (hbound' : n ≤ bound' + 1)
    {ops ops' : List (TokenKind × Lexeme)} (hops : OpsRel L ops ops') :
    Coupled C C.here C.here 0 n (OpsRel L) (x.unaryOps bound ops) (unaryOps bound' ops') := by
  induction n generalizing bound bound' ops ops' with
  | zero => exact .none
  | succ n ih =>
    obtain ⟨bound, rfl⟩ := Nat.exists_eq_add_one_of_ne_zero (by omega : bound ≠ 0)
    cases bound' with
    | zero =>
      obtain rfl : n = 0 := by omega
      exact coupled_takeEnd rfl hops
    | succ bound' =>
      refine .bindTake unaryOp rfl rfl (Nat.le_refl _) (.pure hops) fun op t t' ht => ?_
      exact ih (by omega) (by omega) (.cons ⟨rfl, ht⟩ hops)

theorem expr_applyUnary {ops ops' : List (TokenKind × Lexeme)} (hops : OpsRel L ops ops')
    {e e' : Expr} (he : L.expr e e') : L.expr (applyUnary ops e) (applyUnary ops' e') := by
  unfold applyUnary
  induction hops generalizing e e' with
  | nil => exact he
  | @cons op op' _ _ hop _ ih =>
    obtain ⟨kind, sign⟩ := op
    obtain ⟨kind', sign'⟩ := op'
    obtain ⟨rfl, hsign⟩ := hop
    exact ih (L.exprs.unary hsign he)

/-! ## Calls and properties -/

section

variable {expression expression' : Parser Expr}
  (hexpression : Coupled C C.here C.here 0 n L.expr expression expression')
include hexpression

theorem coupled_argumentsFrom (hbound : n ≤ bound) (hbound' : n ≤ bound')
    {read read' : Array Expr} (hread : Gathered L.expr [] read read') :
    Coupled C C.here C.here 0 n (Gathered L.expr []) (x.argumentsFrom expression bound read)
      (argumentsFrom expression' bound' read') := by
  induction n generalizing bound bound' read read' with
  | zero => exact .none
  | succ n ih =>
    obtain ⟨bound, rfl⟩ := Nat.exists_eq_add_one_of_ne_zero (by omega : bound ≠ 0)
    obtain ⟨bound', rfl⟩ := Nat.exists_eq_add_one_of_ne_zero (by omega : bound' ≠ 0)
    have hmore : Coupled C C.here C.here 0 (n + 1) (Gathered L.expr [])
        (do
          let argument ← expression
          if ← acceptSymbol .comma then x.argumentsFrom expression bound (read.push argument)
          else pure (read.push argument))
        (do
          let argument ← expression'
          if ← acceptSymbol .comma then argumentsFrom expression' bound' (read'.push argument)
          else pure (read'.push argument)) :=
      hexpression.bind fun e e' he => .bindSymbol .comma nofun (Nat.le_refl _)
        (.pure (hread.push he))
        (ih (hexpression.shorter (Nat.le_succ n)) (by omega) (by omega) (hread.push he))
    unfold Beyond.argumentsFrom argumentsFrom
    rw [hread.size_eq]
    split
    · exact .bindPeek fun t t' ht => .at_of_here ((coupled_report ht _).bind fun _ _ _ => hmore)
    · exact hmore

theorem coupled_finishCall (hbound : n ≤ bound) (hbound' : n ≤ bound') {callee callee' : Expr}
    (hcallee : L.expr callee callee') :
    Coupled C C.here C.here 0 n L.expr (x.finishCall bound expression callee)
      (finishCall bound' expression' callee') := by
  have hrest {es es' : Array Expr} (hes : Gathered L.expr [] es es') :
      Coupled C C.here C.here 0 n L.expr
        (do
          let paren ← expectSymbol .rightParen .parenAfterArguments
          pure (.call callee paren.toLexeme es.toList))
        (do
          let paren ← expectSymbol .rightParen .parenAfterArguments
          pure (.call callee' paren.toLexeme es'.toList)) :=
    (coupled_expectSymbol .rightParen nofun _).bindRead fun _ _ hparen =>
      .pure (L.exprs.call hcallee hparen hes.forall₂)
  refine .bindCheck _ fun empty => ?_
  cases empty with
  | false => exact (coupled_argumentsFrom hexpression hbound hbound' .empty).bind fun _ _ => hrest
  | true => exact hrest .empty

end

theorem coupled_suffixes {inner inner' : Nat} {expression expression' : Parser Expr}
    (hexpression : Coupled C C.here C.here 0 n L.expr expression expression')
    (hinner : n ≤ inner) (hinner' : n ≤ inner')
    (hbound : n + 1 ≤ bound) (hbound' : n ≤ bound') {e e' : Expr} (he : L.expr e e') :
    Coupled C C.here C.here 0 (n + 1) L.expr (x.suffixes inner expression bound e)
      (suffixes inner' expression' bound' e') := by
  -- The expressions in a suffix are behind its first token, and so need a bound less.
  induction n generalizing bound bound' e e' with
  | zero =>
    obtain ⟨bound, rfl⟩ := Nat.exists_eq_add_one_of_ne_zero (by omega : bound ≠ 0)
    cases bound' with
    | zero => exact coupled_takeEnd rfl he
    | succ bound' =>
      refine .bindTake suffixStart rfl rfl (m := 0) (Nat.le_refl _) (.pure he) fun _ _ _ _ => .none
  | succ n ih =>
    obtain ⟨bound, rfl⟩ := Nat.exists_eq_add_one_of_ne_zero (by omega : bound ≠ 0)
    obtain ⟨bound', rfl⟩ := Nat.exists_eq_add_one_of_ne_zero (by omega : bound' ≠ 0)
    have hmore {e e' : Expr} (he : L.expr e e') :
        Coupled C C.here C.here 0 (n + 1) L.expr (x.suffixes inner expression bound e)
          (suffixes inner' expression' bound' e') :=
      ih (hexpression.shorter (Nat.le_succ n)) (by omega) (by omega) (by omega) (by omega) he
    refine .bindTake suffixStart rfl rfl (Nat.le_refl _) (.pure he) fun suffix t t' _ => ?_
    cases suffix with
    | call => exact (coupled_finishCall hexpression hinner hinner' he).bind fun _ _ => hmore
    | property =>
      exact (coupled_expectName _).bindRead fun _ _ hname => hmore (L.exprs.get he hname)

/-! ## Expressions -/

/-- What becomes of an operation to which a value is assigned. -/
def assigned (left : Expr) (equals : Token) (value : Expr) : Parser Expr :=
  match left with
  | .name use => do return .assign (← occurrence use.name) value
  | .get object property => return .set object property value
  | other => do
    report equals .invalidAssignmentTarget
    pure other

theorem assigned_other {left : Expr} (h : left.isTarget = false) (equals : Token) (value : Expr) :
    assigned left equals value = (do
      report equals .invalidAssignmentTarget
      pure left) := by
  cases left with
  | name | get => cases h
  | _ => rfl

section

variable {expression expression' : Parser Expr}
  (hexpression : Coupled C C.here C.here 0 n L.expr expression expression')
include hexpression

theorem coupled_primary :
    Coupled C C.here C.here 0 (n + 1) L.expr (primary expression) (primary expression') := by
  refine .bindPeek fun t t' ht => ?_
  rw [L.kind_eq ht]
  have hname := L.name_of_token ht
  have hsign := L.sign_of_token ht
  have hadvance {p p' : Parser Expr} (hne : t.kind ≠ .eof ∧ t.kind ≠ .symbol .semicolon)
      (h : Coupled C C.here C.here 0 n L.expr p p') :
      Coupled C (C.At t t') C.here 0 (n + 1) L.expr (advance >>= fun _ => p)
        (advance >>= fun _ => p') := .bindAdvance hne.1 hne.2 (Nat.le_refl _) h
  have hfail : Coupled C (C.At t t') C.here 0 (n + 1) L.expr (fail .expression)
      (fail .expression) := .at_of_here (coupled_fail _)
  revert hname hsign hadvance
  cases t.kind with
  | number value => exact fun _ _ hadvance => hadvance ⟨nofun, nofun⟩ (.pure L.exprs.literal)
  | string content => exact fun _ _ hadvance => hadvance ⟨nofun, nofun⟩ (.pure L.exprs.literal)
  | identifier =>
    exact fun hname _ hadvance => hadvance ⟨nofun, nofun⟩
      ((coupled_use (hname rfl)).bind fun _ _ huse => .pure (L.exprs.named huse))
  | keyword word =>
    intro _ hsign hadvance
    replace hsign := hsign nofun
    replace hadvance {p p' : Parser Expr} := @hadvance p p' ⟨nofun, nofun⟩
    cases word with
    | falseWord => exact hadvance (.pure L.exprs.literal)
    | trueWord => exact hadvance (.pure L.exprs.literal)
    | nilWord => exact hadvance (.pure L.exprs.literal)
    | superWord =>
      exact hadvance <| (coupled_expectSymbol .dot nofun _).bindRead fun _ _ _ =>
        (coupled_expectName _).bindRead fun _ _ hmethod =>
          (coupled_word hsign).bind fun _ _ hword => .pure (L.exprs.super hword hmethod)
    | thisWord =>
      exact hadvance <| (coupled_word hsign).bind fun _ _ hword => .pure (L.exprs.this hword)
    | _ => exact hfail
  | symbol symbol =>
    intro _ _ hadvance
    cases symbol with
    | leftParen =>
      exact hadvance ⟨nofun, nofun⟩ <| hexpression.bind fun _ _ hinner =>
        (coupled_expectSymbol .rightParen nofun _).bindRead fun _ _ _ =>
          .pure (L.exprs.grouping hinner)
    | _ => exact hfail
  | eof => exact fun _ _ _ => hfail

theorem coupled_operation (hbound : n + 1 ≤ bound) (hbound' : n ≤ bound') :
    Coupled C C.here C.here 0 (n + 1) L.expr (x.operation bound expression)
      (operation bound' expression') := by
  let call : Parser Expr := do x.suffixes bound expression bound (← primary expression)
  let call' : Parser Expr := do suffixes bound' expression' bound' (← primary expression')
  have hcall : Coupled C C.here C.here 0 (n + 1) L.expr call call' :=
    (coupled_primary hexpression).bind fun _ _ h =>
      coupled_suffixes hexpression (by omega) hbound' hbound hbound' h
  have hunary : Coupled C C.here C.here 0 (n + 1) L.expr
      (do
        let ops ← x.unaryOps bound []
        pure (applyUnary ops (← call)))
      (do
        let ops ← unaryOps bound' []
        pure (applyUnary ops (← call'))) := by
    refine (coupled_unaryOps hbound (by omega) .nil).bind fun ops ops' hops => ?_
    exact hcall.bind fun _ _ h => .pure (expr_applyUnary hops h)
  have hbinary : NodeLaw L .binary := fun _ => L.exprs.binary
  have hlogical : NodeLaw L .logical := fun _ => L.exprs.logical
  have hle : n + 1 ≤ bound' + 1 := Nat.succ_le_succ hbound'
  have hfactor := coupled_level (x := x) factorOp .binary rfl rfl hbinary hunary hbound hle
  have hterm := coupled_level (x := x) termOp .binary rfl rfl hbinary hfactor hbound hle
  have horder := coupled_level (x := x) comparisonOp .binary rfl rfl hbinary hterm hbound hle
  have hequality := coupled_level (x := x) equalityOp .binary rfl rfl hbinary horder hbound hle
  have hand := coupled_level (x := x) (logicalOp .and) .logical rfl rfl hlogical hequality
    hbound hle
  exact coupled_level (logicalOp .or) .logical rfl rfl hlogical hand hbound hle

omit hexpression in
/-- What becomes of an operation to which a value is assigned. -/
theorem coupled_assigned {left left' : Expr} (hleft : L.expr left left') {value value' : Expr}
    (hvalue : L.expr value value') {equals equals' : Token} (hequals : L.token equals equals') :
    Coupled C C.here C.here 0 n L.expr (assigned left equals value)
      (assigned left' equals' value') := by
  obtain ⟨u, u', rfl, rfl, hname⟩ | ⟨a, a', p, p', rfl, rfl, hobject, hname⟩ |
    ⟨hother, hother'⟩ := L.exprs.target hleft
  · exact (coupled_use hname).bind fun _ _ huse => .pure (L.exprs.assign huse hvalue)
  · exact .pure (L.exprs.set hobject hname hvalue)
  · rw [assigned_other hother, assigned_other hother']
    exact (coupled_report hequals _).bind fun _ _ _ => .pure hleft

theorem coupled_assignment (hbound : n + 1 ≤ bound) (hbound' : n ≤ bound') :
    Coupled C C.here C.here 0 (n + 1) L.expr (x.assignment bound expression)
      (assignment bound' expression') := by
  refine (coupled_operation hexpression hbound hbound').bind fun left left' hleft => ?_
  refine .bindAccept (.symbol .equal) nofun (Nat.le_refl _) (.pure hleft)
    fun equals equals' hequals _ _ => ?_
  exact hexpression.bind fun value value' hvalue => coupled_assigned hleft hvalue hequals

end

theorem coupled_expression (hbound : n ≤ bound) (hbound' : n ≤ bound' + 1) :
    Coupled C C.here C.here 0 n L.expr (x.expressionWithin bound) (expression bound') := by
  induction n generalizing bound bound' with
  | zero => exact .none
  | succ n ih =>
    obtain ⟨bound, rfl⟩ := Nat.exists_eq_add_one_of_ne_zero (by omega : bound ≠ 0)
    cases bound' with
    | zero =>
      -- At the end of a text an expression is not read, within bounds or beyond.
      intro s s' hs hlt
      have hrest : s.rest = [] := List.length_eq_zero_iff.mp (by omega)
      rw [Beyond.expressionWithin_end hrest (C.ending hs).1]
      have hfail : Coupled C C.here C.here 0 (n + 1) L.expr (fail .expression)
          (fail .expression) := coupled_fail _
      exact hfail s s' hs hlt
    | succ bound' => exact coupled_assignment (ih (by omega) (by omega)) hbound (by omega)

end Parser
end Lox
