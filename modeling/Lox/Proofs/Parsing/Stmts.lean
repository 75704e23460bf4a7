/-
  Lox.Proofs.Parsing.Stmts

  The rules for statements and programs side by side: with anything beyond the bounds on
  the one hand, and as they are in the parser on the other.

    * `InnerCoupled` — the rules for the parts of a statement;
    * `coupled_statements` — statements and declarations;
    * `coupled_program` — whole programs, in texts that are alike up to their ends.

  Statements begin here and end behind their last semicolon.  Only in a block, a body or
  a `for` does reading go on there.
-/
import Lox.Proofs.Parsing.Exprs

namespace Lox.Parser

variable {L : Likeness} {C : Places L} {x : Beyond} {n bound bound' : Nat}

/-! ## Repetitions -/

/-- Declarations up to a closing brace or the end, where reading goes on behind
    semicolons. -/
theorem coupled_declarationsFrom (hclosed : C.Closed) (braced : Bool)
    {declaration declaration' : Parser (Option Stmt)}
    (hdeclaration : Coupled C C.Before C.behind 1 n (Option.Rel L.stmt) declaration declaration')
    (hbound : n ≤ bound) (hbound' : n ≤ bound') {before : List Stmt} {read read' : Array Stmt}
    (h : Gathered L.stmt before read read') :
    Coupled C C.here C.here 0 n (Gathered L.stmt before)
      (x.declarationsFrom declaration braced bound read)
      (declarationsFrom declaration' braced bound' read') := by
  induction n generalizing bound bound' read read' with
  | zero => exact .none
  | succ n ih =>
    obtain ⟨bound, rfl⟩ := Nat.exists_eq_add_one_of_ne_zero (by omega : bound ≠ 0)
    obtain ⟨bound', rfl⟩ := Nat.exists_eq_add_one_of_ne_zero (by omega : bound' ≠ 0)
    refine .unlessNext (fun t => braced && t.kind = .symbol .rightBrace)
      (fun t t' ht => by rw [L.kind_eq ht]) (.pure h) ?_
    -- A declaration reads or skips a token, so fewer are left for the others.
    have hhere := hdeclaration.weaken (fun s s' => (hclosed s s').mp) (fun _ _ => id)
      (Nat.le_refl 1)
    refine hhere.bindAfter (Nat.le_refl _) fun s s' hs => ?_
    refine ih (hdeclaration.shorter (Nat.le_succ n)) (by omega) (by omega) ?_
    cases hs with
    | none => exact h
    | some hs => exact h.push hs

theorem coupled_parametersFrom (hbound : n ≤ bound) (hbound' : n ≤ bound')
    {read read' : Array Lexeme} (hread : Gathered L.name [] read read') :
    Coupled C C.here C.here 0 n (Gathered L.name []) (x.parametersFrom bound read)
      (parametersFrom bound' read') := by
  induction n generalizing bound bound' read read' with
  | zero => exact .none
  | succ n ih =>
    obtain ⟨bound, rfl⟩ := Nat.exists_eq_add_one_of_ne_zero (by omega : bound ≠ 0)
    obtain ⟨bound', rfl⟩ := Nat.exists_eq_add_one_of_ne_zero (by omega : bound' ≠ 0)
    have hmore : Coupled C C.here C.here 0 (n + 1) (Gathered L.name [])
        (do
          let parameter ← expectName .parameterName
          if ← acceptSymbol .comma then x.parametersFrom bound (read.push parameter)
          else pure (read.push parameter))
        (do
          let parameter ← expectName .parameterName
          if ← acceptSymbol .comma then parametersFrom bound' (read'.push parameter)
          else pure (read'.push parameter)) :=
      (coupled_expectName _).bindRead fun name name' hname =>
        .bindSymbol .comma nofun (Nat.le_refl _) (.pure (hread.push hname))
          (ih (by omega) (by omega) (hread.push hname))
    unfold Beyond.parametersFrom parametersFrom
    rw [hread.size_eq]
    split
    · exact .bindPeek fun t t' ht => .at_of_here ((coupled_report ht _).bind fun _ _ _ => hmore)
    · exact hmore

theorem coupled_methodsFrom {method method' : Parser FunctionDecl}
    (hmethod : Coupled C C.here C.here 1 n L.decl method method')
    (hbound : n ≤ bound) (hbound' : n ≤ bound') {read read' : Array FunctionDecl}
    (hread : Gathered L.decl [] read read') :
    Coupled C C.here C.here 0 n (Gathered L.decl []) (x.methodsFrom method bound read)
      (methodsFrom method' bound' read') := by
  induction n generalizing bound bound' read read' with
  | zero => exact .none
  | succ n ih =>
    obtain ⟨bound, rfl⟩ := Nat.exists_eq_add_one_of_ne_zero (by omega : bound ≠ 0)
    obtain ⟨bound', rfl⟩ := Nat.exists_eq_add_one_of_ne_zero (by omega : bound' ≠ 0)
    have hmore : Coupled C C.Before C.here 0 (n + 1) (Gathered L.decl [])
        (do x.methodsFrom method bound (read.push (← method)))
        (do methodsFrom method' bound' (read'.push (← method'))) := by
      have hbegun : Coupled C C.Before C.here 1 (n + 1) L.decl method method' :=
        fun s s' hs hlt => hmethod s s' hs.1 hlt
      exact hbegun.bindAfter (Nat.le_refl _) fun _ _ hd =>
        ih (hmethod.shorter (Nat.le_succ n)) (by omega) (by omega) (hread.push hd)
    have hnext := Coupled.unlessNext (fun t => t.kind = .symbol .rightBrace)
      (fun t t' ht => by rw [L.kind_eq ht]) (.pure hread) hmore
    simp only [decide_eq_true_eq] at hnext
    exact hnext

/-! ## The parts of a statement -/

/-- The rules for the parts of a statement, side by side. -/
structure InnerCoupled (C : Places L) (n : Nat) (inner inner' : Inner) : Prop where
  bound : n ≤ inner.bound
  bound' : n ≤ inner'.bound
  expression : Coupled C C.here C.here 0 (n + 1) L.expr inner.expression inner'.expression
  statement : Coupled C C.here C.behind 1 n L.stmt inner.statement inner'.statement
  declaration : Coupled C C.Before C.behind 1 n (Option.Rel L.stmt) inner.declaration
    inner'.declaration

section

variable {inner inner' : Inner} (h : InnerCoupled C n inner inner')
include h

theorem InnerCoupled.expression_shorter :
    Coupled C C.here C.here 0 n L.expr inner.expression inner'.expression :=
  h.expression.shorter (Nat.le_succ n)

/-! ## Declarations -/

theorem coupled_block (hclosed : C.Closed) :
    Coupled C C.here C.here 0 n (List.Forall₂ L.stmt) (x.block inner) (block inner') :=
  (coupled_declarationsFrom hclosed true h.declaration h.bound h.bound' .empty).bind
    fun _ _ hbody => (coupled_expectSymbol .rightBrace nofun _).bindRead fun _ _ _ =>
      .pure hbody.forall₂

/-- A function's body stands in braces. -/
theorem coupled_function (kind : CallableKind) :
    Coupled C C.here C.here 1 n (fun d d' => L.decl d d' ∧ C.Closed) (x.function inner kind)
      (function inner' kind) := by
  refine (coupled_expectName _).bindRead fun name name' hname =>
    (coupled_expectSymbol .leftParen nofun _).bindRead fun _ _ _ => .bindCheck _ fun empty => ?_
  have hrest {ps ps' : Array Lexeme} (hps : Gathered L.name [] ps ps') :
      Coupled C C.here C.here 0 n (fun d d' => L.decl d d' ∧ C.Closed)
        (do
          let _ ← expectSymbol .rightParen .parenAfterParameters
          let _ ← expectSymbol .leftBrace (.braceBeforeCallableBody kind)
          let body ← outsideLoops (x.block inner)
          return ⟨name, ps.toList, body⟩)
        (do
          let _ ← expectSymbol .rightParen .parenAfterParameters
          let _ ← expectSymbol .leftBrace (.braceBeforeCallableBody kind)
          let body ← outsideLoops (block inner')
          return ⟨name', ps'.toList, body⟩) :=
    (coupled_expectSymbol .rightParen nofun _).bindRead fun _ _ _ =>
      (coupled_expectBrace _).bindRead fun _ _ hclosed =>
        (coupled_withLoops _ (fun _ _ _ => C.here_loops _) (coupled_block h hclosed)).bind
          fun body body' hbody => .pure ⟨L.stmts.callable hname hps.forall₂ hbody, hclosed⟩
  cases empty with
  | false => exact (coupled_parametersFrom h.bound h.bound' .empty).bind fun _ _ => hrest
  | true => exact hrest .empty

theorem coupled_classDeclaration :
    Coupled C C.here C.behind 0 n L.stmt (x.classDeclaration inner) (classDeclaration inner') := by
  refine (coupled_expectName _).bindRead fun name name' hname => ?_
  have hmethod : Coupled C C.here C.here 1 n L.decl (x.function inner .method)
      (function inner' .method) :=
    (coupled_function h .method).weaken (fun _ _ => id) (fun _ _ hd => hd.1) (Nat.le_refl 1)
  have hrest {u u' : Option Occurrence} (hu : Option.Rel L.use u u') :
      Coupled C C.here C.behind 0 n L.stmt
        (do
          let _ ← expectSymbol .leftBrace .braceBeforeClassBody
          let methods ← x.methodsFrom (x.function inner .method) inner.bound #[]
          let _ ← expectSymbol .rightBrace .braceAfterClassBody
          return .class name u methods.toList)
        (do
          let _ ← expectSymbol .leftBrace .braceBeforeClassBody
          let methods ← methodsFrom (function inner' .method) inner'.bound #[]
          let _ ← expectSymbol .rightBrace .braceAfterClassBody
          return .class name' u' methods.toList) :=
    (coupled_expectBrace _).bindRead fun _ _ hclosed =>
      (coupled_methodsFrom hmethod h.bound h.bound' .empty).bind
        fun _ _ hmethods => (coupled_expectSymbol .rightBrace nofun _).bindRead fun _ _ _ =>
          (Coupled.pure (L.stmts.class hname hu hmethods.forall₂)).weaken
            (fun s s' => (hclosed s s').mpr) (fun _ _ => id) (Nat.le_refl 0)
  refine .bindSymbol .less nofun (Nat.le_succ n) (hrest .none) ?_
  exact (coupled_expectName _).bindRead fun _ _ hparent =>
    (coupled_use hparent).bind fun _ _ huse => hrest (.some huse)

theorem coupled_varDeclaration :
    Coupled C C.here C.behind 1 n L.stmt (varDeclaration inner) (varDeclaration inner') := by
  refine (coupled_expectName _).bindRead fun name name' hname => ?_
  have hrest {e e' : Option Expr} (he : Option.Rel L.expr e e') :
      Coupled C C.here C.behind 0 n L.stmt
        (do
          let _ ← expectSymbol .semicolon .semicolonAfterVariable
          return .var name e)
        (do
          let _ ← expectSymbol .semicolon .semicolonAfterVariable
          return .var name' e') :=
    (coupled_semicolon _).bindRead fun _ _ _ => .pure (L.stmts.var hname he)
  exact .bindSymbol .equal nofun (Nat.le_succ n) (hrest .none)
    (h.expression_shorter.bind fun _ _ he => hrest (.some he))

/-! ## Statements -/

theorem coupled_expressionUnless (stop : Symbol) :
    Coupled C C.here C.here 0 n (Option.Rel L.expr) (expressionUnless inner stop)
      (expressionUnless inner' stop) := by
  refine .bindCheck _ fun stopped => ?_
  cases stopped with
  | false => exact h.expression_shorter.bind fun _ _ he => .pure (.some he)
  | true => exact .pure .none

theorem coupled_expressionStatement :
    Coupled C C.here C.behind 1 (n + 1) L.stmt (expressionStatement inner)
      (expressionStatement inner') :=
  h.expression.bind fun _ _ he => (coupled_semicolon _).bindRead fun _ _ _ =>
    .pure (L.stmts.expression he)

omit h in
theorem coupled_breakStatement {t t' : Token} (ht : L.token t t') (hkind : t.kind ≠ .identifier) :
    Coupled C C.here C.behind 0 n L.stmt (breakStatement t) (breakStatement t') := by
  have hrest : Coupled C C.here C.behind 0 n L.stmt
      (do
        let _ ← expectSymbol .semicolon .semicolonAfterBreak
        return .break t.toLexeme)
      (do
        let _ ← expectSymbol .semicolon .semicolonAfterBreak
        return .break t'.toLexeme) :=
    (coupled_semicolon _).bindRead fun _ _ _ =>
      .pure (L.stmts.break (L.sign_of_token ht hkind))
  refine .bindGet fun s s' hloops => ?_
  rw [hloops]
  split
  · exact (coupled_report ht _).bind fun _ _ _ => hrest
  · exact hrest

omit h in
theorem stmt_forTree {first first' : Option Stmt} {condition condition' : Option Expr}
    {increment increment' : Option Expr} {body body' : Stmt}
    (hfirst : Option.Rel L.stmt first first') (hcondition : Option.Rel L.expr condition condition')
    (hincrement : Option.Rel L.expr increment increment') (hbody : L.stmt body body') :
    L.stmt (forTree first condition increment body)
      (forTree first' condition' increment' body') := by
  have hasked : L.expr (condition.getD (.literal (.bool true)))
      (condition'.getD (.literal (.bool true))) := by
    cases hcondition with
    | none => exact L.exprs.literal
    | some he => exact he
  have hloop {round round' : Stmt} (hround : L.stmt round round') :=
    L.stmts.while hasked hround
  cases hincrement with
  | none =>
    cases hfirst with
    | none => exact hloop hbody
    | some hs => exact L.stmts.block (.cons hs (.cons (hloop hbody) .nil))
  | some he =>
    have hround := L.stmts.block (.cons hbody (.cons (L.stmts.expression he) .nil))
    cases hfirst with
    | none => exact hloop hround
    | some hs => exact L.stmts.block (.cons hs (.cons (hloop hround) .nil))

theorem coupled_forInitializer (hclosed : C.Closed) :
    Coupled C C.here C.here 0 n (Option.Rel L.stmt) (forInitializer inner)
      (forInitializer inner') := by
  -- Behind the initializer reading goes on, though it ends with a semicolon.
  have hback {p p' : Parser Stmt} {k : Nat} (hp : Coupled C C.here C.behind k n L.stmt p p') :
      Coupled C C.here C.here 0 n (Option.Rel L.stmt) (do return some (← p))
        (do return some (← p')) :=
    (hp.weaken (fun s s' => (hclosed s s').mp) (fun _ _ => id) (Nat.zero_le k)).bind
      fun _ _ hs => .pure (.some hs)
  refine .bindSymbol .semicolon (fun _ => hclosed) (Nat.le_succ n) ?_ (.pure .none)
  refine .bindAccept (.keyword .varWord) nofun (Nat.le_succ n) ?_ fun _ _ _ _ _ => ?_
  · exact hback ((coupled_expressionStatement h).shorter (Nat.le_succ n))
  · exact hback (coupled_varDeclaration h)

theorem coupled_forStatement (hclosed : C.Closed) :
    Coupled C C.here C.behind 0 n L.stmt (forStatement inner) (forStatement inner') :=
  (coupled_expectSymbol .leftParen nofun _).bindRead fun _ _ _ =>
  (coupled_forInitializer h hclosed).bind fun _ _ hfirst =>
  (coupled_expressionUnless h _).bind fun _ _ hcondition =>
  (coupled_expectSymbol .semicolon (fun _ => hclosed) _).bindRead fun _ _ _ =>
  (coupled_expressionUnless h _).bind fun _ _ hincrement =>
  (coupled_expectSymbol .rightParen nofun _).bindRead fun _ _ _ =>
  (coupled_withLoops _ (fun _ _ _ => C.behind_loops _) h.statement.lax).bind fun _ _ hbody =>
  .pure (stmt_forTree hfirst hcondition hincrement hbody)

theorem coupled_ifStatement :
    Coupled C C.here C.behind 0 n L.stmt (ifStatement inner) (ifStatement inner') :=
  (coupled_expectSymbol .leftParen nofun _).bindRead fun _ _ _ =>
  h.expression_shorter.bind fun _ _ hcondition =>
  (coupled_expectSymbol .rightParen nofun _).bindRead fun _ _ _ =>
  h.statement.lax.bind fun _ _ hyes =>
  .bindElse (.pure (L.stmts.ifElse hcondition hyes .none)) fun _ _ =>
  h.statement.lax.bind fun _ _ hno =>
  .pure (L.stmts.ifElse hcondition hyes (.some hno))

theorem coupled_printStatement :
    Coupled C C.here C.behind 0 n L.stmt (printStatement inner) (printStatement inner') :=
  h.expression_shorter.bind fun _ _ he => (coupled_semicolon _).bindRead fun _ _ _ =>
    .pure (L.stmts.print he)

theorem coupled_returnStatement {t t' : Token} (ht : L.token t t') (hkind : t.kind ≠ .identifier) :
    Coupled C C.here C.behind 0 n L.stmt (returnStatement inner t) (returnStatement inner' t') :=
  (coupled_expressionUnless h _).bind fun _ _ he => (coupled_semicolon _).bindRead fun _ _ _ =>
    .pure (L.stmts.return (L.sign_of_token ht hkind) he)

theorem coupled_whileStatement :
    Coupled C C.here C.behind 0 n L.stmt (whileStatement inner) (whileStatement inner') :=
  (coupled_expectSymbol .leftParen nofun _).bindRead fun _ _ _ =>
  h.expression_shorter.bind fun _ _ hcondition =>
  (coupled_expectSymbol .rightParen nofun _).bindRead fun _ _ _ =>
  (coupled_withLoops _ (fun _ _ _ => C.behind_loops _) h.statement.lax).bind fun _ _ hbody =>
  .pure (L.stmts.while hcondition hbody)

/-! ## Any statement -/

omit h in
/-- Before an opening brace or `for`, reading goes on behind semicolons. -/
theorem Coupled.at_inside {α : Type} {k : Nat} {rel : α → α → Prop}
    {post : ParseState → ParseState → Prop} {p p' : Parser α} {t t' : Token}
    (ht : t.kind = .symbol .leftBrace ∨ t.kind = .keyword .forWord)
    (h : C.Closed → Coupled C (C.At t t') post k n rel p p') :
    Coupled C (C.At t t') post k n rel p p' := by
  intro s s' hs hlt
  have hkind : t.kind ≠ .eof := by
    obtain ht | ht := ht <;> rw [ht] <;> nofun
  obtain ⟨ts, _, hrest, -⟩ := rest_of_at hs hkind
  exact h (C.inside hs.1 (by rw [hrest]; rfl) ht) s s' hs hlt

theorem coupled_statementRule :
    Coupled C C.here C.behind 1 (n + 1) L.stmt (x.statementRule inner) (statementRule inner') := by
  refine .bindPeek fun t t' ht => ?_
  have hother : Coupled C (C.At t t') C.behind 1 (n + 1) L.stmt (expressionStatement inner)
      (expressionStatement inner') := .at_of_here (coupled_expressionStatement h)
  have hadvance {p p' : Parser Stmt} (hkind : t.kind ≠ .eof ∧ t.kind ≠ .symbol .semicolon)
      (hp : Coupled C C.here C.behind 0 n L.stmt p p') :
      Coupled C (C.At t t') C.behind 1 (n + 1) L.stmt (advance >>= fun _ => p)
        (advance >>= fun _ => p') := .bindAdvance hkind.1 hkind.2 (Nat.le_refl _) hp
  -- Blocks and `for` have semicolons of their own, which do not end the statement.
  have hinside := @Coupled.at_inside L C (n + 1) Stmt 1 L.stmt C.behind
  rw [L.kind_eq ht]
  cases hkind : t.kind with
  | keyword word =>
    rw [hkind] at hadvance
    have hname : t.kind ≠ .identifier := by rw [hkind]; nofun
    cases word with
    | breakWord => exact hadvance ⟨nofun, nofun⟩ (coupled_breakStatement ht hname)
    | forWord =>
      exact hinside (.inr hkind) fun hclosed =>
        hadvance ⟨nofun, nofun⟩ (coupled_forStatement h hclosed)
    | ifWord => exact hadvance ⟨nofun, nofun⟩ (coupled_ifStatement h)
    | printWord => exact hadvance ⟨nofun, nofun⟩ (coupled_printStatement h)
    | returnWord => exact hadvance ⟨nofun, nofun⟩ (coupled_returnStatement h ht hname)
    | whileWord => exact hadvance ⟨nofun, nofun⟩ (coupled_whileStatement h)
    | _ => exact hother
  | symbol symbol =>
    rw [hkind] at hadvance
    cases symbol with
    | leftBrace =>
      exact hinside (.inl hkind) fun hclosed => hadvance ⟨nofun, nofun⟩ <|
        (coupled_block h hclosed).bind fun _ _ hbody =>
          (Coupled.pure (L.stmts.block hbody)).weaken (fun s s' => (hclosed s s').mpr)
            (fun _ _ => id) (Nat.le_refl 0)
    | _ => exact hother
  | _ => exact hother

theorem coupled_declarationRule :
    Coupled C C.Before C.behind 1 (n + 1) (Option.Rel L.stmt) (x.declarationRule inner)
      (declarationRule inner') := by
  refine coupled_recovering (.bindPeek fun t t' ht => ?_)
  have hother : Coupled C (C.At t t') C.behind 1 (n + 1) L.stmt (x.statementRule inner)
      (statementRule inner') := .at_of_here (coupled_statementRule h)
  have hadvance {p p' : Parser Stmt} (hkind : t.kind ≠ .eof ∧ t.kind ≠ .symbol .semicolon)
      (hp : Coupled C C.here C.behind 0 n L.stmt p p') :
      Coupled C (C.At t t') C.behind 1 (n + 1) L.stmt (advance >>= fun _ => p)
        (advance >>= fun _ => p') := .bindAdvance hkind.1 hkind.2 (Nat.le_refl _) hp
  rw [L.kind_eq ht]
  cases hkind : t.kind with
  | keyword word =>
    rw [hkind] at hadvance
    cases word with
    | classWord => exact hadvance ⟨nofun, nofun⟩ (coupled_classDeclaration h)
    | funWord =>
      refine hadvance ⟨nofun, nofun⟩ ((coupled_function h .function).lax.bind fun _ _ hd => ?_)
      exact (Coupled.pure (L.stmts.function hd.1)).weaken (fun s s' => (hd.2 s s').mpr)
        (fun _ _ => id) (Nat.le_refl 0)
    | varWord => exact hadvance ⟨nofun, nofun⟩ (coupled_varDeclaration h).lax
    | _ => exact hother
  | _ => exact hother

end

/-! ## Statements and programs -/

/-- Statements and declarations together, as each rule uses both.  In the first run the
    bound exceeds the tokens by two, as an expression statement begins with an expression
    at the next lower one. -/
theorem coupled_statements (hbound : n < bound) (hbound' : n ≤ bound') :
    Coupled C C.here C.behind 1 n L.stmt (x.statementWithin bound) (statement bound') ∧
      Coupled C C.Before C.behind 1 n (Option.Rel L.stmt) (x.declarationWithin bound)
        (declaration bound') := by
  induction n generalizing bound bound' with
  | zero => exact ⟨.none, .none⟩
  | succ n ih =>
    obtain ⟨bound, rfl⟩ := Nat.exists_eq_add_one_of_ne_zero (by omega : bound ≠ 0)
    obtain ⟨bound', rfl⟩ := Nat.exists_eq_add_one_of_ne_zero (by omega : bound' ≠ 0)
    obtain ⟨hstatement, hdeclaration⟩ := ih (by omega : n < bound) (by omega : n ≤ bound')
    have hinner : InnerCoupled C n
        ⟨bound + 1, x.expressionWithin bound, x.statementWithin bound, x.declarationWithin bound⟩
        ⟨bound' + 1, expression bound', statement bound', declaration bound'⟩ :=
      ⟨by dsimp only; omega, by dsimp only; omega, coupled_expression (by omega) (by omega),
        hstatement, hdeclaration⟩
    exact ⟨coupled_statementRule hinner, coupled_declarationRule hinner⟩

/-- Programs, where behind a statement the texts are alike as they are elsewhere. -/
theorem coupled_program (hclosed : C.Closed) (hbound : n < bound) (hbound' : n ≤ bound') :
    Coupled C C.here C.here 0 n (List.Forall₂ L.stmt) (x.programWithin bound) (program bound') :=
  (coupled_declarationsFrom hclosed false (coupled_statements hbound hbound').2
    (Nat.le_of_lt hbound) hbound' .empty).bind fun _ _ h => .pure h.forall₂

end Lox.Parser
