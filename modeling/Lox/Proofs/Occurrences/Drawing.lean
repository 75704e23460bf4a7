/-
  Lox.Proofs.Occurrences.Drawing

  The parser draws a number for every occurrence that it puts into a tree, and none twice.

    * `Fresh.subperm` — occurrences may be left out;
    * `Parser.Draws us p uses` — given the occurrences `us` of trees that were read before,
      the step `p` yields a tree with the occurrences `uses`, all of which have numbers of
      their own again.  Where `p` gives up, its numbers are used up all the same;
    * `Draws.bind`, `Draws.frame`, `Draws.done` — how steps are put together: a tree that
      waits for other parts keeps its numbers, and what a step does not put into its tree
      is dropped;
    * `draws_expression`, `draws_program` — the rules of the parser;
    * `runOn_drawn` — what this comes to for a list of tokens, be it ended or not.

  Nothing is asked of the tokens, and nothing of the faults that were reported.
-/
import Lox.Proofs.Grammar.StmtSound
import Mathlib.Data.List.Perm.Subperm

namespace Lox

/-- Some occurrences may be left out, and the others listed in any order. -/
theorem Fresh.subperm {us vs : List Use} {first next : Nat} (h : Fresh us first next)
    (hsub : vs.Subperm us) : Fresh vs first next := by
  obtain ⟨ws, hperm, hws⟩ := hsub
  have hfresh : Fresh ws first next :=
    ⟨h.le, h.distinct.sublist (hws.map _), fun use huse => h.within use (hws.subset huse)⟩
  exact hfresh.perm hperm

theorem Expr.listUses_eq_flatMap (es : List Expr) : Expr.listUses es = es.flatMap Expr.uses := by
  induction es with
  | nil => rfl
  | cons e es ih => rw [Expr.listUses, ih, List.flatMap_cons]

theorem Stmt.listUses_eq_flatMap (ss : List Stmt) : Stmt.listUses ss = ss.flatMap Stmt.uses := by
  induction ss with
  | nil => rfl
  | cons s ss ih => rw [Stmt.listUses, ih, List.flatMap_cons]

theorem FunctionDecl.listUses_eq_flatMap (ds : List FunctionDecl) :
    FunctionDecl.listUses ds = ds.flatMap FunctionDecl.uses := by
  induction ds with
  | nil => rfl
  | cons d ds ih => rw [FunctionDecl.listUses, ih, List.flatMap_cons]

namespace Parser

variable {α β γ : Type} {us vs : List Use}

/-- Given occurrences with numbers of their own, a step yields such occurrences.  Numbers
    are never given back. -/
def Draws (us : List Use) (p : Parser α) (uses : α → List Use) : Prop :=
  ∀ s first, Fresh us first s.nextId → match p s with
    | .ok a t => s.nextId ≤ t.nextId ∧ Fresh (uses a) first t.nextId
    | .error _ t => s.nextId ≤ t.nextId

/-- A step that draws no number. -/
def DrawsNone (p : Parser α) : Prop :=
  ∀ s, match p s with
    | .ok _ t => t.nextId = s.nextId
    | .error _ t => t.nextId = s.nextId

/-! ## Steps that draw no number -/

namespace DrawsNone

theorem pure (a : α) : DrawsNone (pure a) := fun _ => rfl

theorem fail (cause : SyntaxFault) : DrawsNone (fail cause : Parser α) := fun _ => rfl

theorem bind {p : Parser α} {f : α → Parser β} (hp : DrawsNone p) (hf : ∀ a, DrawsNone (f a)) :
    DrawsNone (p >>= f) := by
  intro s
  show match EStateM.bind p f s with | .ok _ t => _ | .error _ t => _
  have hfirst := hp s
  unfold EStateM.bind
  cases hrun : p s with
  | error e t =>
    rw [hrun] at hfirst
    exact hfirst
  | ok a t =>
    rw [hrun] at hfirst
    have hsecond := hf a t
    dsimp only at hfirst ⊢
    cases hrun' : f a t with
    | error e u =>
      rw [hrun'] at hsecond
      exact hsecond.trans hfirst
    | ok b u =>
      rw [hrun'] at hsecond
      exact hsecond.trans hfirst

theorem peek : DrawsNone peek := fun _ => rfl

theorem advance : DrawsNone advance := fun _ => rfl

theorem report (t : Token) (cause : SyntaxFault) : DrawsNone (report t cause) := fun _ => rfl

theorem check (kind : TokenKind) : DrawsNone (check kind) := fun _ => rfl

theorem get : DrawsNone (get : Parser ParseState) := fun _ => rfl

theorem take? (select : TokenKind → Option γ) : DrawsNone (take? select) := by
  intro s
  unfold Parser.take?
  cases s.rest with
  | nil => rfl
  | cons t ts => cases hselect : select t.kind <;> simp only [hselect]

theorem accept (kind : TokenKind) : DrawsNone (accept kind) := by
  intro s
  unfold Parser.accept
  cases s.rest with
  | nil => rfl
  | cons t ts => cases hsame : t.kind.sameType kind <;> simp only [hsame] <;> rfl

theorem expect (kind : TokenKind) (cause : SyntaxFault) : DrawsNone (expect kind cause) := by
  refine (accept kind).bind fun found => ?_
  cases found with
  | none => exact .fail cause
  | some t => exact .pure t

theorem expectSymbol (symbol : Symbol) (cause : SyntaxFault) :
    DrawsNone (expectSymbol symbol cause) := expect _ cause

theorem expectName (cause : SyntaxFault) : DrawsNone (expectName cause) :=
  (expect _ cause).bind fun _ => .pure _

theorem acceptSymbol (symbol : Symbol) : DrawsNone (acceptSymbol symbol) :=
  (accept _).bind fun _ => .pure _

end DrawsNone

/-! ## Putting steps together -/

namespace Draws

theorem done {a : α} {uses : α → List Use} (h : (uses a).Subperm us) : Draws us (pure a) uses :=
  fun _ _ hus => ⟨Nat.le_refl _, hus.subperm h⟩

theorem fail (cause : SyntaxFault) (uses : α → List Use) : Draws us (fail cause) uses :=
  fun _ _ _ => Nat.le_refl _

theorem bind {p : Parser α} {f : α → Parser β} {uses : α → List Use} {uses' : β → List Use}
    (hp : Draws us p uses) (hf : ∀ a, Draws (uses a) (f a) uses') : Draws us (p >>= f) uses' := by
  intro s first hus
  show match EStateM.bind p f s with | .ok b t => _ | .error _ t => _
  have hfirst := hp s first hus
  unfold EStateM.bind
  cases hrun : p s with
  | error e t =>
    rw [hrun] at hfirst
    exact hfirst
  | ok a t =>
    rw [hrun] at hfirst
    obtain ⟨hle, ha⟩ := hfirst
    have hsecond := hf a t first ha
    dsimp only
    cases hrun' : f a t with
    | error e u =>
      rw [hrun'] at hsecond
      exact Nat.le_trans hle hsecond
    | ok b u =>
      rw [hrun'] at hsecond
      exact ⟨Nat.le_trans hle hsecond.1, hsecond.2⟩

/-- What was read before keeps its numbers while a part is read. -/
theorem frame {p : Parser α} {uses : α → List Use} (h : Draws [] p uses) (us : List Use) :
    Draws us p fun a => us ++ uses a := by
  intro s first hus
  -- The part draws from where the numbers of the others end.
  have hpart := h s s.nextId (.nil (Nat.le_refl _))
  cases hrun : p s with
  | error e t =>
    rw [hrun] at hpart
    exact hpart
  | ok a t =>
    rw [hrun] at hpart
    exact ⟨hpart.1, hus.append hpart.2⟩

theorem of_none {p : Parser α} (h : DrawsNone p) : Draws us p fun _ => us := by
  intro s first hus
  have hnext := h s
  cases hrun : p s with
  | error e t =>
    rw [hrun] at hnext
    exact Nat.le_of_eq hnext.symm
  | ok a t =>
    rw [hrun] at hnext
    exact ⟨Nat.le_of_eq hnext.symm, hnext.symm ▸ hus⟩

/-- After a step that draws no number. -/
theorem behind {p : Parser α} {f : α → Parser β} {uses : β → List Use} (h : DrawsNone p)
    (hf : ∀ a, Draws us (f a) uses) : Draws us (p >>= f) uses :=
  (of_none h).bind hf

/-- A new occurrence. -/
theorem occurrence (name : Lexeme) (kind : UseKind) :
    Draws us (occurrence name) fun use => us ++ [⟨kind, use⟩] :=
  fun s _ hus => ⟨Nat.le_succ _, hus.append (.single kind s.nextId name)⟩

theorem mono {p : Parser α} {uses uses' : α → List Use} (h : Draws us p uses)
    (hsub : ∀ a, (uses' a).Subperm (uses a)) : Draws us p uses' := by
  intro s first hus
  have hp := h s first hus
  cases hrun : p s with
  | error e t =>
    rw [hrun] at hp
    exact hp
  | ok a t =>
    rw [hrun] at hp
    exact ⟨hp.1, hp.2.subperm (hsub a)⟩

theorem withLoops {p : Parser α} {uses : α → List Use} (change : Nat → Nat) (h : Draws us p uses) :
    Draws us (withLoops change p) uses := by
  intro s first hus
  have hp := h { s with loops := change s.loops } first hus
  unfold Parser.withLoops
  cases hrun : p { s with loops := change s.loops } with
  | error e t =>
    rw [hrun] at hp
    exact hp
  | ok a t =>
    rw [hrun] at hp
    exact hp

/-- What is given up yields no tree; its numbers are not drawn again. -/
theorem recovering {p : Parser α} {uses : α → List Use} (h : Draws [] p uses) :
    Draws [] (recovering p) fun r => r.elim [] uses := by
  intro s first hus
  have hp := h s first hus
  unfold Parser.recovering
  cases hrun : p s with
  | error e t =>
    rw [hrun] at hp
    exact ⟨hp, .nil (Nat.le_trans hus.le hp)⟩
  | ok a t =>
    rw [hrun] at hp
    exact hp

end Draws

/-! ## Expressions -/

section

variable {expression : Parser Expr} (hexpression : Draws [] expression Expr.uses)
include hexpression

theorem draws_argumentsFrom (bound : Nat) (read : Array Expr) :
    Draws (Expr.listUses read.toList) (argumentsFrom expression bound read)
      fun es => Expr.listUses es.toList := by
  induction bound generalizing read with
  | zero => exact .done (.refl _)
  | succ bound ih =>
    have hpush (e : Expr) : Expr.listUses read.toList ++ e.uses =
        Expr.listUses (read.push e).toList := by
      simp [Expr.listUses_eq_flatMap]
    have hmore : Draws (Expr.listUses read.toList) (do
        let argument ← expression
        if ← acceptSymbol .comma then argumentsFrom expression bound (read.push argument)
        else pure (read.push argument)) fun es => Expr.listUses es.toList := by
      refine (hexpression.frame _).bind fun e => .behind (.acceptSymbol _) fun more => ?_
      rw [hpush]
      cases more with
      | false => exact .done (.refl _)
      | true => exact ih _
    unfold argumentsFrom
    split
    · exact .behind .peek fun t => .behind (.report t _) fun _ => hmore
    · exact hmore

theorem draws_finishCall (bound : Nat) (callee : Expr) :
    Draws callee.uses (finishCall bound expression callee) Expr.uses := by
  have hrest (arguments : Array Expr) :
      Draws (callee.uses ++ Expr.listUses arguments.toList) (do
        let paren ← expectSymbol .rightParen .parenAfterArguments
        pure (Expr.call callee paren.toLexeme arguments.toList)) Expr.uses :=
    .behind (.expectSymbol _ _) fun _ => .done (.refl _)
  refine .behind (.check _) fun empty => ?_
  cases empty with
  | true =>
    have hnone := hrest #[]
    rwa [show Expr.listUses (#[] : Array Expr).toList = [] from rfl, List.append_nil] at hnone
  | false => exact ((draws_argumentsFrom hexpression bound #[]).frame _).bind hrest

theorem draws_suffixes (inner bound : Nat) (e : Expr) :
    Draws e.uses (suffixes inner expression bound e) Expr.uses := by
  induction bound generalizing e with
  | zero => exact .done (.refl _)
  | succ bound ih =>
    refine .behind (.take? _) fun found => ?_
    match found with
    | none => exact .done (.refl _)
    | some (.call, _) => exact (draws_finishCall hexpression inner e).bind fun call => ih call
    | some (.property, _) => exact .behind (.expectName _) fun name => ih (.get e name)

theorem draws_primary : Draws [] (primary expression) Expr.uses := by
  have hconstant (value : Literal) :
      Draws [] (advance >>= fun _ => pure (Expr.literal value)) Expr.uses :=
    .behind .advance fun _ => .done (.refl _)
  refine .behind .peek fun t => ?_
  cases t.kind with
  | number value => exact hconstant _
  | string content => exact hconstant _
  | identifier =>
    exact .behind .advance fun _ => (Draws.occurrence _ .read).bind fun use => .done (.refl _)
  | keyword word =>
    cases word with
    | falseWord => exact hconstant _
    | trueWord => exact hconstant _
    | nilWord => exact hconstant _
    | superWord =>
      exact .behind .advance fun _ => .behind (.expectSymbol _ _) fun _ =>
        .behind (.expectName _) fun method =>
          (Draws.occurrence _ .super).bind fun use => .done (.refl _)
    | thisWord =>
      exact .behind .advance fun _ => (Draws.occurrence _ .this).bind fun use => .done (.refl _)
    | _ => exact .fail _ _
  | symbol symbol =>
    cases symbol with
    | leftParen =>
      exact .behind .advance fun _ => hexpression.bind fun e =>
        .behind (.expectSymbol _ _) fun _ => .done (.refl _)
    | _ => exact .fail _ _
  | eof => exact .fail _ _

end

section

variable {select : TokenKind → Option γ} {node : γ → Lexeme → Expr → Expr → Expr}
  {operand : Parser Expr} (hoperand : Draws [] operand Expr.uses)
  (hnode : ∀ op sign left right, (node op sign left right).uses = left.uses ++ right.uses)
include hoperand hnode

theorem draws_chain (bound : Nat) (left : Expr) :
    Draws left.uses (chain select node operand bound left) Expr.uses := by
  induction bound generalizing left with
  | zero => exact .done (.refl _)
  | succ bound ih =>
    refine .behind (.take? _) fun found => ?_
    match found with
    | none => exact .done (.refl _)
    | some (op, sign) =>
      refine (hoperand.frame _).bind fun right => ?_
      rw [← hnode op sign.toLexeme]
      exact ih _

theorem draws_level (bound : Nat) : Draws [] (level select node bound operand) Expr.uses :=
  hoperand.bind fun left => draws_chain hoperand hnode bound left

end

theorem drawsNone_unaryOps (bound : Nat) (ops : List (TokenKind × Lexeme)) :
    DrawsNone (unaryOps bound ops) := by
  induction bound generalizing ops with
  | zero => exact .pure ops
  | succ bound ih =>
    refine (DrawsNone.take? _).bind fun found => ?_
    match found with
    | none => exact .pure ops
    | some (op, sign) => exact ih _

theorem applyUnary_uses (ops : List (TokenKind × Lexeme)) (e : Expr) :
    (applyUnary ops e).uses = e.uses := by
  unfold applyUnary
  induction ops generalizing e with
  | nil => rfl
  | cons op ops ih => exact ih _

theorem draws_operation {expression : Parser Expr} (hexpression : Draws [] expression Expr.uses)
    (bound : Nat) : Draws [] (operation bound expression) Expr.uses := by
  unfold operation
  iterate 6 refine draws_level ?_ (fun _ _ _ _ => rfl) bound
  refine .behind (drawsNone_unaryOps bound []) fun ops => Draws.bind
    ((draws_primary hexpression).bind fun e => draws_suffixes hexpression bound bound e)
    fun e => .done ?_
  rw [applyUnary_uses]

/-- An assignment drops the occurrence that was read for its target, and draws a new
    one. -/
theorem draws_assignment {expression : Parser Expr} (hexpression : Draws [] expression Expr.uses)
    (bound : Nat) : Draws [] (assignment bound expression) Expr.uses := by
  refine (draws_operation hexpression bound).bind fun left =>
    .behind (.accept _) fun found => ?_
  cases found with
  | none => exact .done (.refl _)
  | some equals =>
    refine (hexpression.frame _).bind fun value => ?_
    have hother : Draws (left.uses ++ value.uses)
        (report equals .invalidAssignmentTarget >>= fun _ => pure left) Expr.uses :=
      .behind (.report _ _) fun _ => .done (List.sublist_append_left _ _).subperm
    cases left with
    | name use =>
      -- The number of `use` is drawn for nothing.
      refine (Draws.occurrence _ .assign).bind fun target => .done ?_
      refine List.perm_append_comm.subperm_left.mp (List.Sublist.subperm ?_)
      exact (List.sublist_cons_self _ value.uses).cons_cons _
    | get object property => exact .done (.refl _)
    | _ => exact hother

theorem draws_expression (n : Nat) : Draws [] (expression n) Expr.uses := by
  induction n with
  | zero => exact .fail _ _
  | succ n ih => exact draws_assignment ih (n + 1)

/-! ## Repetition -/

theorem draws_declarationsFrom {declaration : Parser (Option Stmt)}
    (hdeclaration : Draws [] declaration fun r => r.elim [] Stmt.uses) (braced : Bool) (bound : Nat)
    (read : Array Stmt) :
    Draws (Stmt.listUses read.toList) (declarationsFrom declaration braced bound read)
      fun ss => Stmt.listUses ss.toList := by
  induction bound generalizing read with
  | zero => exact .done (.refl _)
  | succ bound ih =>
    intro s first hus
    -- This is what happens if there is a declaration to read, and not the end.
    have hgoes := ((hdeclaration.frame _).bind fun r => by
      have hpush : Stmt.listUses read.toList ++ r.elim [] Stmt.uses =
          Stmt.listUses (r.elim read read.push).toList := by
        cases r <;> simp [Stmt.listUses_eq_flatMap]
      rw [hpush]
      exact ih _) s first hus
    unfold declarationsFrom
    dsimp only
    cases s.rest with
    | nil => exact ⟨Nat.le_refl _, hus⟩
    | cons t ts =>
      by_cases hstop : (braced && decide (t.kind = .symbol .rightBrace)) = true
      · simp only [hstop, if_true]
        exact ⟨Nat.le_refl _, hus⟩
      · simp only [hstop]
        exact hgoes

theorem draws_methodsFrom {method : Parser FunctionDecl}
    (hmethod : Draws [] method FunctionDecl.uses) (bound : Nat) (read : Array FunctionDecl) :
    Draws (FunctionDecl.listUses read.toList) (methodsFrom method bound read)
      fun ds => FunctionDecl.listUses ds.toList := by
  induction bound generalizing read with
  | zero => exact .done (.refl _)
  | succ bound ih =>
    intro s first hus
    have hgoes := ((hmethod.frame _).bind fun d => by
      have hpush : FunctionDecl.listUses read.toList ++ d.uses =
          FunctionDecl.listUses (read.push d).toList := by
        simp [FunctionDecl.listUses_eq_flatMap]
      rw [hpush]
      exact ih _) s first hus
    unfold methodsFrom
    dsimp only
    cases s.rest with
    | nil => exact ⟨Nat.le_refl _, hus⟩
    | cons t ts =>
      by_cases hstop : t.kind = .symbol .rightBrace
      · simp only [hstop, if_true]
        exact ⟨Nat.le_refl _, hus⟩
      · simp only [hstop, if_false]
        exact hgoes

theorem drawsNone_parametersFrom (bound : Nat) (read : Array Lexeme) :
    DrawsNone (parametersFrom bound read) := by
  induction bound generalizing read with
  | zero => exact .pure read
  | succ bound ih =>
    have hmore : DrawsNone (do
        let parameter ← expectName .parameterName
        if ← acceptSymbol .comma then parametersFrom bound (read.push parameter)
        else pure (read.push parameter)) := by
      refine (DrawsNone.expectName _).bind fun parameter =>
        (DrawsNone.acceptSymbol _).bind fun more => ?_
      cases more with
      | false => exact .pure _
      | true => exact ih _
    unfold parametersFrom
    split
    · exact DrawsNone.peek.bind fun t => (DrawsNone.report t _).bind fun _ => hmore
    · exact hmore

/-! ## Statements -/

/-- The rules for the parts of a statement draw numbers for their trees. -/
structure InnerDraws (inner : Inner) : Prop where
  expression : Draws [] inner.expression Expr.uses
  statement : Draws [] inner.statement Stmt.uses
  declaration : Draws [] inner.declaration fun r => r.elim [] Stmt.uses

section

variable {inner : Inner} (h : InnerDraws inner)
include h

theorem draws_block : Draws [] (block inner) Stmt.listUses :=
  (draws_declarationsFrom h.declaration true inner.bound #[]).bind fun _ =>
    .behind (.expectSymbol _ _) fun _ => .done (.refl _)

theorem draws_function (kind : CallableKind) :
    Draws [] (function inner kind) FunctionDecl.uses := by
  have hrest (name : Lexeme) (parameters : Array Lexeme) : Draws [] (do
      let _ ← expectSymbol .rightParen .parenAfterParameters
      let _ ← expectSymbol .leftBrace (.braceBeforeCallableBody kind)
      let body ← outsideLoops (block inner)
      pure ⟨name, parameters.toList, body⟩) FunctionDecl.uses :=
    .behind (.expectSymbol _ _) fun _ => .behind (.expectSymbol _ _) fun _ =>
      ((draws_block h).withLoops _).bind fun _ => .done (.refl _)
  refine .behind (.expectName _) fun name => .behind (.expectSymbol _ _) fun _ =>
    .behind (.check _) fun empty => ?_
  cases empty with
  | true => exact .behind (.pure #[]) (hrest name)
  | false => exact .behind (drawsNone_parametersFrom _ _) (hrest name)

theorem draws_classDeclaration : Draws [] (classDeclaration inner) Stmt.uses := by
  refine .behind (.expectName _) fun name => .behind (.acceptSymbol _) fun less => ?_
  have hrest (superclass : Option Occurrence) :
      Draws (superclass.map (Use.mk .read)).toList (do
        let _ ← expectSymbol .leftBrace .braceBeforeClassBody
        let methods ← methodsFrom (function inner .method) inner.bound #[]
        let _ ← expectSymbol .rightBrace .braceAfterClassBody
        pure (Stmt.class name superclass methods.toList)) Stmt.uses :=
    .behind (.expectSymbol _ _) fun _ =>
      ((draws_methodsFrom (draws_function h .method) inner.bound #[]).frame _).bind fun methods =>
        .behind (.expectSymbol _ _) fun _ => .done (.refl _)
  cases less with
  | false => exact (Draws.done (.refl [])).bind fun superclass => hrest superclass
  | true =>
    exact .behind (.expectName _) fun parent =>
      (Draws.occurrence parent .read).bind fun use => hrest (some use)

theorem draws_varDeclaration : Draws [] (varDeclaration inner) Stmt.uses := by
  refine .behind (.expectName _) fun name => .behind (.acceptSymbol _) fun equal => ?_
  have hrest (initializer : Option Expr) : Draws (Expr.optionUses initializer) (do
      let _ ← expectSymbol .semicolon .semicolonAfterVariable
      pure (Stmt.var name initializer)) Stmt.uses :=
    .behind (.expectSymbol _ _) fun _ => .done (.refl _)
  cases equal with
  | false => exact hrest none
  | true => exact h.expression.bind fun e => hrest (some e)

theorem draws_expressionUnless (stop : Symbol) :
    Draws [] (expressionUnless inner stop) Expr.optionUses := by
  refine .behind (.check _) fun missing => ?_
  cases missing with
  | true => exact .done (.refl _)
  | false => exact h.expression.bind fun e => .done (.refl _)

theorem draws_expressionStatement : Draws [] (expressionStatement inner) Stmt.uses :=
  h.expression.bind fun _ => .behind (.expectSymbol _ _) fun _ => .done (.refl _)

omit h in
theorem draws_breakStatement (keyword : Token) : Draws [] (breakStatement keyword) Stmt.uses := by
  have hrest : Draws [] (do
      let _ ← expectSymbol .semicolon .semicolonAfterBreak
      pure (Stmt.break keyword.toLexeme)) Stmt.uses :=
    .behind (.expectSymbol _ _) fun _ => .done (.refl _)
  refine .behind .get fun s => ?_
  split
  · exact .behind (.report _ _) fun _ => hrest
  · exact hrest

theorem draws_forInitializer :
    Draws [] (forInitializer inner) fun first => first.elim [] Stmt.uses := by
  refine .behind (.acceptSymbol _) fun missing => ?_
  cases missing with
  | true => exact .done (.refl _)
  | false =>
    refine .behind (.accept _) fun found => ?_
    cases found with
    | none => exact (draws_expressionStatement h).bind fun s => .done (.refl _)
    | some word => exact (draws_varDeclaration h).bind fun s => .done (.refl _)

/-- The increment is read before the body, and stands behind it in the tree. -/
theorem draws_forStatement : Draws [] (forStatement inner) Stmt.uses := by
  refine .behind (.expectSymbol _ _) fun _ => (draws_forInitializer h).bind fun first =>
    ((draws_expressionUnless h _).frame _).bind fun condition =>
      .behind (.expectSymbol _ _) fun _ =>
        ((draws_expressionUnless h _).frame _).bind fun increment =>
          .behind (.expectSymbol _ _) fun _ =>
            ((h.statement.withLoops _).frame _).bind fun body => .done ?_
  -- So the two are swapped, which makes no difference to their numbers.
  rw [forTree_uses, List.append_assoc, List.append_assoc]
  exact ((List.perm_append_comm.append_left _).append_left _).subperm

theorem draws_ifStatement : Draws [] (ifStatement inner) Stmt.uses := by
  refine .behind (.expectSymbol _ _) fun _ => h.expression.bind fun condition =>
    .behind (.expectSymbol _ _) fun _ => (h.statement.frame _).bind fun yes =>
      .behind (.accept _) fun found => ?_
  cases found with
  | none => exact .done (.refl _)
  | some word => exact (h.statement.frame _).bind fun no => .done (.refl _)

theorem draws_printStatement : Draws [] (printStatement inner) Stmt.uses :=
  h.expression.bind fun _ => .behind (.expectSymbol _ _) fun _ => .done (.refl _)

theorem draws_returnStatement (keyword : Token) :
    Draws [] (returnStatement inner keyword) Stmt.uses :=
  (draws_expressionUnless h _).bind fun _ => .behind (.expectSymbol _ _) fun _ => .done (.refl _)

theorem draws_whileStatement : Draws [] (whileStatement inner) Stmt.uses :=
  .behind (.expectSymbol _ _) fun _ => h.expression.bind fun _ =>
    .behind (.expectSymbol _ _) fun _ =>
      ((h.statement.withLoops _).frame _).bind fun _ => .done (.refl _)

theorem draws_statementRule : Draws [] (statementRule inner) Stmt.uses := by
  refine .behind .peek fun t => ?_
  split
  · exact .behind .advance fun _ => draws_breakStatement t
  · exact .behind .advance fun _ => draws_forStatement h
  · exact .behind .advance fun _ => draws_ifStatement h
  · exact .behind .advance fun _ => draws_printStatement h
  · exact .behind .advance fun _ => draws_returnStatement h t
  · exact .behind .advance fun _ => draws_whileStatement h
  · exact .behind .advance fun _ => (draws_block h).bind fun _ => .done (.refl _)
  · exact draws_expressionStatement h

theorem draws_declarationRule :
    Draws [] (declarationRule inner) fun r => r.elim [] Stmt.uses := by
  refine .recovering (.behind .peek fun t => ?_)
  split
  · exact .behind .advance fun _ => draws_classDeclaration h
  · exact .behind .advance fun _ => (draws_function h _).bind fun d => .done (.refl _)
  · exact .behind .advance fun _ => draws_varDeclaration h
  · exact draws_statementRule h

end

theorem innerDraws (n : Nat) :
    Draws [] (statement n) Stmt.uses ∧ Draws [] (declaration n) fun r => r.elim [] Stmt.uses := by
  -- Statements and declarations are in each other, so the induction is on both at once.
  induction n with
  | zero => exact ⟨.fail _ _, .recovering (.fail _ _)⟩
  | succ n ih =>
    have h : InnerDraws ⟨n + 1, expression n, statement n, declaration n⟩ :=
      ⟨draws_expression n, ih.1, ih.2⟩
    exact ⟨draws_statementRule h, draws_declarationRule h⟩

theorem draws_program (n : Nat) : Draws [] (program n) Stmt.listUses :=
  (draws_declarationsFrom (innerDraws n).2 false n #[]).bind fun _ => .done (.refl _)

/-! ## Token lists -/

/-- A rule on a list of tokens draws numbers from the next one on.  Where it succeeds, the
    occurrences of its tree have numbers of their own among these. -/
theorem runOn_drawn {p : Nat → Parser α} {uses : α → List Use} (hp : ∀ n, Draws [] (p n) uses)
    (tokens : List Token) (nextId : Nat) :
    nextId ≤ (runOn p tokens nextId).nextId ∧ ∀ tree,
      (runOn p tokens nextId).result = .ok tree →
        Fresh (uses tree) nextId (runOn p tokens nextId).nextId := by
  have hstart : (ParseState.ofTokens tokens nextId).nextId = nextId := by
    unfold ParseState.ofTokens
    dsimp only
    split <;> rfl
  have hrun := hp ((ParseState.ofTokens tokens nextId).rest.length + 1)
    (ParseState.ofTokens tokens nextId) nextId (.nil (Nat.le_of_eq hstart.symm))
  rw [hstart] at hrun
  unfold runOn
  dsimp only
  cases hend : p _ (ParseState.ofTokens tokens nextId) with
  | error e t =>
    rw [hend] at hrun
    exact ⟨hrun, fun tree htree => nomatch htree⟩
  | ok a t =>
    rw [hend] at hrun
    refine ⟨hrun.1, fun tree htree => ?_⟩
    dsimp only at htree
    split at htree
    · cases htree
      exact hrun.2
    · cases htree

end Parser

end Lox
