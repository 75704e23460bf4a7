/-
  Lox.Proofs.Parsing.Quiet

  What a step of the parser reports.

    * `Parser.Finds` — the faults that a step reports from a position on, or gives up with;
    * `Finds.bind` — one step after another, where the second one starts where the first one
      ended;
    * `Parser.Quiet` — a step that says nothing of `break`;
    * `quiet_expression`, `quiet_varDeclaration` and others — so are the rules for
      expressions, and all of a statement up to its parts.
-/
import Lox.Proofs.Parsing.Calls

namespace Lox

/-- A report of a `break` outside loops. -/
def Diagnostic.IsStray (d : Diagnostic) : Prop :=
  ∃ line place, d = .syntactic line place .breakOutsideLoop

namespace Parser

/-! ## What a step reports -/

/-- Between two positions only such faults were reported. -/
def Reported (Q : Diagnostic → Prop) (s t : ParseState) : Prop :=
  ∃ more : List Diagnostic, t.faults.toList = s.faults.toList ++ more ∧ ∀ d ∈ more, Q d

/-- From a position on, a step reports only such faults, and gives up with no other. -/
def Finds {α : Type} (Q : Diagnostic → Prop) (p : Parser α) (s : ParseState) : Prop :=
  match p s with
  | .ok _ t => Reported Q s t
  | .error e t => Reported Q s t ∧ Q e

section

variable {α β : Type} {Q R : Diagnostic → Prop} {p : Parser α} {f : α → Parser β}
  {s t u : ParseState}

namespace Reported

theorem of_eq (h : t.faults = s.faults) : Reported Q s t := ⟨[], by simp [h], nofun⟩

theorem trans (hst : Reported Q s t) (htu : Reported Q t u) : Reported Q s u := by
  obtain ⟨more, hmore, hQ⟩ := hst
  obtain ⟨rest, hrest, hQ'⟩ := htu
  exact ⟨more ++ rest, by rw [hrest, hmore, List.append_assoc],
    List.forall_mem_append.mpr ⟨hQ, hQ'⟩⟩

theorem mono (h : Reported Q s t) (hQR : ∀ d, Q d → R d) : Reported R s t :=
  have ⟨more, hmore, hQ⟩ := h
  ⟨more, hmore, fun d hd => hQR d (hQ d hd)⟩

theorem push {d : Diagnostic} (h : Reported Q s t) (hd : Q d) (ht : u.faults = t.faults.push d) :
    Reported Q s u :=
  h.trans ⟨[d], by simp [ht], List.forall_mem_singleton.mpr hd⟩

end Reported

namespace Finds

theorem ok_iff {a : α} (h : p s = .ok a t) : Finds Q p s ↔ Reported Q s t := by
  unfold Finds
  rw [h]

theorem error_iff {e : Diagnostic} (h : p s = .error e t) :
    Finds Q p s ↔ Reported Q s t ∧ Q e := by
  unfold Finds
  rw [h]

theorem pure (a : α) : Finds Q (pure a) s := Reported.of_eq rfl

theorem mono (h : Finds Q p s) (hQR : ∀ d, Q d → R d) : Finds R p s := by
  cases hrun : p s with
  | ok a t => exact (ok_iff hrun).mpr (((ok_iff hrun).mp h).mono hQR)
  | error e t =>
    obtain ⟨hreported, he⟩ := (error_iff hrun).mp h
    exact (error_iff hrun).mpr ⟨hreported.mono hQR, hQR e he⟩

theorem bind (hp : Finds Q p s) (hf : ∀ a t, p s = .ok a t → Finds Q (f a) t) :
    Finds Q (p >>= f) s := by
  cases hrun : p s with
  | error e t => exact (error_iff (bind_of_error hrun)).mpr ((error_iff hrun).mp hp)
  | ok a t =>
    have hfirst := (ok_iff hrun).mp hp
    have hsecond := hf a t hrun
    cases hrun' : f a t with
    | ok b u =>
      exact (ok_iff ((bind_of_ok hrun).trans hrun')).mpr
        (hfirst.trans ((ok_iff hrun').mp hsecond))
    | error e u =>
      obtain ⟨hreported, he⟩ := (error_iff hrun').mp hsecond
      exact (error_iff ((bind_of_ok hrun).trans hrun')).mpr ⟨hfirst.trans hreported, he⟩

theorem withLoops {change : Nat → Nat} (h : Finds Q p { s with loops := change s.loops }) :
    Finds Q (withLoops change p) s := by
  unfold Finds Parser.withLoops at *
  cases hrun : p { s with loops := change s.loops } with
  | ok a t =>
    rw [hrun] at h
    exact h
  | error e t =>
    rw [hrun] at h
    exact h

/-- What a step gives up with is reported. -/
theorem recovering (h : Finds Q p s) : Finds Q (recovering p) s := by
  unfold Finds Parser.recovering at *
  cases hrun : p s with
  | ok a t =>
    rw [hrun] at h
    exact h
  | error e t =>
    rw [hrun] at h
    exact h.1.push h.2 rfl

end Finds

/-! ## Steps that say nothing of `break` -/

/-- A step that says nothing of `break`. -/
def Quiet (p : Parser α) : Prop := ∀ s, Finds (fun d => ¬d.IsStray) p s

theorem accept_answers (kind : TokenKind) (s : ParseState) :
    ∃ found t, accept kind s = .ok found t ∧ t.faults = s.faults := by
  unfold accept
  cases s.rest with
  | nil => exact ⟨_, _, rfl, rfl⟩
  | cons t ts =>
    cases hsame : t.kind.sameType kind <;> simp only [hsame] <;> exact ⟨_, _, rfl, rfl⟩

namespace Quiet

theorem pure (a : α) : Quiet (pure a) := fun _ => .pure a

theorem bind (hp : Quiet p) (hf : ∀ a, Quiet (f a)) : Quiet (p >>= f) :=
  fun s => (hp s).bind fun a t _ => hf a t

theorem not_isStray {t : Token} {cause : SyntaxFault} (h : cause ≠ .breakOutsideLoop) :
    ¬(diagnostic t cause).IsStray := by
  rintro ⟨line, place, ⟨⟩⟩
  exact h rfl

theorem fail {cause : SyntaxFault} (h : cause ≠ .breakOutsideLoop) :
    Quiet (fail cause : Parser α) :=
  fun _ => ⟨.of_eq rfl, not_isStray h⟩

theorem report (t : Token) {cause : SyntaxFault} (h : cause ≠ .breakOutsideLoop) :
    Quiet (report t cause) :=
  fun _ => Reported.push (.of_eq rfl) (not_isStray h) rfl

/-- A step that has an answer and reports nothing. -/
theorem of_answers (h : ∀ s, ∃ a t, p s = .ok a t ∧ t.faults = s.faults) : Quiet p := fun s =>
  have ⟨_, _, hrun, hfaults⟩ := h s
  (Finds.ok_iff hrun).mpr (.of_eq hfaults)

theorem peek : Quiet peek := of_answers fun _ => ⟨_, _, rfl, rfl⟩

theorem advance : Quiet advance := of_answers fun _ => ⟨_, _, rfl, rfl⟩

theorem check (kind : TokenKind) : Quiet (check kind) := of_answers fun _ => ⟨_, _, rfl, rfl⟩

theorem occurrence (name : Lexeme) : Quiet (occurrence name) :=
  of_answers fun _ => ⟨_, _, rfl, rfl⟩

theorem take? {γ : Type} (select : TokenKind → Option γ) : Quiet (take? select) := by
  refine of_answers fun s => ?_
  unfold Parser.take?
  cases s.rest with
  | nil => exact ⟨_, _, rfl, rfl⟩
  | cons t ts => cases hselect : select t.kind <;> simp only [hselect] <;> exact ⟨_, _, rfl, rfl⟩

theorem accept (kind : TokenKind) : Quiet (accept kind) := of_answers (accept_answers kind)

theorem expect (kind : TokenKind) {cause : SyntaxFault} (h : cause ≠ .breakOutsideLoop) :
    Quiet (expect kind cause) := by
  refine (accept kind).bind fun found => ?_
  cases found with
  | none => exact .fail h
  | some t => exact .pure t

theorem expectSymbol (symbol : Symbol) {cause : SyntaxFault} (h : cause ≠ .breakOutsideLoop) :
    Quiet (expectSymbol symbol cause) := expect _ h

theorem expectName {cause : SyntaxFault} (h : cause ≠ .breakOutsideLoop) :
    Quiet (expectName cause) :=
  (expect _ h).bind fun _ => .pure _

theorem acceptSymbol (symbol : Symbol) : Quiet (acceptSymbol symbol) :=
  (accept _).bind fun _ => .pure _

end Quiet

end

/-! ## Expressions -/

section

variable {expression : Parser Expr} (hexpression : Quiet expression)
include hexpression

theorem quiet_argumentsFrom (bound : Nat) (read : Array Expr) :
    Quiet (argumentsFrom expression bound read) := by
  induction bound generalizing read with
  | zero => exact .pure _
  | succ bound ih =>
    have hmore : Quiet (do
        let argument ← expression
        if ← acceptSymbol .comma then argumentsFrom expression bound (read.push argument)
        else pure (read.push argument)) := by
      refine hexpression.bind fun e => (Quiet.acceptSymbol _).bind fun more => ?_
      cases more with
      | false => exact .pure _
      | true => exact ih _
    unfold argumentsFrom
    split
    · exact Quiet.peek.bind fun t => (Quiet.report t (by simp)).bind fun _ => hmore
    · exact hmore

theorem quiet_finishCall (bound : Nat) (callee : Expr) :
    Quiet (finishCall bound expression callee) := by
  have hrest (arguments : Array Expr) : Quiet (do
      let paren ← expectSymbol .rightParen .parenAfterArguments
      pure (Expr.call callee paren.toLexeme arguments.toList)) :=
    (Quiet.expectSymbol _ (by nofun)).bind fun _ => .pure _
  refine (Quiet.check _).bind fun empty => ?_
  cases empty with
  | true => exact hrest #[]
  | false => exact (quiet_argumentsFrom hexpression bound #[]).bind hrest

theorem quiet_suffixes (inner bound : Nat) (e : Expr) :
    Quiet (suffixes inner expression bound e) := by
  induction bound generalizing e with
  | zero => exact .pure _
  | succ bound ih =>
    refine (Quiet.take? _).bind fun found => ?_
    match found with
    | none => exact .pure _
    | some (.call, _) => exact (quiet_finishCall hexpression inner e).bind fun call => ih call
    | some (.property, _) => exact (Quiet.expectName (by nofun)).bind fun name => ih (.get e name)

theorem quiet_primary : Quiet (primary expression) := by
  have hconstant (value : Literal) : Quiet (advance >>= fun _ => pure (Expr.literal value)) :=
    Quiet.advance.bind fun _ => .pure _
  refine Quiet.peek.bind fun t => ?_
  cases t.kind with
  | number value => exact hconstant _
  | string content => exact hconstant _
  | identifier =>
    exact Quiet.advance.bind fun _ => (Quiet.occurrence _).bind fun use => .pure _
  | keyword word =>
    cases word with
    | falseWord => exact hconstant _
    | trueWord => exact hconstant _
    | nilWord => exact hconstant _
    | superWord =>
      exact Quiet.advance.bind fun _ => (Quiet.expectSymbol _ (by nofun)).bind fun _ =>
        (Quiet.expectName (by nofun)).bind fun method => (Quiet.occurrence _).bind fun use =>
          .pure _
    | thisWord => exact Quiet.advance.bind fun _ => (Quiet.occurrence _).bind fun use => .pure _
    | _ => exact .fail (by nofun)
  | symbol symbol =>
    cases symbol with
    | leftParen =>
      exact Quiet.advance.bind fun _ => hexpression.bind fun e =>
        (Quiet.expectSymbol _ (by nofun)).bind fun _ => .pure _
    | _ => exact .fail (by nofun)
  | eof => exact .fail (by nofun)

end

theorem quiet_level {γ : Type} {select : TokenKind → Option γ}
    {node : γ → Lexeme → Expr → Expr → Expr} {operand : Parser Expr} (hoperand : Quiet operand)
    (bound : Nat) : Quiet (level select node bound operand) := by
  have hchain (bound : Nat) (left : Expr) : Quiet (chain select node operand bound left) := by
    induction bound generalizing left with
    | zero => exact .pure _
    | succ bound ih =>
      refine (Quiet.take? _).bind fun found => ?_
      match found with
      | none => exact .pure _
      | some (op, sign) => exact hoperand.bind fun right => ih _
  exact hoperand.bind (hchain bound)

theorem quiet_unaryOps (bound : Nat) (ops : List (TokenKind × Lexeme)) :
    Quiet (unaryOps bound ops) := by
  induction bound generalizing ops with
  | zero => exact .pure _
  | succ bound ih =>
    refine (Quiet.take? _).bind fun found => ?_
    match found with
    | none => exact .pure _
    | some (op, sign) => exact ih _

theorem quiet_operation {expression : Parser Expr} (hexpression : Quiet expression) (bound : Nat) :
    Quiet (operation bound expression) := by
  unfold operation
  iterate 6 refine quiet_level ?_ bound
  exact (quiet_unaryOps bound []).bind fun ops => Quiet.bind
    ((quiet_primary hexpression).bind fun e => quiet_suffixes hexpression bound bound e)
    fun e => .pure _

theorem quiet_assignment {expression : Parser Expr} (hexpression : Quiet expression)
    (bound : Nat) : Quiet (assignment bound expression) := by
  refine (quiet_operation hexpression bound).bind fun left =>
    (Quiet.accept _).bind fun found => ?_
  cases found with
  | none => exact .pure _
  | some equals =>
    refine hexpression.bind fun value => ?_
    have hother : Quiet (report equals .invalidAssignmentTarget >>= fun _ => pure left) :=
      (Quiet.report _ (by nofun)).bind fun _ => .pure _
    cases left with
    | name use => exact (Quiet.occurrence _).bind fun target => .pure _
    | get object property => exact .pure _
    | _ => exact hother

theorem quiet_expression (n : Nat) : Quiet (expression n) := by
  induction n with
  | zero => exact .fail (by nofun)
  | succ n ih => exact quiet_assignment ih (n + 1)

/-! ## Up to the parts of a statement -/

section

variable (n : Nat)

theorem quiet_parametersFrom (bound : Nat) (read : Array Lexeme) :
    Quiet (parametersFrom bound read) := by
  induction bound generalizing read with
  | zero => exact .pure _
  | succ bound ih =>
    have hmore : Quiet (do
        let parameter ← expectName .parameterName
        if ← acceptSymbol .comma then parametersFrom bound (read.push parameter)
        else pure (read.push parameter)) := by
      refine (Quiet.expectName (by simp)).bind fun name =>
        (Quiet.acceptSymbol _).bind fun more => ?_
      cases more with
      | false => exact .pure _
      | true => exact ih _
    unfold parametersFrom
    split
    · exact Quiet.peek.bind fun t => (Quiet.report t (by simp)).bind fun _ => hmore
    · exact hmore

theorem quiet_functionHead (kind : CallableKind) : Quiet (functionHead (parts n) kind) := by
  refine (Quiet.expectName (by nofun)).bind fun name =>
    (Quiet.expectSymbol _ (by nofun)).bind fun _ => (Quiet.check _).bind fun empty => ?_
  have hrest (parameters : Array Lexeme) : Quiet (do
      let _ ← expectSymbol .rightParen .parenAfterParameters
      let _ ← expectSymbol .leftBrace (.braceBeforeCallableBody kind)
      pure (name, parameters)) :=
    (Quiet.expectSymbol _ (by nofun)).bind fun _ =>
      (Quiet.expectSymbol _ (by nofun)).bind fun _ => .pure _
  cases empty with
  | true => exact hrest #[]
  | false => exact (quiet_parametersFrom _ _).bind hrest

theorem quiet_classHead : Quiet classHead := by
  refine (Quiet.expectName (by nofun)).bind fun name => (Quiet.acceptSymbol _).bind fun less => ?_
  have hrest (superclass : Option Occurrence) : Quiet (do
      let _ ← expectSymbol .leftBrace .braceBeforeClassBody
      pure (name, superclass)) :=
    (Quiet.expectSymbol _ (by nofun)).bind fun _ => .pure _
  cases less with
  | false => exact hrest none
  | true =>
    exact (Quiet.expectName (by nofun)).bind fun parent =>
      (Quiet.occurrence parent).bind fun use => hrest (some use)

theorem quiet_varDeclaration : Quiet (varDeclaration (parts n)) := by
  refine (Quiet.expectName (by nofun)).bind fun name => (Quiet.acceptSymbol _).bind fun equal => ?_
  have hrest (initializer : Option Expr) : Quiet (do
      let _ ← expectSymbol .semicolon .semicolonAfterVariable
      pure (Stmt.var name initializer)) :=
    (Quiet.expectSymbol _ (by nofun)).bind fun _ => .pure _
  cases equal with
  | false => exact hrest none
  | true => exact (quiet_expression n).bind fun e => hrest (some e)

theorem quiet_expressionUnless (stop : Symbol) : Quiet (expressionUnless (parts n) stop) := by
  refine (Quiet.check _).bind fun missing => ?_
  cases missing with
  | true => exact .pure _
  | false => exact (quiet_expression n).bind fun e => .pure _

theorem quiet_expressionStatement : Quiet (expressionStatement (parts n)) :=
  (quiet_expression n).bind fun _ => (Quiet.expectSymbol _ (by nofun)).bind fun _ => .pure _

theorem quiet_forInitializer : Quiet (forInitializer (parts n)) := by
  refine (Quiet.acceptSymbol _).bind fun missing => ?_
  cases missing with
  | true => exact .pure _
  | false =>
    refine (Quiet.accept _).bind fun found => ?_
    cases found with
    | none => exact (quiet_expressionStatement n).bind fun s => .pure _
    | some word => exact (quiet_varDeclaration n).bind fun s => .pure _

theorem quiet_forHead : Quiet (forHead (parts n)) :=
  (Quiet.expectSymbol _ (by nofun)).bind fun _ => (quiet_forInitializer n).bind fun _ =>
    (quiet_expressionUnless n _).bind fun _ => (Quiet.expectSymbol _ (by nofun)).bind fun _ =>
      (quiet_expressionUnless n _).bind fun _ => (Quiet.expectSymbol _ (by nofun)).bind fun _ =>
        .pure _

theorem quiet_whileHead : Quiet (whileHead (parts n)) :=
  (Quiet.expectSymbol _ (by nofun)).bind fun _ => (quiet_expression n).bind fun _ =>
    (Quiet.expectSymbol _ (by nofun)).bind fun _ => .pure _

theorem quiet_ifHead : Quiet (ifHead (parts n)) :=
  (Quiet.expectSymbol _ (by nofun)).bind fun _ => (quiet_expression n).bind fun _ =>
    (Quiet.expectSymbol _ (by nofun)).bind fun _ => .pure _

theorem quiet_printStatement : Quiet (printStatement (parts n)) :=
  (quiet_expression n).bind fun _ => (Quiet.expectSymbol _ (by nofun)).bind fun _ => .pure _

theorem quiet_returnStatement (keyword : Token) : Quiet (returnStatement (parts n) keyword) :=
  (quiet_expressionUnless n _).bind fun _ => (Quiet.expectSymbol _ (by nofun)).bind fun _ => .pure _

end

end Parser
end Lox
