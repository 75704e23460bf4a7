/-
  Lox.Proofs.Parsing.LoopCount

  The parser counts loops exactly, whatever is wrong with a program.

    * `Parser.counting` — one loop more is counted before a step, and one less after it;
    * `Parser.Blamed` — a fault of a call that says nothing of `break`, or that a stray
      `break` is to blame for which the call leads to;
    * `finds_inner` — a call reports no other faults;
    * `Reaches.keeps` — what is reported on the way stays reported;
    * `loop_count_exact` — so a `break` is reported exactly if there is no body of a loop
      around it within the innermost function.

  The steps from call to call are the same whether a call succeeds, fails or recovers, so
  nothing is assumed of the rest of the program.
-/
import Lox.Proofs.Parsing.Quiet
import Lox.Proofs.Verdicts

namespace Lox

namespace Parser

/-! ## Raising and lowering the count -/

/-- One loop more is counted before a step and one less after it, however it ends. -/
def counting {α : Type} (p : Parser α) : Parser α := fun s =>
  match p { s with loops := s.loops + 1 } with
  | .ok a t => .ok a { t with loops := t.loops - 1 }
  | .error e t => .error e { t with loops := t.loops - 1 }

/-- Around a step that leaves the count as it was, this is a step inside one more loop. -/
theorem counting_eq_insideLoop {α : Type} {p : Parser α} (h : Advancing p) :
    counting p = insideLoop p := by
  funext s
  have hloops := (h { s with loops := s.loops + 1 }).loops
  unfold counting insideLoop withLoops
  cases hrun : p { s with loops := s.loops + 1 } with
  | ok a t =>
    rw [after_of_ok hrun] at hloops
    simp only [hloops, Nat.add_sub_cancel]
  | error e t =>
    rw [after_of_error hrun] at hloops
    simp only [hloops, Nat.add_sub_cancel]

/-! ## Lists of declarations and of methods -/

section

variable {declaration : Parser (Option Stmt)} {method : Parser FunctionDecl} {braced : Bool}
  {bound : Nat} {s : ParseState}

theorem declarationsFrom_of_goesOn (h : GoesOn braced s) (read : Array Stmt) :
    declarationsFrom declaration braced (bound + 1) read s = (do
      let r ← declaration
      declarationsFrom declaration braced bound (r.elim read read.push) : Parser _) s := by
  obtain ⟨t, ts, hrest, hnot⟩ := h
  rw [declarationsFrom]
  simp only [hrest, hnot]
  rfl

theorem declarationsFrom_of_not_goesOn (h : ¬GoesOn braced s) (read : Array Stmt) :
    declarationsFrom declaration braced (bound + 1) read s = .ok read s := by
  rw [declarationsFrom]
  cases hrest : s.rest with
  | nil => simp only [hrest]
  | cons t ts =>
    have hclosed : (braced && t.kind = .symbol .rightBrace) = true :=
      Bool.of_not_eq_false fun hnot => h ⟨t, ts, hrest, hnot⟩
    simp only [hrest, hclosed, if_true]

theorem methodsFrom_of_goesOn (h : GoesOn true s) (read : Array FunctionDecl) :
    methodsFrom method (bound + 1) read s = (do
      let decl ← method
      methodsFrom method bound (read.push decl) : Parser _) s := by
  obtain ⟨t, ts, hrest, hnot⟩ := h
  have hkind : t.kind ≠ .symbol .rightBrace := by simpa using hnot
  rw [methodsFrom]
  simp only [hrest, if_neg hkind]

theorem methodsFrom_of_not_goesOn (h : ¬GoesOn true s) (read : Array FunctionDecl) :
    methodsFrom method (bound + 1) read s = .ok read s := by
  rw [methodsFrom]
  cases hrest : s.rest with
  | nil => simp only [hrest]
  | cons t ts =>
    have hkind : t.kind = .symbol .rightBrace :=
      not_not.mp fun hne => h ⟨t, ts, hrest, by simpa using hne⟩
    simp only [hrest, if_pos hkind]

end

/-! ## Who is to blame -/

/-- A fault that is no report of a stray `break`, or that of one to which a call leads. -/
def Blamed (call : Call) (s : ParseState) (d : Diagnostic) : Prop :=
  ¬d.IsStray ∨ ∃ around keyword s', Reaches call s around (.break keyword) s' ∧ s'.loops = 0 ∧
    d = diagnostic keyword .breakOutsideLoop

section

variable {α : Type} {call call' : Call} {s s' t : ParseState} {body : Option Body} {n : Nat}

theorem Quiet.blamed {p : Parser α} (h : Quiet p) : Finds (Blamed call s) p t :=
  (h t).mono fun _ => .inl

/-- What a call reports, a call that makes it reports. -/
theorem Finds.of_step {p : Parser α} (hstep : Step call s body call' s')
    (h : Finds (Blamed call' s') p t) : Finds (Blamed call s) p t :=
  h.mono fun _ hd => hd.imp id fun ⟨_, keyword, u, hreaches, hloops, hd⟩ =>
    ⟨_, keyword, u, hreaches.head hstep, hloops, hd⟩

theorem finds_break (keyword : Token) (s : ParseState) :
    Finds (Blamed (.break keyword) s) (breakStatement keyword) s := by
  have hrest : Quiet (do
      let _ ← expectSymbol .semicolon .semicolonAfterBreak
      pure (Stmt.break keyword.toLexeme)) :=
    (Quiet.expectSymbol _ (by nofun)).bind fun _ => .pure _
  have hget : Finds (Blamed (.break keyword) s) (get : Parser ParseState) s := .of_eq rfl
  refine hget.bind fun u t hu => ?_
  cases hu
  by_cases hloops : s.loops = 0
  · rw [if_pos hloops]
    have hreport : Finds (Blamed (.break keyword) s) (report keyword .breakOutsideLoop) s :=
      Reported.push (.of_eq rfl) (.inr ⟨_, keyword, s, .refl, hloops, rfl⟩) rfl
    exact hreport.bind fun _ _ _ => hrest.blamed
  · rw [if_neg hloops]
    exact hrest.blamed

/-! ## Calls -/

theorem finds_declarations
    (hdeclaration : ∀ s, Finds (Blamed (.declaration n) s) (declaration n) s) (braced : Bool)
    (bound : Nat) (read : Array Stmt) (s : ParseState) :
    Finds (Blamed (.declarations n braced bound read) s)
      (declarationsFrom (declaration n) braced bound read) s := by
  induction bound generalizing read s with
  | zero => exact .pure _
  | succ bound ih =>
    by_cases hgoes : GoesOn braced s
    · have hall : Finds (Blamed (.declarations n braced (bound + 1) read) s) (do
          let r ← declaration n
          declarationsFrom (declaration n) braced bound (r.elim read read.push)) s :=
        ((hdeclaration s).of_step (.first hgoes)).bind fun r t hrun =>
          (ih (r.elim read read.push) t).of_step (.rest hgoes hrun)
      unfold Finds at hall ⊢
      rwa [declarationsFrom_of_goesOn hgoes]
    · exact (Finds.ok_iff (declarationsFrom_of_not_goesOn hgoes read)).mpr (.of_eq rfl)

theorem finds_block (hdeclaration : ∀ s, Finds (Blamed (.declaration n) s) (declaration n) s)
    (s : ParseState) : Finds (Blamed (.block n) s) (block (parts n)) s :=
  ((finds_declarations hdeclaration true (n + 1) #[] s).of_step .inside).bind fun _ _ _ =>
    ((Quiet.expectSymbol _ (by nofun)).bind fun _ => .pure _).blamed

theorem finds_function (hblock : ∀ s, Finds (Blamed (.block n) s) (block (parts n)) s)
    (kind : CallableKind) (s : ParseState) :
    Finds (Blamed (.function n kind) s) (function (parts n) kind) s := by
  rw [function_eq]
  refine (quiet_functionHead n kind).blamed.bind fun head t hhead => ?_
  exact (Finds.withLoops ((hblock _).of_step (.body hhead))).bind fun _ _ _ => .pure _

theorem finds_methods
    (hmethod : ∀ s, Finds (Blamed (.function n .method) s) (function (parts n) .method) s)
    (bound : Nat) (read : Array FunctionDecl) (s : ParseState) :
    Finds (Blamed (.methods n bound read) s)
      (methodsFrom (function (parts n) .method) bound read) s := by
  induction bound generalizing read s with
  | zero => exact .pure _
  | succ bound ih =>
    by_cases hgoes : GoesOn true s
    · have hall : Finds (Blamed (.methods n (bound + 1) read) s) (do
          let decl ← function (parts n) .method
          methodsFrom (function (parts n) .method) bound (read.push decl)) s :=
        ((hmethod s).of_step (.method hgoes)).bind fun decl t hrun =>
          (ih (read.push decl) t).of_step (.others hgoes hrun)
      unfold Finds at hall ⊢
      rwa [methodsFrom_of_goesOn hgoes]
    · exact (Finds.ok_iff (methodsFrom_of_not_goesOn hgoes read)).mpr (.of_eq rfl)

theorem finds_class
    (hmethod : ∀ s, Finds (Blamed (.function n .method) s) (function (parts n) .method) s)
    (s : ParseState) : Finds (Blamed (.class n) s) (classDeclaration (parts n)) s := by
  rw [classDeclaration_eq]
  refine quiet_classHead.blamed.bind fun head t hhead => ?_
  exact ((finds_methods hmethod (n + 1) #[] t).of_step (.members hhead)).bind fun _ _ _ =>
    ((Quiet.expectSymbol _ (by nofun)).bind fun _ => .pure _).blamed

/-- After one token, a rule goes on behind it. -/
theorem Finds.bindAdvance {Q : Diagnostic → Prop} {p : Parser α} (h : Finds Q p s.advanced) :
    Finds Q (advance >>= fun _ => p) s := by
  refine Finds.bind (.of_eq rfl) fun u t hu => ?_
  cases hu
  exact h

theorem finds_statement (hstatement : ∀ s, Finds (Blamed (.statement n) s) (statement n) s)
    (hblock : ∀ s, Finds (Blamed (.block n) s) (block (parts n)) s) (s : ParseState) :
    Finds (Blamed (.statement (n + 1)) s) (statementRule (parts n)) s := by
  refine Finds.bind (.of_eq rfl) fun t u hpeek => ?_
  cases hpeek
  split
  · next hkind => exact .bindAdvance ((finds_break _ _).of_step (.break hkind))
  · next hkind =>
    rw [forStatement_eq]
    refine .bindAdvance ((quiet_forHead n).blamed.bind fun head t hhead => ?_)
    exact (Finds.withLoops ((hstatement _).of_step (.for hkind hhead))).bind fun _ _ _ => .pure _
  · next hkind =>
    rw [ifStatement_eq]
    refine .bindAdvance ((quiet_ifHead n).blamed.bind fun head t hhead => ?_)
    refine ((hstatement t).of_step (.yes hkind hhead)).bind fun yes u hyes => ?_
    refine (Quiet.accept _).blamed.bind fun found v helse => ?_
    cases found with
    | none => exact .pure _
    | some word =>
      exact ((hstatement v).of_step (.no hkind hhead hyes helse)).bind fun _ _ _ => .pure _
  · exact .bindAdvance (quiet_printStatement n).blamed
  · exact .bindAdvance (quiet_returnStatement n _).blamed
  · next hkind =>
    rw [whileStatement_eq]
    refine .bindAdvance ((quiet_whileHead n).blamed.bind fun head t hhead => ?_)
    exact (Finds.withLoops ((hstatement _).of_step (.while hkind hhead))).bind fun _ _ _ => .pure _
  · next hkind =>
    exact .bindAdvance (((hblock _).of_step (.block hkind)).bind fun _ _ _ => .pure _)
  · exact (quiet_expressionStatement n).blamed

theorem finds_declaration
    (hfunction : ∀ kind s, Finds (Blamed (.function n kind) s) (function (parts n) kind) s)
    (hstatement : ∀ s, Finds (Blamed (.statement (n + 1)) s) (statementRule (parts n)) s)
    (s : ParseState) :
    Finds (Blamed (.declaration (n + 1)) s) (declarationRule (parts n)) s := by
  refine .recovering (Finds.bind (.of_eq rfl) fun t u hpeek => ?_)
  cases hpeek
  split
  · next hkind => exact .bindAdvance ((finds_class (hfunction .method) _).of_step (.class hkind))
  · next hkind =>
    exact .bindAdvance (((hfunction .function _).of_step (.function hkind)).bind fun _ _ _ =>
      .pure _)
  · exact .bindAdvance (quiet_varDeclaration n).blamed
  · next hclass hfun hvar => exact (hstatement s).of_step (.statement hclass hfun hvar)

/-- Statements and declarations are in each other, so the induction is on both at once. -/
theorem finds_inner (n : Nat) :
    (∀ s, Finds (Blamed (.statement n) s) (statement n) s) ∧
      ∀ s, Finds (Blamed (.declaration n) s) (declaration n) s := by
  induction n with
  | zero =>
    have hfail : Quiet (fail .expression : Parser Stmt) := .fail (by nofun)
    exact ⟨fun _ => hfail.blamed, fun _ => .recovering hfail.blamed⟩
  | succ n ih =>
    have hblock := finds_block ih.2
    have hstatement := finds_statement ih.1 hblock
    exact ⟨hstatement, finds_declaration (finds_function hblock) hstatement⟩

end

/-! ## What was reported stays reported -/

section

variable {α β : Type} {p : Parser α} {f : α → Parser β} {s t : ParseState}

/-- All faults of a position are there at another one. -/
def Keeps (s t : ParseState) : Prop := s.faults.toList <+: t.faults.toList

theorem keeps_bind (hf : ∀ a, Advancing (f a)) : Keeps (after p s) (after (p >>= f) s) := by
  cases hrun : p s with
  | ok a t =>
    rw [after_of_ok hrun, after_bind_of_ok hrun]
    exact (hf a t).faults
  | error e t =>
    rw [after_of_error hrun, after_bind_of_error hrun]
    exact List.prefix_rfl

/-- From behind the first step on, what the others keep is kept. -/
theorem Keeps.behind {a : α} {u : ParseState} (hrun : p s = .ok a t)
    (h : Keeps u (after (f a) t)) : Keeps u (after (p >>= f) s) := by
  rwa [after_bind_of_ok hrun]

theorem keeps_withLoops (change : Nat → Nat) :
    Keeps (after p { s with loops := change s.loops }) (after (withLoops change p) s) := by
  unfold Keeps after withLoops
  cases p { s with loops := change s.loops } <;> exact List.prefix_rfl

theorem keeps_recovering : Keeps (after p s) (after (recovering p) s) := by
  unfold Keeps after recovering
  cases p s with
  | ok a t => exact List.prefix_rfl
  | error e t => simp

/-- A rule looks at the next token and goes on by its kind. -/
theorem peek_bind (f : Token → Parser β) (s : ParseState) : (peek >>= f) s = f s.current s := rfl

theorem after_congr {p q : Parser α} {s t : ParseState} (h : p s = q t) :
    after p s = after q t := by
  rw [after, h, after]

theorem keeps_of_eq {p q : Parser α} {u : ParseState} (h : p s = q t)
    (hq : Keeps u (after q t)) : Keeps u (after p s) :=
  after_congr h ▸ hq

end

/-- A step inside loops, and then one that moves forward. -/
theorem keeps_body {α β : Type} {p : Parser α} {f : α → Parser β} (change : Nat → Nat)
    (hf : ∀ a, Advancing (f a)) (s : ParseState) :
    Keeps (after p { s with loops := change s.loops }) (after (withLoops change p >>= f) s) :=
  List.IsPrefix.trans (keeps_withLoops change) (keeps_bind hf)

section

variable {n : Nat} {s : ParseState}

theorem statement_break (h : s.current.kind = .keyword .breakWord) :
    statement (n + 1) s = breakStatement s.current s.advanced := by
  rw [statement, statementRule, peek_bind]
  simp only [h]
  rfl

theorem statement_for (h : s.current.kind = .keyword .forWord) :
    statement (n + 1) s = forStatement (parts n) s.advanced := by
  rw [statement, statementRule, peek_bind]
  simp only [h]
  rfl

theorem statement_while (h : s.current.kind = .keyword .whileWord) :
    statement (n + 1) s = whileStatement (parts n) s.advanced := by
  rw [statement, statementRule, peek_bind]
  simp only [h]
  rfl

theorem statement_if (h : s.current.kind = .keyword .ifWord) :
    statement (n + 1) s = ifStatement (parts n) s.advanced := by
  rw [statement, statementRule, peek_bind]
  simp only [h]
  rfl

theorem statement_block (h : s.current.kind = .symbol .leftBrace) :
    statement (n + 1) s = (block (parts n) >>= fun body => pure (.block body)) s.advanced := by
  rw [statement, statementRule, peek_bind]
  simp only [h]
  rfl

/-- A declaration that begins with none of its words is a statement. -/
theorem declaration_statement (hclass : s.current.kind ≠ .keyword .classWord)
    (hfun : s.current.kind ≠ .keyword .funWord) (hvar : s.current.kind ≠ .keyword .varWord) :
    (do
      let t ← peek
      match t.kind with
      | .keyword .classWord =>
        advance
        classDeclaration (parts n)
      | .keyword .funWord =>
        advance
        return .function (← Parser.function (parts n) .function)
      | .keyword .varWord =>
        advance
        varDeclaration (parts n)
      | _ => statementRule (parts n) : Parser Stmt) s = statementRule (parts n) s := by
  rw [peek_bind]
  generalize s.current.kind = kind at hclass hfun hvar ⊢
  split
  · exact absurd rfl hclass
  · exact absurd rfl hfun
  · exact absurd rfl hvar
  · rfl

end

/-- What a call reports is kept by the call that makes it. -/
theorem Step.keeps {call call' : Call} {s s' : ParseState} {body : Option Body}
    (h : Step call s body call' s') : Keeps (after call'.run s') (after call.run s) := by
  cases h with
  | first hgoes =>
    exact keeps_of_eq (declarationsFrom_of_goesOn hgoes _)
      (keeps_bind fun _ => (Call.declarations ..).advancing)
  | rest hgoes hrun =>
    exact keeps_of_eq (declarationsFrom_of_goesOn hgoes _) (.behind hrun List.prefix_rfl)
  | «class» hkind =>
    refine List.IsPrefix.trans ?_ keeps_recovering
    refine keeps_of_eq (q := classDeclaration (parts _)) (t := s.advanced) ?_ List.prefix_rfl
    rw [peek_bind]
    simp only [hkind]
    rfl
  | function hkind =>
    refine List.IsPrefix.trans ?_ keeps_recovering
    refine keeps_of_eq (t := s.advanced) ?_ (keeps_bind fun decl => .pure (Stmt.function decl))
    rw [peek_bind]
    simp only [hkind]
    rfl
  | @statement n s hclass hfun hvar =>
    refine List.IsPrefix.trans ?_ keeps_recovering
    exact keeps_of_eq (declaration_statement hclass hfun hvar) List.prefix_rfl
  | «break» hkind => exact keeps_of_eq (statement_break hkind) List.prefix_rfl
  | «for» hkind hhead =>
    refine keeps_of_eq (statement_for hkind) ?_
    rw [forStatement_eq]
    exact .behind hhead (keeps_body _ (fun _ => .pure _) _)
  | «while» hkind hhead =>
    refine keeps_of_eq (statement_while hkind) ?_
    rw [whileStatement_eq]
    exact .behind hhead (keeps_body _ (fun _ => .pure _) _)
  | yes hkind hhead =>
    refine keeps_of_eq (statement_if hkind) ?_
    rw [ifStatement_eq]
    refine .behind hhead (keeps_bind fun yes => (Advancing.accept _).bind fun found => ?_)
    cases found with
    | none => exact .pure _
    | some word => exact (Call.statement _).advancing.bind fun _ => .pure _
  | no hkind hhead hyes helse =>
    refine keeps_of_eq (statement_if hkind) ?_
    rw [ifStatement_eq]
    exact .behind hhead (.behind hyes (.behind helse (keeps_bind fun _ => .pure _)))
  | block hkind => exact keeps_of_eq (statement_block hkind) (keeps_bind fun _ => .pure _)
  | inside => exact keeps_bind fun _ => (Advancing.expectSymbol _ _).bind fun _ => .pure _
  | body hhead =>
    show Keeps _ (after (Parser.function (parts _) _) s)
    rw [function_eq]
    exact .behind hhead (keeps_body (fun _ => 0) (fun _ => .pure _) _)
  | members hhead =>
    show Keeps _ (after (classDeclaration (parts _)) s)
    rw [classDeclaration_eq]
    exact .behind hhead (keeps_bind fun _ => (Advancing.expectSymbol _ _).bind fun _ => .pure _)
  | method hgoes =>
    exact keeps_of_eq (methodsFrom_of_goesOn hgoes _)
      (keeps_bind fun _ => (Call.methods ..).advancing)
  | others hgoes hrun =>
    exact keeps_of_eq (methodsFrom_of_goesOn hgoes _) (.behind hrun List.prefix_rfl)

theorem Reaches.keeps {call call' : Call} {s s' : ParseState} {around : List Body}
    (h : Reaches call s around call' s') : Keeps (after call'.run s') (after call.run s) := by
  induction h with
  | refl => exact List.prefix_rfl
  | step _ hstep ih => exact hstep.keeps.trans ih

/-! ## Whole programs -/

theorem after_expectSymbol_faults (symbol : Symbol) (cause : SyntaxFault) (s : ParseState) :
    (after (expectSymbol symbol cause) s).faults = s.faults := by
  obtain ⟨found, t, hrun, hfaults⟩ := accept_answers (.symbol symbol) s
  unfold expectSymbol expect
  rw [after_bind_of_ok hrun]
  cases found <;> exact hfaults

/-- A `break` is reported if the count is zero, and nothing else is. -/
theorem after_break (keyword : Token) (s : ParseState) :
    (after (breakStatement keyword) s).faults =
      if s.loops = 0 then s.faults.push (diagnostic keyword .breakOutsideLoop) else s.faults := by
  have hrest (t : ParseState) : (after (do
      let _ ← expectSymbol .semicolon .semicolonAfterBreak
      pure (Stmt.break keyword.toLexeme) : Parser Stmt) t).faults = t.faults := by
    refine (congrArg ParseState.faults ?_).trans
      (after_expectSymbol_faults .semicolon .semicolonAfterBreak t)
    cases hrun : expectSymbol .semicolon .semicolonAfterBreak t with
    | ok a u =>
      rw [after_bind_of_ok hrun, after_of_ok hrun]
      rfl
    | error e u => rw [after_bind_of_error hrun, after_of_error hrun]
  unfold breakStatement
  rw [after_bind_of_ok (rfl : (get : Parser ParseState) s = .ok s s)]
  split
  · exact hrest _
  · exact hrest s

section

variable {α : Type} {p : Nat → Parser α} {tokens : List Token} {nextId : Nat} {d : Diagnostic}

theorem faults_ofTokens (tokens : List Token) (nextId : Nat) :
    (ParseState.ofTokens tokens nextId).faults = #[] := by
  unfold ParseState.ofTokens
  dsimp only
  split <;> rfl

/-- What is wrong with a text was reported, or was given up with. -/
theorem Finds.of_mem_faultsIn {Q : Diagnostic → Prop}
    (h : Finds Q (p ((ParseState.ofTokens tokens nextId).rest.length + 1))
      (ParseState.ofTokens tokens nextId))
    (hd : d ∈ faultsIn (runOn p tokens nextId).result) : Q d := by
  have hmore {t : ParseState} (ht : Reported Q (ParseState.ofTokens tokens nextId) t) :
      ∀ d ∈ t.faults.toList, Q d := by
    obtain ⟨more, hmore, hQ⟩ := ht
    rwa [hmore, faults_ofTokens, List.nil_append]
  rw [runOn_result] at hd
  cases hrun : p _ (ParseState.ofTokens tokens nextId) with
  | ok a t =>
    rw [hrun] at hd
    rw [ok_iff hrun] at h
    by_cases hempty : t.faults = #[]
    · rw [outcome, hempty, verdict_empty] at hd
      cases hd
    · rw [outcome, verdict_of_ne hempty] at hd
      exact hmore h d hd
  | error e t =>
    rw [hrun] at hd
    rw [error_iff hrun] at h
    have hfound : d ∈ t.faults.toList ∨ d = e := by
      simpa [outcome, faultsIn] using hd
    rcases hfound with hfound | rfl
    · exact hmore h.1 d hfound
    · exact h.2

/-- What was reported is wrong with a text. -/
theorem mem_faultsIn_of_reported
    (hd : d ∈ (after (p ((ParseState.ofTokens tokens nextId).rest.length + 1))
      (ParseState.ofTokens tokens nextId)).faults.toList) :
    d ∈ faultsIn (runOn p tokens nextId).result := by
  rw [runOn_result]
  cases hrun : p _ (ParseState.ofTokens tokens nextId) with
  | ok a t =>
    rw [after_of_ok hrun] at hd
    have hne : t.faults ≠ #[] := fun hempty => by simp [hempty] at hd
    rw [outcome, verdict_of_ne hne]
    exact hd
  | error e t =>
    rw [after_of_error hrun] at hd
    rw [outcome, faultsIn, Array.toList_push]
    exact List.mem_append_left _ hd

end

/-- Reading a program is reading declarations up to the end. -/
theorem finds_program {Q : Diagnostic → Prop} {n : Nat} {s : ParseState}
    (h : Finds Q (declarationsFrom (declaration n) false n #[]) s) : Finds Q (program n) s :=
  h.bind fun _ _ _ => .pure _

/-- A `break` to which reading a program leads is reported exactly if no body of a loop is
    around it within the innermost function, and no other fault says so. -/
theorem mem_faultsIn_break {tokens : List Token} {nextId line : Nat} {place : Place} :
    .syntactic line place .breakOutsideLoop ∈ faultsIn (parseProgram tokens nextId).result ↔
      ∃ around keyword s, Visits tokens nextId around (.break keyword) s ∧
        .loop ∉ Body.within around ∧ keyword.line = line ∧ keyword.place = place := by
  constructor
  · intro hd
    obtain hnot | ⟨around, keyword, s, hvisits, hloops, hd⟩ := Finds.of_mem_faultsIn
      (finds_program (finds_declarations (finds_inner _).2 false _ #[] _)) hd
    · exact absurd ⟨line, place, rfl⟩ hnot
    · cases hd
      rw [Visits.loops_eq hvisits, List.count_eq_zero] at hloops
      exact ⟨around, keyword, s, hvisits, hloops, rfl, rfl⟩
  · rintro ⟨around, keyword, s, hvisits, hnone, rfl, rfl⟩
    have hloops : s.loops = 0 := (Visits.loops_eq hvisits).trans (List.count_eq_zero.mpr hnone)
    have hreported := after_break keyword s
    rw [if_pos hloops] at hreported
    refine mem_faultsIn_of_reported ?_
    refine (List.IsPrefix.trans (Reaches.keeps hvisits) (keeps_bind fun _ => .pure _)).subset ?_
    show _ ∈ (after (breakStatement keyword) s).faults.toList
    rw [hreported, Array.toList_push]
    exact List.mem_append_right _ (List.mem_singleton_self _)

/-- The count of loops is exact, whatever else is wrong with a program. -/
theorem loop_count_exact (tokens : List Token) (nextId : Nat) :
    -- However a call ends, the count is what it was before it.
    (∀ (call : Call) s, (after call.run s).loops = s.loops) ∧
    -- So it makes no difference whether the count is lowered by one behind the body of a loop,
    -- or is set back to what it was.
    (∀ n, counting (statement n) = insideLoop (statement n)) ∧
    -- At each call it is the number of bodies of loops around it, up to the nearest body of a
    -- function.
    (∀ around call s, Visits tokens nextId around call s →
      s.loops = (Body.within around).count .loop) ∧
    -- A `break` is reported if there are none, and nothing else is reported at it.
    (∀ around keyword s, Visits tokens nextId around (.break keyword) s →
      (after (breakStatement keyword) s).faults =
        if .loop ∈ Body.within around then s.faults
        else s.faults.push (diagnostic keyword .breakOutsideLoop)) ∧
    -- In the end just these are reported, whatever was given up before or after them.
    (∀ line place,
      .syntactic line place .breakOutsideLoop ∈ faultsIn (parseProgram tokens nextId).result ↔
        ∃ around keyword s, Visits tokens nextId around (.break keyword) s ∧
          .loop ∉ Body.within around ∧ keyword.line = line ∧ keyword.place = place) ∧
    -- With a single expression there are none.
    ∀ line place, .syntactic line place .breakOutsideLoop ∉
      faultsIn (parseExpression tokens nextId).result := by
  refine ⟨fun call s => (call.advancing s).loops,
    fun n => counting_eq_insideLoop (Call.statement n).advancing,
    fun _ _ _ hvisits => hvisits.loops_eq, fun around keyword s hvisits => ?_,
    fun _ _ => mem_faultsIn_break, fun line place hd => ?_⟩
  · have hloops : s.loops = 0 ↔ .loop ∉ Body.within around := by
      rw [hvisits.loops_eq, List.count_eq_zero]
    rw [after_break]
    by_cases hin : .loop ∈ Body.within around
    · rw [if_pos hin, if_neg fun hzero => hloops.mp hzero hin]
    · rw [if_neg hin, if_pos (hloops.mpr hin)]
  · exact (quiet_expression _ _).of_mem_faultsIn hd ⟨line, place, rfl⟩

end Parser
end Lox
