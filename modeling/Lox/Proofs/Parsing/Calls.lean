/-
  Lox.Proofs.Parsing.Calls

  Which rules the parser calls while it reads a program, and inside which bodies.

    * `Parser.Body`, `Parser.Call` — the bodies of loops and of functions, and the rules for
      statements and declarations with what they are called with;
    * `Parser.Step` — a rule calls another one at a position, perhaps for a body;
    * `Parser.Reaches`, `Parser.Visits` — what is called from some call on, and while a whole
      list of tokens is read, with the bodies around it, the innermost first;
    * `Visits.loops_eq` — the count of loops at a call is that of the bodies of loops around
      it, up to the nearest body of a function.

  The rules for `for`, `while`, `if`, functions and classes are taken apart into what stands
  before their bodies and the rest.  A call counts as made wherever the parser gets to it,
  whatever was given up and skipped before.
-/
import Lox.Proofs.Parsing.Ends

namespace Lox

/-- Behind the next token. -/
def ParseState.advanced (s : ParseState) : ParseState := { s with rest := s.rest.tail }

namespace Parser

/-! ## Calls -/

/-- A body that is read as a part of something else. -/
inductive Body where
  /-- Of a `while` or a `for`. -/
  | loop
  /-- Of a function or a method. -/
  | callable
deriving DecidableEq

/-- The rules for the parts of statements that `statement n` and `declaration n` read. -/
def parts (n : Nat) : Inner := ⟨n + 1, expression n, statement n, declaration n⟩

/-- A rule for statements or declarations, with its bounds and with what it is called
    with. -/
inductive Call where
  | declarations (n : Nat) (braced : Bool) (bound : Nat) (read : Array Stmt)
  | declaration (n : Nat)
  | statement (n : Nat)
  | block (n : Nat)
  | function (n : Nat) (kind : CallableKind)
  | class (n : Nat)
  | methods (n bound : Nat) (read : Array FunctionDecl)
  /-- The rest of a `break`, behind the word. -/
  | break (keyword : Token)

namespace Call

/-- What a call gives. -/
def Answer : Call → Type
  | declarations .. => Array Stmt
  | declaration _ => Option Stmt
  | statement _ => Stmt
  | block _ => List Stmt
  | function .. => FunctionDecl
  | «class» _ => Stmt
  | methods .. => Array FunctionDecl
  | «break» _ => Stmt

/-- The rule of the parser that is called. -/
def run : (call : Call) → Parser call.Answer
  | declarations n braced bound read => declarationsFrom (Parser.declaration n) braced bound read
  | declaration n => Parser.declaration n
  | statement n => Parser.statement n
  | block n => Parser.block (parts n)
  | function n kind => Parser.function (parts n) kind
  | «class» n => classDeclaration (parts n)
  | methods n bound read => methodsFrom (Parser.function (parts n) .method) bound read
  | «break» keyword => breakStatement keyword

end Call

/-! ## What stands before a body -/

/-- A `for` up to its body. -/
def forHead (inner : Inner) : Parser (Option Stmt × Option Expr × Option Expr) := do
  let _ ← expectSymbol .leftParen .parenAfterFor
  let initializer ← forInitializer inner
  let condition ← expressionUnless inner .semicolon
  let _ ← expectSymbol .semicolon .semicolonAfterLoopCondition
  let increment ← expressionUnless inner .rightParen
  let _ ← expectSymbol .rightParen .parenAfterForClauses
  return (initializer, condition, increment)

/-- A `while` up to its body. -/
def whileHead (inner : Inner) : Parser Expr := do
  let _ ← expectSymbol .leftParen .parenAfterWhile
  let condition ← inner.expression
  let _ ← expectSymbol .rightParen .parenAfterCondition
  return condition

/-- An `if` up to its first branch. -/
def ifHead (inner : Inner) : Parser Expr := do
  let _ ← expectSymbol .leftParen .parenAfterIf
  let condition ← inner.expression
  let _ ← expectSymbol .rightParen .parenAfterIfCondition
  return condition

/-- A function from its name up to its body, with the brace that opens it. -/
def functionHead (inner : Inner) (kind : CallableKind) : Parser (Lexeme × Array Lexeme) := do
  let name ← expectName (.callableName kind)
  let _ ← expectSymbol .leftParen (.parenAfterCallableName kind)
  let parameters ←
    if ← check (.symbol .rightParen) then pure #[] else parametersFrom inner.bound #[]
  let _ ← expectSymbol .rightParen .parenAfterParameters
  let _ ← expectSymbol .leftBrace (.braceBeforeCallableBody kind)
  return (name, parameters)

/-- A class from its name up to its methods, with the brace that opens them. -/
def classHead : Parser (Lexeme × Option Occurrence) := do
  let name ← expectName .className
  let superclass ←
    if ← acceptSymbol .less then
      let parent ← expectName .superclassName
      pure (some (← occurrence parent))
    else
      pure none
  let _ ← expectSymbol .leftBrace .braceBeforeClassBody
  return (name, superclass)

theorem forStatement_eq (inner : Inner) : forStatement inner = do
    let (initializer, condition, increment) ← forHead inner
    let body ← insideLoop inner.statement
    return forTree initializer condition increment body := by
  simp [forStatement, forHead]

theorem whileStatement_eq (inner : Inner) : whileStatement inner = do
    let condition ← whileHead inner
    let body ← insideLoop inner.statement
    return .while condition body := by
  simp [whileStatement, whileHead]

theorem ifStatement_eq (inner : Inner) : ifStatement inner = do
    let condition ← ifHead inner
    let yes ← inner.statement
    if (← accept (.keyword .elseWord)).isSome then
      return .ifElse condition yes (some (← inner.statement))
    else
      return .ifElse condition yes none := by
  simp [ifStatement, ifHead]

theorem function_eq (inner : Inner) (kind : CallableKind) : function inner kind = do
    let (name, parameters) ← functionHead inner kind
    let body ← outsideLoops (block inner)
    return ⟨name, parameters.toList, body⟩ := by
  unfold function functionHead
  simp only [bind_assoc]
  refine bind_congr fun name => bind_congr fun _ => bind_congr fun empty => ?_
  cases empty <;> simp

theorem classDeclaration_eq (inner : Inner) : classDeclaration inner = do
    let (name, superclass) ← classHead
    let methods ← methodsFrom (function inner .method) inner.bound #[]
    let _ ← expectSymbol .rightBrace .braceAfterClassBody
    return .class name superclass methods.toList := by
  unfold classDeclaration classHead
  simp only [bind_assoc]
  refine bind_congr fun name => bind_congr fun less => ?_
  cases less <;> simp

/-! ## Steps from call to call -/

/-- There is another token, and it is not the brace that closes a braced list. -/
def GoesOn (braced : Bool) (s : ParseState) : Prop :=
  ∃ t ts, s.rest = t :: ts ∧ (braced && t.kind = .symbol .rightBrace) = false

/-- A call at a position makes another one, for a body if there is one between them. -/
inductive Step : Call → ParseState → Option Body → Call → ParseState → Prop
  | first {n braced bound read s} : GoesOn braced s →
      Step (.declarations n braced (bound + 1) read) s none (.declaration n) s
  | rest {n braced bound read s r t} : GoesOn braced s → declaration n s = .ok r t →
      Step (.declarations n braced (bound + 1) read) s none
        (.declarations n braced bound (r.elim read read.push)) t
  | class {n s} : s.current.kind = .keyword .classWord →
      Step (.declaration (n + 1)) s none (.class n) s.advanced
  | function {n s} : s.current.kind = .keyword .funWord →
      Step (.declaration (n + 1)) s none (.function n .function) s.advanced
  | statement {n s} : s.current.kind ≠ .keyword .classWord → s.current.kind ≠ .keyword .funWord →
      s.current.kind ≠ .keyword .varWord →
      Step (.declaration (n + 1)) s none (.statement (n + 1)) s
  | break {n s} : s.current.kind = .keyword .breakWord →
      Step (.statement (n + 1)) s none (.break s.current) s.advanced
  | for {n s head t} : s.current.kind = .keyword .forWord →
      forHead (parts n) s.advanced = .ok head t →
      Step (.statement (n + 1)) s (some .loop) (.statement n) { t with loops := t.loops + 1 }
  | while {n s head t} : s.current.kind = .keyword .whileWord →
      whileHead (parts n) s.advanced = .ok head t →
      Step (.statement (n + 1)) s (some .loop) (.statement n) { t with loops := t.loops + 1 }
  | yes {n s head t} : s.current.kind = .keyword .ifWord →
      ifHead (parts n) s.advanced = .ok head t →
      Step (.statement (n + 1)) s none (.statement n) t
  | no {n s head t yes u word v} : s.current.kind = .keyword .ifWord →
      ifHead (parts n) s.advanced = .ok head t → Parser.statement n t = .ok yes u →
      accept (.keyword .elseWord) u = .ok (some word) v →
      Step (.statement (n + 1)) s none (.statement n) v
  | block {n s} : s.current.kind = .symbol .leftBrace →
      Step (.statement (n + 1)) s none (.block n) s.advanced
  | inside {n s} : Step (.block n) s none (.declarations n true (n + 1) #[]) s
  | body {n kind s head t} : functionHead (parts n) kind s = .ok head t →
      Step (.function n kind) s (some .callable) (.block n) { t with loops := 0 }
  | members {n s head t} : classHead s = .ok head t →
      Step (.class n) s none (.methods n (n + 1) #[]) t
  | method {n bound read s} : GoesOn true s →
      Step (.methods n (bound + 1) read) s none (.function n .method) s
  | others {n bound read s decl t} : GoesOn true s →
      Parser.function (parts n) .method s = .ok decl t →
      Step (.methods n (bound + 1) read) s none (.methods n bound (read.push decl)) t

/-- The calls that are made from one on, with the bodies that were entered on the way, the
    innermost first. -/
inductive Reaches (call : Call) (s : ParseState) : List Body → Call → ParseState → Prop
  | refl : Reaches call s [] call s
  | step {around call' s' body call'' s''} : Reaches call s around call' s' →
      Step call' s' body call'' s'' → Reaches call s (body.toList ++ around) call'' s''

/-- The calls that are made while a list of tokens is read as a program. -/
def Visits (tokens : List Token) (nextId : Nat) : List Body → Call → ParseState → Prop :=
  let start := ParseState.ofTokens tokens nextId
  Reaches (.declarations (start.rest.length + 1) false (start.rest.length + 1) #[]) start

theorem Reaches.head {call call' call'' : Call} {s s' s'' : ParseState} {body : Option Body}
    {around : List Body} (hstep : Step call s body call' s')
    (h : Reaches call' s' around call'' s'') :
    Reaches call s (around ++ body.toList) call'' s'' := by
  induction h with
  | refl =>
    have hfirst := Reaches.refl.step hstep
    rwa [List.append_nil] at hfirst
  | step _ hnext ih =>
    rw [List.append_assoc]
    exact ih.step hnext

/-! ## The count of loops -/

/-- A step that moves forward and leaves the count of loops as it was, with an answer or
    without. -/
def Advancing {α : Type} (p : Parser α) : Prop := ∀ s : ParseState, s.Advances (after p s)

section

variable {α β : Type} {p : Parser α} {f : α → Parser β} {s t : ParseState}

theorem after_of_ok {a : α} (h : p s = .ok a t) : after p s = t := by
  unfold after
  rw [h]

theorem after_of_error {e : Diagnostic} (h : p s = .error e t) : after p s = t := by
  unfold after
  rw [h]

theorem bind_of_error {e : Diagnostic} (h : p s = .error e t) : (p >>= f) s = .error e t := by
  show EStateM.bind p f s = _
  rw [EStateM.bind, h]

theorem after_bind_of_ok {a : α} (h : p s = .ok a t) : after (p >>= f) s = after (f a) t := by
  rw [after, bind_of_ok h, after]

theorem after_bind_of_error {e : Diagnostic} (h : p s = .error e t) :
    after (p >>= f) s = t :=
  after_of_error (bind_of_error h)

namespace Advancing

theorem of_ok (h : Advancing p) {a : α} (hrun : p s = .ok a t) : s.Advances t :=
  after_of_ok hrun ▸ h s

theorem pure (a : α) : Advancing (pure a) := fun s => .refl s

theorem bind (hp : Advancing p) (hf : ∀ a, Advancing (f a)) : Advancing (p >>= f) := by
  intro s
  cases hrun : p s with
  | ok a t =>
    rw [after_bind_of_ok hrun]
    exact (hp.of_ok hrun).trans (hf a t)
  | error e t =>
    rw [after_bind_of_error hrun, ← after_of_error hrun]
    exact hp s

theorem of_reads {n : Nat} {P : Stretch → α → Prop} (h : Reads n p P) : Advancing p :=
  h.advances

theorem expectSymbol (symbol : Symbol) (cause : SyntaxFault) :
    Advancing (expectSymbol symbol cause) :=
  of_reads (reads_expectSymbol (n := 0) symbol cause)

theorem expectName (cause : SyntaxFault) : Advancing (expectName cause) :=
  of_reads (reads_expectName (n := 0) cause)

theorem accept (kind : TokenKind) : Advancing (accept kind) :=
  of_reads (reads_accept (n := 0) kind)

theorem acceptSymbol (symbol : Symbol) : Advancing (acceptSymbol symbol) :=
  (accept _).bind fun _ => pure _

end Advancing

end

theorem advancing_forHead (n : Nat) : Advancing (forHead (parts n)) :=
  (Advancing.expectSymbol _ _).bind fun _ =>
    (Advancing.of_reads (reads_forInitializer (innerReads n))).bind fun _ =>
      (Advancing.of_reads (reads_expressionUnless (innerReads n) _)).bind fun _ =>
        (Advancing.expectSymbol _ _).bind fun _ =>
          (Advancing.of_reads (reads_expressionUnless (innerReads n) _)).bind fun _ =>
            (Advancing.expectSymbol _ _).bind fun _ => .pure _

theorem advancing_whileHead (n : Nat) : Advancing (whileHead (parts n)) :=
  (Advancing.expectSymbol _ _).bind fun _ =>
    (Advancing.of_reads (innerReads n).expression).bind fun _ =>
      (Advancing.expectSymbol _ _).bind fun _ => .pure _

theorem advancing_ifHead (n : Nat) : Advancing (ifHead (parts n)) :=
  (Advancing.expectSymbol _ _).bind fun _ =>
    (Advancing.of_reads (innerReads n).expression).bind fun _ =>
      (Advancing.expectSymbol _ _).bind fun _ => .pure _

theorem advancing_classHead : Advancing classHead := by
  refine (Advancing.expectName _).bind fun name => (Advancing.acceptSymbol _).bind fun less => ?_
  have hrest (superclass : Option Occurrence) : Advancing (do
      let _ ← expectSymbol .leftBrace .braceBeforeClassBody
      pure (name, superclass)) :=
    (Advancing.expectSymbol _ _).bind fun _ => .pure _
  cases less with
  | false => exact hrest none
  | true =>
    exact (Advancing.expectName _).bind fun parent =>
      (Advancing.of_reads (reads_occurrence (n := 0) parent)).bind fun use => hrest (some use)

/-- Whatever a call finds, and however it ends, it moves forward, and the count of loops is
    what it was. -/
theorem Call.advancing (call : Call) : Advancing call.run := by
  cases call with
  | declarations n braced bound read =>
    exact .of_reads (reads_declarationsFrom (n := 0) braced
      ((innerReads n).declaration.shorter (Nat.zero_le n)) (Nat.zero_le _) read)
  | declaration n => exact .of_reads (innerReads n).declaration
  | statement n => exact .of_reads (innerReads n).statement
  | block n => exact .of_reads (reads_block (innerReads n))
  | function n kind => exact .of_reads (reads_function (innerReads n) kind)
  | «class» n => exact .of_reads (reads_classDeclaration (innerReads n))
  | methods n bound read =>
    exact .of_reads (reads_methodsFrom (reads_function (innerReads n) .method) bound read)
  | «break» keyword => exact .of_reads (reads_breakStatement (n := 0) keyword)

/-- The count of loops inside a body that is entered. -/
def Body.loopsInside : Option Body → Nat → Nat
  | none, loops => loops
  | some .loop, loops => loops + 1
  | some .callable, _ => 0

theorem Step.loops_eq {call call' : Call} {s s' : ParseState} {body : Option Body}
    (h : Step call s body call' s') : s'.loops = Body.loopsInside body s.loops := by
  cases h with
  | rest _ hrun => exact ((Call.declaration _).advancing.of_ok hrun).loops
  | «for» _ hrun => exact congrArg (· + 1) ((advancing_forHead _).of_ok hrun).loops
  | «while» _ hrun => exact congrArg (· + 1) ((advancing_whileHead _).of_ok hrun).loops
  | yes _ hrun => exact ((advancing_ifHead _).of_ok hrun).loops
  | no _ hhead hyes helse =>
    exact ((Advancing.accept _).of_ok helse).loops.trans
      (((Call.statement _).advancing.of_ok hyes).loops.trans
        ((advancing_ifHead _).of_ok hhead).loops)
  | members hrun => exact (advancing_classHead.of_ok hrun).loops
  | others _ hrun => exact ((Call.function _ _).advancing.of_ok hrun).loops
  | _ => rfl

/-- The bodies around a position, up to the nearest body of a function. -/
def Body.within (around : List Body) : List Body := around.takeWhile (· ≠ .callable)

theorem Reaches.loops_eq {call call' : Call} {s s' : ParseState} {around : List Body}
    (h : Reaches call s around call' s') (hs : s.loops = 0) :
    s'.loops = (Body.within around).count .loop := by
  induction h with
  | refl => exact hs
  | @step around call' s' body call'' s'' _ hstep ih =>
    rw [hstep.loops_eq, ih]
    cases body with
    | none => rfl
    | some body =>
      cases body with
      | loop => simp [Body.loopsInside, Body.within]
      | callable => simp [Body.loopsInside, Body.within]

theorem loops_ofTokens (tokens : List Token) (nextId : Nat) :
    (ParseState.ofTokens tokens nextId).loops = 0 := by
  unfold ParseState.ofTokens
  dsimp only
  split <;> rfl

/-- At each call the count of loops is that of the bodies of loops around it within the
    innermost function. -/
theorem Visits.loops_eq {tokens : List Token} {nextId : Nat} {around : List Body} {call : Call}
    {s : ParseState} (h : Visits tokens nextId around call s) :
    s.loops = (Body.within around).count .loop :=
  Reaches.loops_eq h (loops_ofTokens tokens nextId)

end Parser
end Lox
