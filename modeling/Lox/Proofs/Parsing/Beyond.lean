/-
  Lox.Proofs.Parsing.Beyond

  The rules of the parser, with anything at all in place of what they do where a bound
  is used up.

    * `Beyond` — what is done there: a repetition ends with an answer, and an
      expression, a statement or a declaration is not read;
    * `Beyond.expression`, `Beyond.statement`, `Beyond.declaration`, `Beyond.program` —
      the rules; those without a repetition are the ones of the parser itself.

  A rule whose outcome does not depend on what is beyond its bounds has come to an end
  before them.
-/
import Lox.Parser.Statement

namespace Lox.Parser

/-- What the rules do where a bound is used up. -/
structure Beyond where
  /-- A repetition that has come as far as the given answer. -/
  loop : {α : Type} → α → Parser α
  expression : Parser Expr
  statement : Parser Stmt
  declaration : Parser (Option Stmt)

namespace Beyond

variable (x : Beyond)

/-! ## Expressions -/

/-- Operators of one level with operands after them. -/
def chain {α : Type} (select : TokenKind → Option α) (node : α → Lexeme → Expr → Expr → Expr)
    (operand : Parser Expr) : Nat → Expr → Parser Expr
  | 0, left => x.loop left
  | n + 1, left => do
    match ← take? select with
    | none => pure left
    | some (op, sign) =>
      let right ← operand
      chain select node operand n (node op sign.toLexeme left right)

/-- Operands with the operators of one level between them. -/
def level {α : Type} (select : TokenKind → Option α) (node : α → Lexeme → Expr → Expr → Expr)
    (bound : Nat) (operand : Parser Expr) : Parser Expr := do
  let left ← operand
  x.chain select node operand bound left

/-- Operators in front of an operand. -/
def unaryOps : Nat → List (TokenKind × Lexeme) → Parser (List (TokenKind × Lexeme))
  | 0, ops => x.loop ops
  | n + 1, ops => do
    match ← take? unaryOp with
    | none => pure ops
    | some (op, sign) => unaryOps n ((op, sign.toLexeme) :: ops)

/-- The arguments of a call up to the last one. -/
def argumentsFrom (expression : Parser Expr) : Nat → Array Expr → Parser (Array Expr)
  | 0, read => x.loop read
  | n + 1, read => do
    if maxArity ≤ read.size then
      report (← peek) .tooManyArguments
    let argument ← expression
    if ← acceptSymbol .comma then
      argumentsFrom expression n (read.push argument)
    else
      pure (read.push argument)

/-- The arguments of a call and the closing parenthesis. -/
def finishCall (bound : Nat) (expression : Parser Expr) (callee : Expr) : Parser Expr := do
  let arguments ←
    if ← check (.symbol .rightParen) then pure #[] else x.argumentsFrom expression bound #[]
  let paren ← expectSymbol .rightParen .parenAfterArguments
  return .call callee paren.toLexeme arguments.toList

/-- Calls and properties after an expression. -/
def suffixes (bound : Nat) (expression : Parser Expr) : Nat → Expr → Parser Expr
  | 0, e => x.loop e
  | n + 1, e => do
    match ← take? suffixStart with
    | none => pure e
    | some (.call, _) => suffixes bound expression n (← x.finishCall bound expression e)
    | some (.property, _) => suffixes bound expression n (.get e (← expectName .propertyName))

/-- Everything tighter than an assignment. -/
def operation (bound : Nat) (expression : Parser Expr) : Parser Expr :=
  let call : Parser Expr := do x.suffixes bound expression bound (← primary expression)
  let unary : Parser Expr := do
    let ops ← x.unaryOps bound []
    return applyUnary ops (← call)
  let factor := x.level factorOp .binary bound unary
  let term := x.level termOp .binary bound factor
  let comparison := x.level comparisonOp .binary bound term
  let equality := x.level equalityOp .binary bound comparison
  let conjunction := x.level (logicalOp .and) .logical bound equality
  x.level (logicalOp .or) .logical bound conjunction

/-- An operation, or an assignment to one that is a name or a property. -/
def assignment (bound : Nat) (expression : Parser Expr) : Parser Expr := do
  let left ← x.operation bound expression
  match ← accept (.symbol .equal) with
  | none => pure left
  | some equals =>
    let value ← expression
    match left with
    | .name use => return .assign (← occurrence use.name) value
    | .get object property => return .set object property value
    | other =>
      report equals .invalidAssignmentTarget
      pure other

/-- An expression. -/
def expressionWithin : Nat → Parser Expr
  | 0 => x.expression
  | n + 1 => x.assignment (n + 1) (expressionWithin n)

/-! ## Statements -/

/-- Declarations up to the end, or up to a closing brace if `braced`. -/
def declarationsFrom (declaration : Parser (Option Stmt)) (braced : Bool) :
    Nat → Array Stmt → Parser (Array Stmt)
  | 0, read => x.loop read
  | n + 1, read => fun s =>
    match s.rest with
    | [] => .ok read s
    | t :: _ =>
      if braced && t.kind = .symbol .rightBrace then .ok read s
      else
        (do
          let stmt ← declaration
          declarationsFrom declaration braced n (stmt.elim read read.push) : Parser _) s

/-- The declarations of a block and its closing brace. -/
def block (inner : Inner) : Parser (List Stmt) := do
  let body ← x.declarationsFrom inner.declaration true inner.bound #[]
  let _ ← expectSymbol .rightBrace .braceAfterBlock
  return body.toList

/-- Parameters up to the last one. -/
def parametersFrom : Nat → Array Lexeme → Parser (Array Lexeme)
  | 0, read => x.loop read
  | n + 1, read => do
    if maxArity ≤ read.size then
      report (← peek) .tooManyParameters
    let parameter ← expectName .parameterName
    if ← acceptSymbol .comma then
      parametersFrom n (read.push parameter)
    else
      pure (read.push parameter)

/-- A function or a method from its name on. -/
def function (inner : Inner) (kind : CallableKind) : Parser FunctionDecl := do
  let name ← expectName (.callableName kind)
  let _ ← expectSymbol .leftParen (.parenAfterCallableName kind)
  let parameters ←
    if ← check (.symbol .rightParen) then pure #[] else x.parametersFrom inner.bound #[]
  let _ ← expectSymbol .rightParen .parenAfterParameters
  let _ ← expectSymbol .leftBrace (.braceBeforeCallableBody kind)
  let body ← outsideLoops (x.block inner)
  return ⟨name, parameters.toList, body⟩

/-- Methods up to a closing brace or the end. -/
def methodsFrom (method : Parser FunctionDecl) :
    Nat → Array FunctionDecl → Parser (Array FunctionDecl)
  | 0, read => x.loop read
  | n + 1, read => fun s =>
    match s.rest with
    | [] => .ok read s
    | t :: _ =>
      if t.kind = .symbol .rightBrace then .ok read s
      else (do methodsFrom method n (read.push (← method)) : Parser _) s

/-- A class from its name on. -/
def classDeclaration (inner : Inner) : Parser Stmt := do
  let name ← expectName .className
  let superclass ←
    if ← acceptSymbol .less then
      let parent ← expectName .superclassName
      pure (some (← occurrence parent))
    else
      pure none
  let _ ← expectSymbol .leftBrace .braceBeforeClassBody
  let methods ← x.methodsFrom (x.function inner .method) inner.bound #[]
  let _ ← expectSymbol .rightBrace .braceAfterClassBody
  return .class name superclass methods.toList

/-- A statement that is no declaration. -/
def statementRule (inner : Inner) : Parser Stmt := do
  let t ← peek
  match t.kind with
  | .keyword .breakWord =>
    advance
    breakStatement t
  | .keyword .forWord =>
    advance
    forStatement inner
  | .keyword .ifWord =>
    advance
    ifStatement inner
  | .keyword .printWord =>
    advance
    printStatement inner
  | .keyword .returnWord =>
    advance
    returnStatement inner t
  | .keyword .whileWord =>
    advance
    whileStatement inner
  | .symbol .leftBrace =>
    advance
    return .block (← x.block inner)
  | _ => expressionStatement inner

/-- A declaration or any other statement. -/
def declarationRule (inner : Inner) : Parser (Option Stmt) :=
  recovering do
    let t ← peek
    match t.kind with
    | .keyword .classWord =>
      advance
      x.classDeclaration inner
    | .keyword .funWord =>
      advance
      return .function (← x.function inner .function)
    | .keyword .varWord =>
      advance
      varDeclaration inner
    | _ => x.statementRule inner

mutual

/-- A statement. -/
def statementWithin : Nat → Parser Stmt
  | 0 => x.statement
  | n + 1 =>
    x.statementRule ⟨n + 1, x.expressionWithin n, statementWithin n, declarationWithin n⟩

/-- A declaration. -/
def declarationWithin : Nat → Parser (Option Stmt)
  | 0 => x.declaration
  | n + 1 =>
    x.declarationRule ⟨n + 1, x.expressionWithin n, statementWithin n, declarationWithin n⟩

end

/-- Declarations up to the end. -/
def programWithin (n : Nat) : Parser (List Stmt) := do
  return (← x.declarationsFrom (x.declarationWithin n) false n #[]).toList

end Beyond

end Lox.Parser
