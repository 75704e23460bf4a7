/-
  Lox.Parser.Statement

  The rules for statements and whole programs:

      program     → declaration*
      declaration → class | "fun" function | var | statement
      class       → "class" NAME ( "<" NAME )? "{" function* "}"
      function    → NAME "(" parameters? ")" block
      var         → "var" NAME ( "=" expression )? ";"
      statement   → break | for | if | print | return | while | block | expression ";"
      break       → "break" ";"
      for         → "for" "(" ( var | expression ";" | ";" ) expression? ";" expression? ")"
                    statement
      if          → "if" "(" expression ")" statement ( "else" statement )?
      print       → "print" expression ";"
      return      → "return" expression? ";"
      while       → "while" "(" expression ")" statement
      block       → "{" declaration* "}"

  As for expressions, each rule takes the rules it uses as arguments, and
  `statement n` and `declaration n` read texts of fewer than `n` tokens.

  `parseProgram` and `parseExpression` are what the rest of the library uses.
-/
import Lox.Parser.Expression

namespace Lox.Parser

/-- The rules for the parts of a statement, and a bound on its repetitions. -/
structure Inner where
  bound : Nat
  expression : Parser Expr
  statement : Parser Stmt
  /-- Nothing where a declaration was given up and skipped. -/
  declaration : Parser (Option Stmt)

/-! ## Repetition -/

/-- Reads declarations up to the end, or up to a closing brace if `braced`. -/
def declarationsFrom (declaration : Parser (Option Stmt)) (braced : Bool) :
    Nat → Array Stmt → Parser (Array Stmt)
  | 0, read => pure read
  | n + 1, read => fun s =>
    match s.rest with
    | [] => .ok read s
    | t :: _ =>
      if braced && t.kind = .symbol .rightBrace then .ok read s
      else
        (do
          let stmt ← declaration
          declarationsFrom declaration braced n (stmt.elim read read.push) : Parser _) s

/-- The declarations of a block and its closing brace; the opening one was read. -/
def block (inner : Inner) : Parser (List Stmt) := do
  let body ← declarationsFrom inner.declaration true inner.bound #[]
  let _ ← expectSymbol .rightBrace .braceAfterBlock
  return body.toList

/-! ## Declarations -/

/-- Reads parameters up to the last one.  Each one past the greatest number is
    reported, and read all the same. -/
def parametersFrom : Nat → Array Lexeme → Parser (Array Lexeme)
  | 0, read => pure read
  | n + 1, read => do
    if maxArity ≤ read.size then
      report (← peek) .tooManyParameters
    let parameter ← expectName .parameterName
    if ← acceptSymbol .comma then
      parametersFrom n (read.push parameter)
    else
      pure (read.push parameter)

/-- A function or a method from its name on.  No loop outside counts inside. -/
def function (inner : Inner) (kind : CallableKind) : Parser FunctionDecl := do
  let name ← expectName (.callableName kind)
  let _ ← expectSymbol .leftParen (.parenAfterCallableName kind)
  let parameters ←
    if ← check (.symbol .rightParen) then pure #[] else parametersFrom inner.bound #[]
  let _ ← expectSymbol .rightParen .parenAfterParameters
  let _ ← expectSymbol .leftBrace (.braceBeforeCallableBody kind)
  let body ← outsideLoops (block inner)
  return ⟨name, parameters.toList, body⟩

/-- Reads methods up to a closing brace or the end. -/
def methodsFrom (method : Parser FunctionDecl) :
    Nat → Array FunctionDecl → Parser (Array FunctionDecl)
  | 0, read => pure read
  | n + 1, read => fun s =>
    match s.rest with
    | [] => .ok read s
    | t :: _ =>
      if t.kind = .symbol .rightBrace then .ok read s
      else (do methodsFrom method n (read.push (← method)) : Parser _) s

/-- A class from its name on. -/
def classDeclaration (inner : Inner) : Parser Stmt := do
  let name ← expectName .className
  let superclass ←
    if ← acceptSymbol .less then
      let parent ← expectName .superclassName
      pure (some (← occurrence parent))
    else
      pure none
  let _ ← expectSymbol .leftBrace .braceBeforeClassBody
  let methods ← methodsFrom (function inner .method) inner.bound #[]
  let _ ← expectSymbol .rightBrace .braceAfterClassBody
  return .class name superclass methods.toList

/-- A variable from its name on. -/
def varDeclaration (inner : Inner) : Parser Stmt := do
  let name ← expectName .variableName
  let initializer ←
    if ← acceptSymbol .equal then pure (some (← inner.expression)) else pure none
  let _ ← expectSymbol .semicolon .semicolonAfterVariable
  return .var name initializer

/-! ## Statements -/

/-- An expression, unless the token comes at once that ends it. -/
def expressionUnless (inner : Inner) (stop : Symbol) : Parser (Option Expr) := do
  if ← check (.symbol stop) then pure none else pure (some (← inner.expression))

/-- An expression and a semicolon. -/
def expressionStatement (inner : Inner) : Parser Stmt := do
  let value ← inner.expression
  let _ ← expectSymbol .semicolon .semicolonAfterExpression
  return .expression value

/-- The rest of a `break`; outside a loop it is reported, and read all the same. -/
def breakStatement (keyword : Token) : Parser Stmt := do
  if (← get).loops = 0 then
    report keyword .breakOutsideLoop
  let _ ← expectSymbol .semicolon .semicolonAfterBreak
  return .break keyword.toLexeme

/-- The tree of a `for`: the initializer in a block of its own around a `while`,
    the increment in a block after the body. -/
def forTree (initializer : Option Stmt) (condition increment : Option Expr) (body : Stmt) : Stmt :=
  let round := match increment with
    | none => body
    | some e => .block [body, .expression e]
  let loop := Stmt.while (condition.getD (.literal (.bool true))) round
  match initializer with
  | none => loop
  | some first => .block [first, loop]

/-- What stands first between the parentheses of a `for`, with its semicolon. -/
def forInitializer (inner : Inner) : Parser (Option Stmt) := do
  if ← acceptSymbol .semicolon then
    return none
  -- The word `var` is looked for only where no semicolon was read.
  match ← accept (.keyword .varWord) with
  | some _ => return some (← varDeclaration inner)
  | none => return some (← expressionStatement inner)

/-- The rest of a `for`. -/
def forStatement (inner : Inner) : Parser Stmt := do
  let _ ← expectSymbol .leftParen .parenAfterFor
  let initializer ← forInitializer inner
  let condition ← expressionUnless inner .semicolon
  let _ ← expectSymbol .semicolon .semicolonAfterLoopCondition
  let increment ← expressionUnless inner .rightParen
  let _ ← expectSymbol .rightParen .parenAfterForClauses
  let body ← insideLoop inner.statement
  return forTree initializer condition increment body

/-- The rest of an `if`; an `else` belongs to the nearest one. -/
def ifStatement (inner : Inner) : Parser Stmt := do
  let _ ← expectSymbol .leftParen .parenAfterIf
  let condition ← inner.expression
  let _ ← expectSymbol .rightParen .parenAfterIfCondition
  let yes ← inner.statement
  if (← accept (.keyword .elseWord)).isSome then
    return .ifElse condition yes (some (← inner.statement))
  else
    return .ifElse condition yes none

/-- The rest of a `print`. -/
def printStatement (inner : Inner) : Parser Stmt := do
  let value ← inner.expression
  let _ ← expectSymbol .semicolon .semicolonAfterValue
  return .print value

/-- The rest of a `return`. -/
def returnStatement (inner : Inner) (keyword : Token) : Parser Stmt := do
  let value ← expressionUnless inner .semicolon
  let _ ← expectSymbol .semicolon .semicolonAfterReturnValue
  return .return keyword.toLexeme value

/-- The rest of a `while`. -/
def whileStatement (inner : Inner) : Parser Stmt := do
  let _ ← expectSymbol .leftParen .parenAfterWhile
  let condition ← inner.expression
  let _ ← expectSymbol .rightParen .parenAfterCondition
  let body ← insideLoop inner.statement
  return .while condition body

/-- A statement that is no declaration. -/
def statementRule (inner : Inner) : Parser Stmt := do
  let t ← peek
  match t.kind with
  | .keyword .breakWord =>
    advance
    breakStatement t
  | .keyword .forWord =>
    advance
    forStatement inner
  | .keyword .ifWord =>
    advance
    ifStatement inner
  | .keyword .printWord =>
    advance
    printStatement inner
  | .keyword .returnWord =>
    advance
    returnStatement inner t
  | .keyword .whileWord =>
    advance
    whileStatement inner
  | .symbol .leftBrace =>
    advance
    return .block (← block inner)
  | _ => expressionStatement inner

/-- A declaration or any other statement.  When it is given up, the tokens up to
    the next boundary between statements are skipped. -/
def declarationRule (inner : Inner) : Parser (Option Stmt) :=
  recovering do
    let t ← peek
    match t.kind with
    | .keyword .classWord =>
      advance
      classDeclaration inner
    | .keyword .funWord =>
      advance
      return .function (← function inner .function)
    | .keyword .varWord =>
      advance
      varDeclaration inner
    | _ => statementRule inner

mutual

/-- A statement of fewer than `n` tokens. -/
def statement : Nat → Parser Stmt
  | 0 => fail .expression
  | n + 1 => statementRule ⟨n + 1, expression n, statement n, declaration n⟩

/-- A declaration of fewer than `n` tokens. -/
def declaration : Nat → Parser (Option Stmt)
  | 0 => recovering (fail .expression)
  | n + 1 => declarationRule ⟨n + 1, expression n, statement n, declaration n⟩

end

/-! ## Whole texts -/

/-- Reads declarations up to the end. -/
def program (n : Nat) : Parser (List Stmt) := do
  return (← declarationsFrom (declaration n) false n #[]).toList

/-- What parsing gives: a tree, or all faults in the order in which they were
    found; and the number after the last occurrence that was numbered. -/
structure Parsed (α : Type) where
  result : Except (List Diagnostic) α
  nextId : Nat

/-- Runs a rule on a token list.  It succeeds if it did not give up and nothing was
    reported. -/
def runOn {α : Type} (p : Nat → Parser α) (tokens : List Token) (nextId : Nat) : Parsed α :=
  let start := ParseState.ofTokens tokens nextId
  match p (start.rest.length + 1) start with
  | .ok a s => ⟨if s.faults.isEmpty then .ok a else .error s.faults.toList, s.nextId⟩
  | .error e s => ⟨.error (s.faults.push e).toList, s.nextId⟩

end Lox.Parser

namespace Lox

/-- Parses a whole program. -/
def parseProgram (tokens : List Token) (nextId : Nat) : Parser.Parsed (List Stmt) :=
  Parser.runOn Parser.program tokens nextId

/-- Parses one expression; tokens after it are not looked at. -/
def parseExpression (tokens : List Token) (nextId : Nat) : Parser.Parsed Expr :=
  Parser.runOn Parser.expression tokens nextId

end Lox
