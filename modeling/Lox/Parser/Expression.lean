/-
  Lox.Parser.Expression

  The rules for expressions, from loose to tight:

      expression  → assignment
      assignment  → ( call "." )? NAME "=" assignment | or
      or          → and ( "or" and )*
      and         → equality ( "and" equality )*
      equality    → comparison ( ( "!=" | "==" ) comparison )*
      comparison  → term ( ( ">" | ">=" | "<" | "<=" ) term )*
      term        → factor ( ( "-" | "+" ) factor )*
      factor      → unary ( ( "/" | "*" ) unary )*
      unary       → ( "!" | "-" )* call
      call        → primary ( "(" arguments? ")" | "." NAME )*
      primary     → NUMBER | STRING | "true" | "false" | "nil" | "this" | NAME
                  | "(" expression ")" | "super" "." NAME

  Each rule takes the rules it uses as arguments.  Only `expression` is recursive:
  `expression n` reads texts of fewer than `n` tokens, and the expressions inside
  one have fewer tokens than it.  Repetitions get the same bound.
-/
import Lox.Parser.Basic

namespace Lox.Parser

/-- The greatest number of parameters and of arguments. -/
def maxArity : Nat := 255

/-! ## Operators -/

/-- The kind of a token that is one of the given symbols. -/
def oneOf (symbols : List Symbol) : TokenKind → Option TokenKind
  | .symbol s => if s ∈ symbols then some (.symbol s) else none
  | _ => none

theorem oneOf_eq_some {symbols : List Symbol} {kind op : TokenKind} :
    oneOf symbols kind = some op ↔ ∃ s ∈ symbols, kind = .symbol s ∧ op = .symbol s := by
  cases kind with
  | symbol s =>
    simp only [oneOf, Option.ite_none_right_eq_some, Option.some.injEq, TokenKind.symbol.injEq]
    constructor
    · rintro ⟨hs, rfl⟩
      exact ⟨s, hs, rfl, rfl⟩
    · rintro ⟨_, hs, rfl, rfl⟩
      exact ⟨hs, rfl⟩
  | _ => simp [oneOf]

/-- `/` and `*`. -/
def factorOp : TokenKind → Option TokenKind := oneOf [.slash, .star]

/-- `-` and `+`. -/
def termOp : TokenKind → Option TokenKind := oneOf [.minus, .plus]

/-- The order relations. -/
def comparisonOp : TokenKind → Option TokenKind :=
  oneOf [.greater, .greaterEqual, .less, .lessEqual]

/-- `!=` and `==`. -/
def equalityOp : TokenKind → Option TokenKind := oneOf [.bangEqual, .equalEqual]

/-- `!` and `-` in front of an operand. -/
def unaryOp : TokenKind → Option TokenKind := oneOf [.bang, .minus]

/-- The word of a logical operator. -/
def logicalOp (op : LogicalOp) : TokenKind → Option LogicalOp
  | .keyword .andWord => if op = .and then some .and else none
  | .keyword .orWord => if op = .or then some .or else none
  | _ => none

/-! ## Levels -/

/-- Goes on after `left` with as many operators and operands as there are,
    grouping to the left. -/
def chain {α : Type} (select : TokenKind → Option α) (node : α → Lexeme → Expr → Expr → Expr)
    (operand : Parser Expr) : Nat → Expr → Parser Expr
  | 0, left => pure left
  | n + 1, left => do
    match ← take? select with
    | none => pure left
    | some (op, sign) =>
      let right ← operand
      chain select node operand n (node op sign.toLexeme left right)

/-- Operands with the operators of one level between them. -/
def level {α : Type} (select : TokenKind → Option α) (node : α → Lexeme → Expr → Expr → Expr)
    (bound : Nat) (operand : Parser Expr) : Parser Expr := do
  let left ← operand
  chain select node operand bound left

/-- Reads operators in front of an operand, the last one first in the answer. -/
def unaryOps : Nat → List (TokenKind × Lexeme) → Parser (List (TokenKind × Lexeme))
  | 0, ops => pure ops
  | n + 1, ops => do
    match ← take? unaryOp with
    | none => pure ops
    | some (op, sign) => unaryOps n ((op, sign.toLexeme) :: ops)

/-- Puts operators around an operand, the first of the list innermost. -/
def applyUnary (ops : List (TokenKind × Lexeme)) (operand : Expr) : Expr :=
  ops.foldl (fun e op => .unary op.1 op.2 e) operand

/-! ## Calls and properties -/

/-- Reads arguments up to the last one.  Each one past the greatest number is
    reported, and read all the same. -/
def argumentsFrom (expression : Parser Expr) : Nat → Array Expr → Parser (Array Expr)
  | 0, read => pure read
  | n + 1, read => do
    if maxArity ≤ read.size then
      report (← peek) .tooManyArguments
    let argument ← expression
    if ← acceptSymbol .comma then
      argumentsFrom expression n (read.push argument)
    else
      pure (read.push argument)

/-- Reads the arguments of a call and the closing parenthesis. -/
def finishCall (bound : Nat) (expression : Parser Expr) (callee : Expr) : Parser Expr := do
  let arguments ←
    if ← check (.symbol .rightParen) then pure #[] else argumentsFrom expression bound #[]
  let paren ← expectSymbol .rightParen .parenAfterArguments
  return .call callee paren.toLexeme arguments.toList

/-- What can follow a callee or an object. -/
inductive Suffix where
  | call
  | property

/-- How a suffix begins. -/
def suffixStart : TokenKind → Option Suffix
  | .symbol .leftParen => some .call
  | .symbol .dot => some .property
  | _ => none

/-- Goes on after `e` with as many calls and properties as there are. -/
def suffixes (bound : Nat) (expression : Parser Expr) : Nat → Expr → Parser Expr
  | 0, e => pure e
  | n + 1, e => do
    match ← take? suffixStart with
    | none => pure e
    | some (.call, _) => suffixes bound expression n (← finishCall bound expression e)
    | some (.property, _) => suffixes bound expression n (.get e (← expectName .propertyName))

/-! ## Primary expressions -/

/-- The expressions that are one token or begin with a bracket or `super`. -/
def primary (expression : Parser Expr) : Parser Expr := do
  let t ← peek
  match t.kind with
  | .keyword .falseWord =>
    advance
    return .literal (.bool false)
  | .keyword .trueWord =>
    advance
    return .literal (.bool true)
  | .keyword .nilWord =>
    advance
    return .literal .nil
  | .number value =>
    advance
    return .literal (.number value)
  | .string content =>
    advance
    return .literal (.string content)
  | .keyword .superWord =>
    advance
    let _ ← expectSymbol .dot .dotAfterSuper
    let method ← expectName .superclassMethodName
    -- The occurrence is numbered only now, when the whole form was read.
    return .super (← occurrence t.toLexeme) method
  | .keyword .thisWord =>
    advance
    return .this (← occurrence t.toLexeme)
  | .identifier =>
    advance
    return .name (← occurrence t.toLexeme)
  | .symbol .leftParen =>
    advance
    let inner ← expression
    let _ ← expectSymbol .rightParen .parenAfterExpression
    return .grouping inner
  | _ => fail .expression

/-! ## Expressions -/

/-- Everything tighter than an assignment. -/
def operation (bound : Nat) (expression : Parser Expr) : Parser Expr :=
  let call : Parser Expr := do suffixes bound expression bound (← primary expression)
  let unary : Parser Expr := do
    let ops ← unaryOps bound []
    return applyUnary ops (← call)
  let factor := level factorOp .binary bound unary
  let term := level termOp .binary bound factor
  let comparison := level comparisonOp .binary bound term
  let equality := level equalityOp .binary bound comparison
  let conjunction := level (logicalOp .and) .logical bound equality
  level (logicalOp .or) .logical bound conjunction

/-- An operation, or an assignment to one that is a name or a property.  The value
    is read before the target is looked at; a target of another form is reported,
    and the operation stands in place of the assignment. -/
def assignment (bound : Nat) (expression : Parser Expr) : Parser Expr := do
  let left ← operation bound expression
  match ← accept (.symbol .equal) with
  | none => pure left
  | some equals =>
    let value ← expression
    match left with
    | .name use => return .assign (← occurrence use.name) value
    | .get object property => return .set object property value
    | other =>
      -- Nothing is out of step here, so reading goes on behind the value.
      report equals .invalidAssignmentTarget
      pure other

/-- An expression of fewer than `n` tokens. -/
def expression : Nat → Parser Expr
  | 0 => fail .expression
  | n + 1 => assignment (n + 1) (expression n)

end Lox.Parser
