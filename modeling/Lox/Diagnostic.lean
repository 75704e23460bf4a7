/-
  Lox.Diagnostic

  What can be wrong with a program, as causes, and how each is reported.

    * `LexicalFault`, `SyntaxFault`, `ScopeFault` — found before a program runs;
    * `RuntimeFault` — found by running it;
    * `Diagnostic` — a fault with its place; `Diagnostic.text` is what is shown.

  The wording of every message stands here and nowhere else.
-/
import Lox.Token

namespace Lox

/-! ## Causes -/

/-- Text that is no token. -/
inductive LexicalFault where
  | unexpectedCharacter (c : Char)
  | unterminatedString
deriving DecidableEq, Repr

/-- What a declaration with a body declares; it is named in messages. -/
inductive CallableKind where
  | function
  | method
deriving DecidableEq, Repr

/-- Tokens that are no program. -/
inductive SyntaxFault where
  | className
  | superclassName
  | braceBeforeClassBody
  | braceAfterClassBody
  | callableName (kind : CallableKind)
  | parenAfterCallableName (kind : CallableKind)
  | tooManyParameters
  | parameterName
  | parenAfterParameters
  | braceBeforeCallableBody (kind : CallableKind)
  | variableName
  | semicolonAfterVariable
  | breakOutsideLoop
  | semicolonAfterBreak
  | parenAfterFor
  | semicolonAfterLoopCondition
  | parenAfterForClauses
  | parenAfterIf
  | parenAfterIfCondition
  | semicolonAfterValue
  | semicolonAfterReturnValue
  | parenAfterWhile
  | parenAfterCondition
  | braceAfterBlock
  | semicolonAfterExpression
  | invalidAssignmentTarget
  | propertyName
  | tooManyArguments
  | parenAfterArguments
  | dotAfterSuper
  | superclassMethodName
  | parenAfterExpression
  | expression
deriving DecidableEq, Repr

/-- Names used where their scope forbids it. -/
inductive ScopeFault where
  | alreadyDeclared
  | readInOwnInitializer
  | returnAtTopLevel
  | returnValueInInitializer
  | thisOutsideClass
  | superOutsideClass
  | superWithoutSuperclass
  | inheritsFromItself
deriving DecidableEq, Repr

/-- Operations that have no result. -/
inductive RuntimeFault where
  | invalidUnaryOperator
  | invalidBinaryOperator
  | operandNotNumber
  | operandsNotNumbers
  | operandsNotNumbersOrStrings
  | notCallable
  | wrongArity (expected got : Nat)
  | stackOverflow
  | propertyOfNonInstance
  | fieldOfNonInstance
  | undefinedVariable (name : String)
  | undefinedProperty (name : String)
  | superclassNotClass
  | superUnresolved
  | superUnbound
deriving DecidableEq, Repr

/-! ## Messages -/

/-- The message of a lexical fault. -/
def LexicalFault.message : LexicalFault → String
  | unexpectedCharacter c => "Unexpected character: " ++ String.singleton c
  | unterminatedString => "Unterminated string."

/-- The word for a kind of declaration. -/
def CallableKind.word : CallableKind → String
  | function => "function"
  | method => "method"

/-- The message of a syntax fault. -/
def SyntaxFault.message : SyntaxFault → String
  | className => "Expect class name."
  | superclassName => "Expect superclass name."
  | braceBeforeClassBody => "Expect '\x7b' before class body."
  | braceAfterClassBody => "Expect '\x7d' after class body."
  | callableName kind => "Expect " ++ kind.word ++ " name."
  | parenAfterCallableName kind => "Expect '(' after " ++ kind.word ++ " name."
  | tooManyParameters => "Can't have more than 255 parameters."
  | parameterName => "Expect parameter name."
  | parenAfterParameters => "Expect ')' after parameters."
  | braceBeforeCallableBody kind => "Expect '\x7b' before " ++ kind.word ++ " body."
  | variableName => "Expect variable name."
  | semicolonAfterVariable => "Expect ';' after variable declaration."
  | breakOutsideLoop => "Must be inside a loop to use break."
  | semicolonAfterBreak => "Expect ';' after 'break'."
  | parenAfterFor => "Expect '(' after 'for'."
  | semicolonAfterLoopCondition => "Expect ';' after loop condition."
  | parenAfterForClauses => "Expect ')' after for clauses."
  | parenAfterIf => "Expect '(' after 'if'."
  | parenAfterIfCondition => "Expect ')' after if condition."
  | semicolonAfterValue => "Expect ';' after value."
  | semicolonAfterReturnValue => "Expect ';' after return value."
  | parenAfterWhile => "Expect '(' after 'while'."
  | parenAfterCondition => "Expect ')' after condition."
  | braceAfterBlock => "Expect '\x7d' after block."
  | semicolonAfterExpression => "Expect ';' after expression."
  | invalidAssignmentTarget => "Invalid assignment target."
  | propertyName => "Expect property name after '.'."
  | tooManyArguments => "Can't have more than 255 arguments."
  | parenAfterArguments => "Expect ')' after arguments."
  | dotAfterSuper => "Expect '.' after 'super'."
  | superclassMethodName => "Expect superclass method name."
  | parenAfterExpression => "Expect ')' after expression."
  | expression => "Expect expression."

/-- The message of a scope fault. -/
def ScopeFault.message : ScopeFault → String
  | alreadyDeclared => "Already a variable with this name in this scope."
  | readInOwnInitializer => "Can't read local variable in its own initializer."
  | returnAtTopLevel => "Can't return from top-level code."
  | returnValueInInitializer => "Can't return a value from an initializer."
  | thisOutsideClass => "Can't use 'this' outside of a class."
  | superOutsideClass => "Can't use 'super' outside of a class."
  | superWithoutSuperclass => "Can't use 'super' in a class with no superclass."
  | inheritsFromItself => "A class can't inherit from itself."

/-- The message of a runtime fault. -/
def RuntimeFault.message : RuntimeFault → String
  | invalidUnaryOperator => "Invalid unary operator."
  | invalidBinaryOperator => "Invalid binary operator."
  | operandNotNumber => "Operand must be a number."
  | operandsNotNumbers => "Operands must be numbers."
  | operandsNotNumbersOrStrings => "Operands must be two numbers or two strings."
  | notCallable => "Can only call functions and classes."
  | wrongArity expected got =>
    "Expected " ++ toString expected ++ " arguments but got " ++ toString got ++ "."
  | stackOverflow => "Stack overflow."
  | propertyOfNonInstance => "Only instances have properties."
  | fieldOfNonInstance => "Only instances have fields."
  | undefinedVariable name => "Undefined variable '" ++ name ++ "'."
  | undefinedProperty name => "Undefined property '" ++ name ++ "'."
  | superclassNotClass => "Superclass must be a class."
  | superUnresolved => "Can't use 'super' outside of a class."
  | superUnbound => "Invalid 'super' binding."

/-! ## Diagnostics -/

/-- Where in the token list a static fault stands. -/
inductive Place where
  | atEnd
  | atLexeme (lexeme : String)
deriving DecidableEq, Repr

/-- The place of a token. -/
def Token.place (t : Token) : Place :=
  match t.kind with
  | .eof => .atEnd
  | _ => .atLexeme t.lexeme

/-- How a place is shown. -/
def Place.text : Place → String
  | atEnd => " at end"
  | atLexeme lexeme => " at '" ++ lexeme ++ "'"

/-- A fault found while running, and its line. -/
structure RuntimeError where
  line : Nat
  fault : RuntimeFault
deriving DecidableEq, Repr

/-- A fault and its place. -/
inductive Diagnostic where
  | lexical (line : Nat) (fault : LexicalFault)
  | syntactic (line : Nat) (place : Place) (fault : SyntaxFault)
  | scope (line : Nat) (place : Place) (fault : ScopeFault)
  | runtime (error : RuntimeError)
deriving DecidableEq, Repr

namespace Diagnostic

/-- The line a diagnostic points at. -/
def line : Diagnostic → Nat
  | lexical line _ => line
  | syntactic line _ _ => line
  | scope line _ _ => line
  | runtime error => error.line

/-- Whether a diagnostic keeps a program from running. -/
def isStatic : Diagnostic → Bool
  | runtime _ => false
  | _ => true

/-- The line number in front of a static diagnostic. -/
def lineText (line : Nat) : String := "[line " ++ toString line ++ "]"

/-- What is shown to the user: the line first in static diagnostics, last in
    those of a running program. -/
def text : Diagnostic → String
  | lexical line fault => lineText line ++ " Error: " ++ fault.message
  | syntactic line place fault => lineText line ++ " Error" ++ place.text ++ ": " ++ fault.message
  | scope line place fault => lineText line ++ " Error" ++ place.text ++ ": " ++ fault.message
  | runtime error => error.fault.message ++ "\n" ++ lineText error.line

end Diagnostic

end Lox
