/-
  Lox.Syntax.Tree

  The syntax trees of the language.

    * `Lexeme` — a token that a tree keeps for its text and line;
    * `Occurrence` — a use of a name; its number tells it from every other use;
    * `Expr`, `Stmt`, `FunctionDecl` — the trees.

  There is no tree for `for`: it is a block around a `while`.
-/
import Lox.Token

namespace Lox

/-- A token as a tree keeps it. -/
structure Lexeme where
  text : String
  line : Nat
deriving DecidableEq, Repr

/-- The text and line of a token. -/
def Token.toLexeme (t : Token) : Lexeme := ⟨t.lexeme, t.line⟩

/-- One use of a name.  Two uses of one name may mean different variables, so each
    has a number of its own. -/
structure Occurrence where
  id : Nat
  name : Lexeme
deriving DecidableEq, Repr

/-- Constants. -/
inductive Literal where
  | number (value : Float)
  | string (content : String)
  | bool (value : Bool)
  | nil
deriving DecidableEq

/-- Operators that may leave their second operand alone. -/
inductive LogicalOp where
  | and | or
deriving DecidableEq, Repr

/-- Expressions.  Operators come with the token they were written as; of one with a
    single operand and of one that evaluates both, the kind of the token says what it
    does. -/
inductive Expr where
  | literal (value : Literal)
  | grouping (inner : Expr)
  | unary (op : TokenKind) (sign : Lexeme) (operand : Expr)
  | binary (op : TokenKind) (sign : Lexeme) (left right : Expr)
  | logical (op : LogicalOp) (sign : Lexeme) (left right : Expr)
  | name (use : Occurrence)
  | assign (target : Occurrence) (value : Expr)
  /-- `paren` is the closing parenthesis, where a failing call is reported. -/
  | call (callee : Expr) (paren : Lexeme) (arguments : List Expr)
  | get (object : Expr) (property : Lexeme)
  | set (object : Expr) (property : Lexeme) (value : Expr)
  | this (keyword : Occurrence)
  | super (keyword : Occurrence) (method : Lexeme)

mutual

/-- Statements. -/
inductive Stmt where
  | expression (value : Expr)
  | print (value : Expr)
  | var (name : Lexeme) (initializer : Option Expr)
  | block (body : List Stmt)
  | ifElse (condition : Expr) (yes : Stmt) (no : Option Stmt)
  | while (condition : Expr) (body : Stmt)
  | break (keyword : Lexeme)
  | function (decl : FunctionDecl)
  | return (keyword : Lexeme) (value : Option Expr)
  | class (name : Lexeme) (superclass : Option Occurrence) (methods : List FunctionDecl)

/-- A function or a method. -/
structure FunctionDecl where
  name : Lexeme
  parameters : List Lexeme
  body : List Stmt

end

end Lox
