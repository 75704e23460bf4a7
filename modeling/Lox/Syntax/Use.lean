/-
  Lox.Syntax.Use

  The uses of names in a tree, in the order in which they are written: an
  assignment before the uses in its value, an object before the value stored in
  it, a superclass before the methods.
-/
import Lox.Syntax.Tree

namespace Lox

/-- How a name is used. -/
inductive UseKind where
  | read | assign | this | super
deriving DecidableEq, Repr

/-- A use of a name. -/
structure Use where
  kind : UseKind
  occurrence : Occurrence
deriving DecidableEq, Repr

mutual

/-- The uses in an expression. -/
def Expr.uses : Expr → List Use
  | .literal _ => []
  | .grouping inner => inner.uses
  | .unary _ _ operand => operand.uses
  | .binary _ _ left right => left.uses ++ right.uses
  | .logical _ _ left right => left.uses ++ right.uses
  | .name use => [⟨.read, use⟩]
  | .assign target value => ⟨.assign, target⟩ :: value.uses
  | .call callee _ arguments => callee.uses ++ Expr.listUses arguments
  | .get object _ => object.uses
  | .set object _ value => object.uses ++ value.uses
  | .this keyword => [⟨.this, keyword⟩]
  | .super keyword _ => [⟨.super, keyword⟩]

/-- The uses in a list of expressions. -/
def Expr.listUses : List Expr → List Use
  | [] => []
  | e :: es => e.uses ++ Expr.listUses es

end

/-- The uses in an expression that may be missing. -/
def Expr.optionUses : Option Expr → List Use
  | none => []
  | some e => e.uses

mutual

/-- The uses in a statement. -/
def Stmt.uses : Stmt → List Use
  | .expression value => value.uses
  | .print value => value.uses
  | .var _ initializer => Expr.optionUses initializer
  | .block body => Stmt.listUses body
  | .ifElse condition yes none => condition.uses ++ yes.uses
  | .ifElse condition yes (some no) => condition.uses ++ yes.uses ++ no.uses
  | .while condition body => condition.uses ++ body.uses
  | .break _ => []
  | .function decl => decl.uses
  | .return _ value => Expr.optionUses value
  | .class _ superclass methods =>
    (superclass.map (Use.mk .read)).toList ++ FunctionDecl.listUses methods

/-- The uses in a list of statements. -/
def Stmt.listUses : List Stmt → List Use
  | [] => []
  | s :: ss => s.uses ++ Stmt.listUses ss

/-- The uses in the body of a declaration. -/
def FunctionDecl.uses : FunctionDecl → List Use
  | ⟨_, _, body⟩ => Stmt.listUses body

/-- The uses in a list of declarations. -/
def FunctionDecl.listUses : List FunctionDecl → List Use
  | [] => []
  | d :: ds => d.uses ++ FunctionDecl.listUses ds

end

end Lox
