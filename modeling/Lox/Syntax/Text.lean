/-
  Lox.Syntax.Text

  Trees in prefix form: an operator or keyword first, its parts after it, all in
  parentheses.  The text depends on the tree alone.
-/
import Lox.Number.Text
import Lox.Syntax.Tree

namespace Lox

/-- A constant; strings stand without quotes. -/
def Literal.treeText : Literal → String
  | number value => Number.treeText value
  | string content => content
  | bool value => if value then "true" else "false"
  | nil => "nil"

mutual

/-- An expression in prefix form. -/
def Expr.treeText : Expr → String
  | .literal value => value.treeText
  | .grouping inner => "(group " ++ inner.treeText ++ ")"
  | .unary _ sign operand => "(" ++ sign.text ++ " " ++ operand.treeText ++ ")"
  | .binary _ sign left right =>
    "(" ++ sign.text ++ " " ++ left.treeText ++ " " ++ right.treeText ++ ")"
  | .logical _ sign left right =>
    "(" ++ sign.text ++ " " ++ left.treeText ++ " " ++ right.treeText ++ ")"
  | .name use => use.name.text
  | .assign target value => "(= " ++ target.name.text ++ " " ++ value.treeText ++ ")"
  | .call callee _ arguments =>
    "(call " ++ callee.treeText ++ Expr.listText arguments ++ ")"
  | .get object property => "(. " ++ object.treeText ++ " " ++ property.text ++ ")"
  | .set object property value =>
    "(= " ++ object.treeText ++ "." ++ property.text ++ " " ++ value.treeText ++ ")"
  | .this _ => "this"
  | .super _ method => "(super " ++ method.text ++ ")"

/-- Expressions in prefix form, a blank before each. -/
def Expr.listText : List Expr → String
  | [] => ""
  | e :: es => " " ++ e.treeText ++ Expr.listText es

end

mutual

/-- A statement in prefix form. -/
def Stmt.treeText : Stmt → String
  | .expression value => "(; " ++ value.treeText ++ ")"
  | .print value => "(print " ++ value.treeText ++ ")"
  | .var name none => "(var " ++ name.text ++ ")"
  | .var name (some value) => "(var " ++ name.text ++ " = " ++ value.treeText ++ ")"
  | .block body => "(block" ++ Stmt.listText body ++ ")"
  | .ifElse condition yes none =>
    "(if " ++ condition.treeText ++ " " ++ yes.treeText ++ ")"
  | .ifElse condition yes (some no) =>
    "(if-else " ++ condition.treeText ++ " " ++ yes.treeText ++ " " ++ no.treeText ++ ")"
  | .while condition body => "(while " ++ condition.treeText ++ " " ++ body.treeText ++ ")"
  | .break _ => "(break)"
  | .function decl => decl.treeText "fun"
  | .return _ none => "(return)"
  | .return _ (some value) => "(return " ++ value.treeText ++ ")"
  | .class name superclass methods =>
    let parent := match superclass with
      | none => ""
      | some use => " < " ++ use.name.text
    "(class " ++ name.text ++ parent ++ FunctionDecl.methodsText methods ++ ")"

/-- Statements in prefix form, a blank before each. -/
def Stmt.listText : List Stmt → String
  | [] => ""
  | s :: ss => " " ++ s.treeText ++ Stmt.listText ss

/-- A declaration in prefix form, under the given keyword. -/
def FunctionDecl.treeText (keyword : String) : FunctionDecl → String
  | ⟨name, parameters, body⟩ =>
    "(" ++ keyword ++ " " ++ name.text ++ " (" ++ " ".intercalate (parameters.map (·.text))
      ++ ")" ++ Stmt.listText body ++ ")"

/-- Methods in prefix form, a blank before each. -/
def FunctionDecl.methodsText : List FunctionDecl → String
  | [] => ""
  | m :: ms => " " ++ m.treeText "method" ++ FunctionDecl.methodsText ms

end

end Lox
