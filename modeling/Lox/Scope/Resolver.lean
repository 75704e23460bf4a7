/-
  Lox.Scope.Resolver

  Finds, before a program runs, which scope each name means.

    * `Table` — for each occurrence that means a local name, how many scopes lie
      between it and the scope of that name; occurrences that mean a global name
      are absent;
    * `Walk` — the scopes around a position, what body and class it is in, and
      what was found so far;
    * `resolveProgram`, `resolveExpression` — the table of a tree, or all the
      scope faults in it.

  A fault never ends the walk.
-/
import Std.Data.TreeMap
import Lox.Bindings
import Lox.Diagnostic
import Lox.Syntax.Tree

namespace Lox

/-- Distances by occurrence number. -/
abbrev Table := Std.TreeMap Nat Nat

/-- The kinds of body that `return` is judged by. -/
inductive BodyKind where
  | topLevel | function | initializer | method
deriving DecidableEq, Repr

/-- The kinds of class that `this` and `super` are judged by. -/
inductive ClassKind where
  | outside | base | derived
deriving DecidableEq, Repr

/-- The names of a scope; `false` for one whose initializer is being walked. -/
abbrev Scope := Bindings Bool

/-- A walk through a tree. -/
structure Walk where
  /-- The scopes around the position, the innermost first; none at top level. -/
  scopes : List Scope
  body : BodyKind
  cls : ClassKind
  table : Table
  faults : Array Diagnostic

namespace Walk

/-- Outside everything. -/
def start : Walk := ⟨[], .topLevel, .outside, ∅, #[]⟩

/-- Notes a fault at a token. -/
def report (w : Walk) (at_ : Lexeme) (fault : ScopeFault) : Walk :=
  { w with faults := w.faults.push (.scope at_.line (.atLexeme at_.text) fault) }

/-- Sets the state of a name in the innermost scope.  At top level nothing is kept. -/
def mark (w : Walk) (name : String) (ready : Bool) : Walk :=
  match w.scopes with
  | [] => w
  | scope :: outer => { w with scopes := scope.insert name ready :: outer }

/-- Whether a name is in the innermost scope. -/
def declaresHere (w : Walk) (name : String) : Bool :=
  w.scopes.head?.any (·.contains name)

/-- Declares a name whose value is not there yet.  At top level a name may be
    declared again. -/
def declare (w : Walk) (name : Lexeme) : Walk :=
  let marked := w.mark name.text false
  if w.declaresHere name.text then marked.report name .alreadyDeclared else marked

/-- Makes a declared name ready for use. -/
def define (w : Walk) (name : Lexeme) : Walk := w.mark name.text true

/-- Declares a name that is ready at once. -/
def introduce (w : Walk) (name : Lexeme) : Walk := (w.declare name).define name

/-- How many scopes lie inside the innermost one that has a name. -/
def distance? (w : Walk) (name : String) : Option Nat :=
  w.scopes.findIdx? (·.contains name)

/-- Enters an occurrence into the table, if it means a local name. -/
def bind (w : Walk) (use : Occurrence) : Walk :=
  match w.distance? use.name.text with
  | none => w
  | some d => { w with table := w.table.insert use.id d }

/-- Whether a name belongs to the innermost scope and has no value yet. -/
def readsOwnInitializer (w : Walk) (name : String) : Bool :=
  w.scopes.head?.any (·.get? name = some false)

/-- Enters a variable that is read. -/
def read (w : Walk) (use : Occurrence) : Walk :=
  let checked :=
    if w.readsOwnInitializer use.name.text then w.report use.name .readInOwnInitializer else w
  checked.bind use

/-- Walks inside one more scope, which is gone afterwards. -/
def inScope (w : Walk) (scope : Scope) (inner : Walk → Walk) : Walk :=
  let after := inner { w with scopes := scope :: w.scopes }
  { after with scopes := after.scopes.tail }

end Walk

/-! ## Expressions -/

mutual

/-- Walks through an expression.  A value is walked before the name or the object
    that it is assigned to. -/
def Expr.resolve : Expr → Walk → Walk
  | .literal _, w => w
  | .grouping inner, w => inner.resolve w
  | .unary _ _ operand, w => operand.resolve w
  | .binary _ _ left right, w => right.resolve (left.resolve w)
  | .logical _ _ left right, w => right.resolve (left.resolve w)
  | .name use, w => w.read use
  | .assign target value, w => (value.resolve w).bind target
  | .call callee _ arguments, w => Expr.listResolve arguments (callee.resolve w)
  | .get object _, w => object.resolve w
  | .set object _ value, w => object.resolve (value.resolve w)
  | .this keyword, w =>
    if w.cls = .outside then w.report keyword.name .thisOutsideClass else w.bind keyword
  | .super keyword _, w =>
    let checked := match w.cls with
      | .outside => w.report keyword.name .superOutsideClass
      | .base => w.report keyword.name .superWithoutSuperclass
      | .derived => w
    checked.bind keyword

/-- Walks through expressions in order. -/
def Expr.listResolve : List Expr → Walk → Walk
  | [], w => w
  | e :: es, w => Expr.listResolve es (e.resolve w)

end

/-- Walks through an expression that may be missing. -/
def Expr.optionResolve : Option Expr → Walk → Walk
  | none, w => w
  | some e, w => e.resolve w

/-! ## Statements -/

/-- The kind of body that a method has. -/
def FunctionDecl.methodKind (d : FunctionDecl) : BodyKind :=
  if d.name.text = "init" then .initializer else .method

/-- Judges a `return`, apart from the expression in it. -/
def Walk.checkReturn (w : Walk) (keyword : Lexeme) (hasValue : Bool) : Walk :=
  let checked := if w.body = .topLevel then w.report keyword .returnAtTopLevel else w
  if hasValue ∧ w.body = .initializer then
    checked.report keyword .returnValueInInitializer
  else checked

mutual

/-- Walks through a statement. -/
def Stmt.resolve : Stmt → Walk → Walk
  | .expression value, w => value.resolve w
  | .print value, w => value.resolve w
  | .var name initializer, w => (Expr.optionResolve initializer (w.declare name)).define name
  | .block body, w => w.inScope .empty fun inner => Stmt.listResolve body inner
  | .ifElse condition yes none, w => yes.resolve (condition.resolve w)
  | .ifElse condition yes (some no), w => no.resolve (yes.resolve (condition.resolve w))
  | .while condition body, w => body.resolve (condition.resolve w)
  | .break _, w => w
  | .function decl, w => decl.resolve .function (w.introduce decl.name)
  | .return keyword value, w => Expr.optionResolve value (w.checkReturn keyword value.isSome)
  | .class name none methods, w =>
    -- The name is there before the methods are walked: they may use it.
    let named := { w with cls := .base }.introduce name
    let after := named.inScope (.single "this" true) fun inner =>
      FunctionDecl.listResolve methods inner
    { after with cls := w.cls }
  | .class name (some parent) methods, w =>
    let named := { w with cls := .base }.introduce name
    let checked :=
      if parent.name.text = name.text then named.report parent.name .inheritsFromItself else named
    -- The superclass is looked up outside the two scopes of the methods.
    let derived := { checked with cls := .derived }.read parent
    let after := derived.inScope (.single "super" true) fun outer =>
      outer.inScope (.single "this" true) fun inner => FunctionDecl.listResolve methods inner
    { after with cls := w.cls }

/-- Walks through statements in order. -/
def Stmt.listResolve : List Stmt → Walk → Walk
  | [], w => w
  | s :: ss, w => Stmt.listResolve ss (s.resolve w)

/-- Walks through a function: its parameters and its body share a scope. -/
def FunctionDecl.resolve (kind : BodyKind) : FunctionDecl → Walk → Walk
  | ⟨_, parameters, body⟩, w =>
    let after := { w with body := kind }.inScope .empty fun inner =>
      Stmt.listResolve body (parameters.foldl Walk.introduce inner)
    { after with body := w.body }

/-- Walks through the methods of a class. -/
def FunctionDecl.listResolve : List FunctionDecl → Walk → Walk
  | [], w => w
  | d :: ds, w => FunctionDecl.listResolve ds (d.resolve d.methodKind w)

end

/-! ## Whole trees -/

/-- The table of a finished walk, or its faults. -/
def Walk.result (w : Walk) : Except (List Diagnostic) Table :=
  if w.faults.isEmpty then .ok w.table else .error w.faults.toList

/-- Resolves a program. -/
def resolveProgram (program : List Stmt) : Except (List Diagnostic) Table :=
  (Stmt.listResolve program .start).result

/-- Resolves a single expression. -/
def resolveExpression (e : Expr) : Except (List Diagnostic) Table :=
  (e.resolve .start).result

/-- The union of two tables; where both have an occurrence, `added` counts. -/
def Table.merge (table added : Table) : Table :=
  added.foldl (fun t id d => t.insert id d) table

/-- A table with the same amount added to every distance. -/
def Table.shift (table : Table) (amount : Nat) : Table :=
  table.map fun _ d => d + amount

end Lox
