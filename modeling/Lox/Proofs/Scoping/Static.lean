/-
  Lox.Proofs.Scoping.Static

  What a table has to say about a tree that is walked inside given scopes.

    * `Expr.Proper`, `Stmt.Proper` — what the grammar guarantees: `this` and `super`
      are the names of no variable, every operator is one of the grammar, and no branch
      of an `if` and no body of a loop is a declaration;
    * `Expr.Scoped`, `Stmt.Scoped` — for every occurrence in the tree the table has
      the distance of the scope that has its name, no scope has a name twice, and the
      tree is of a form that the grammar has;
    * `Stmt.after` — the scopes behind a statement.

  All numbers of a scoped tree lie below a bound, so that tables with greater
  numbers can be added without a change for the tree.
-/
import Lox.Proofs.Grammar.Rules
import Lox.Scope.Resolver

namespace Lox

/-! ## Names -/

/-- A name that a variable can have: it is neither `this` nor `super`. -/
def Lexeme.Ordinary (name : Lexeme) : Prop := name.text ≠ "this" ∧ name.text ≠ "super"

namespace Scope

/-- The scopes after a name was put into the innermost one. -/
def mark (scopes : List Scope) (name : String) (ready : Bool) : List Scope :=
  match scopes with
  | [] => []
  | scope :: outer => scope.insert name ready :: outer

theorem tail_mark (scopes : List Scope) (name : String) (ready : Bool) :
    (mark scopes name ready).tail = scopes.tail := by
  cases scopes <;> rfl

theorem length_mark (scopes : List Scope) (name : String) (ready : Bool) :
    (mark scopes name ready).length = scopes.length := by
  cases scopes <;> rfl

/-- The scope of a body, before its first statement. -/
def ofParameters (parameters : List Lexeme) : Scope :=
  parameters.foldl (fun scope p => scope.insert p.text true) .empty

/-- The innermost scope does not have the name yet. -/
def Lacks (scopes : List Scope) (name : String) : Prop :=
  ∀ scope, scopes.head? = some scope → scope.contains name = false

end Scope

/-- A name that can be declared inside the scopes. -/
structure Lexeme.Declarable (scopes : List Scope) (name : Lexeme) : Prop where
  ordinary : name.Ordinary
  fresh : Scope.Lacks scopes name.text

/-! ## What the grammar guarantees -/

mutual

/-- Only ordinary names are assigned to, `this` and `super` are called so, and what
    stands as an operator is one. -/
def Expr.Proper : Expr → Prop
  | .literal _ => True
  | .grouping inner => inner.Proper
  | .unary op _ operand => InFront op ∧ operand.Proper
  | .binary op _ left right => (∃ rule, InBetween rule op) ∧ left.Proper ∧ right.Proper
  | .logical _ _ left right => left.Proper ∧ right.Proper
  | .name _ => True
  | .assign target value => target.name.Ordinary ∧ value.Proper
  | .call callee _ arguments => callee.Proper ∧ Expr.ListProper arguments
  | .get object _ => object.Proper
  | .set object _ value => object.Proper ∧ value.Proper
  | .this keyword => keyword.name.text = "this"
  | .super keyword _ => keyword.name.text = "super"

def Expr.ListProper : List Expr → Prop
  | [] => True
  | e :: es => e.Proper ∧ Expr.ListProper es

end

def Expr.OptionProper : Option Expr → Prop
  | none => True
  | some e => e.Proper

/-- A statement that declares nothing in the scope around it. -/
def Stmt.Plain : Stmt → Prop
  | .var _ _ => False
  | .function _ => False
  | .class _ _ _ => False
  | _ => True

mutual

/-- Only ordinary names are declared, and branches and loop bodies declare nothing. -/
def Stmt.Proper : Stmt → Prop
  | .expression value => value.Proper
  | .print value => value.Proper
  | .var name initializer => name.Ordinary ∧ Expr.OptionProper initializer
  | .block body => Stmt.ListProper body
  | .ifElse condition yes none => condition.Proper ∧ yes.Proper ∧ yes.Plain
  | .ifElse condition yes (some no) =>
    condition.Proper ∧ yes.Proper ∧ yes.Plain ∧ no.Proper ∧ no.Plain
  | .while condition body => condition.Proper ∧ body.Proper ∧ body.Plain
  | .break _ => True
  | .function decl => decl.name.Ordinary ∧ decl.Proper
  | .return _ value => Expr.OptionProper value
  | .class name _ methods => name.Ordinary ∧ FunctionDecl.ListProper methods

def Stmt.ListProper : List Stmt → Prop
  | [] => True
  | s :: ss => s.Proper ∧ Stmt.ListProper ss

/-- Only ordinary names are parameters. -/
def FunctionDecl.Proper : FunctionDecl → Prop
  | ⟨_, parameters, body⟩ => (∀ p ∈ parameters, p.Ordinary) ∧ Stmt.ListProper body

def FunctionDecl.ListProper : List FunctionDecl → Prop
  | [] => True
  | d :: ds => d.Proper ∧ FunctionDecl.ListProper ds

end

/-! ## Scoped trees -/

section

variable (T : Table) (n : Nat)

/-- The table has for an occurrence the distance of the innermost scope with its
    name, or nothing if there is none. -/
def Table.Places (scopes : List Scope) (use : Occurrence) : Prop :=
  use.id < n ∧ T[use.id]? = scopes.findIdx? (·.contains use.name.text)

/-- Where the table places an occurrence, its name is ready. -/
def Table.Readable (scopes : List Scope) (use : Occurrence) : Prop :=
  T.Places n scopes use ∧ ∀ d scope, T[use.id]? = some d → scopes[d]? = some scope →
    scope.get? use.name.text = some true

/-- Where the table places a name that is written, it is ready; only a variable of the
    innermost scope may be written by its own initializer. -/
def Table.Writable (scopes : List Scope) (use : Occurrence) : Prop :=
  T.Places n scopes use ∧ ∀ d scope, T[use.id]? = some (d + 1) → scopes[d + 1]? = some scope →
    scope.get? use.name.text = some true

/-- The table places a `super` outside a scope of `this`. -/
def Table.Inherits (scopes : List Scope) (use : Occurrence) : Prop :=
  T.Places n scopes use ∧ ∃ d receiver parent, T[use.id]? = some (d + 1) ∧
    scopes[d]? = some receiver ∧ receiver.contains "this" = true ∧
    scopes[d + 1]? = some parent ∧ parent.contains "super" = true

mutual

/-- The table is right for an expression inside the scopes. -/
def Expr.Scoped (scopes : List Scope) : Expr → Prop
  | .literal _ => True
  | .grouping inner => inner.Scoped scopes
  | .unary op _ operand => InFront op ∧ operand.Scoped scopes
  | .binary op _ left right =>
    (∃ rule, InBetween rule op) ∧ left.Scoped scopes ∧ right.Scoped scopes
  | .logical _ _ left right => left.Scoped scopes ∧ right.Scoped scopes
  | .name use => T.Readable n scopes use
  | .assign target value =>
    T.Writable n scopes target ∧ target.name.Ordinary ∧ value.Scoped scopes
  | .call callee _ arguments => callee.Scoped scopes ∧ Expr.ListScoped scopes arguments
  | .get object _ => object.Scoped scopes
  | .set object _ value => object.Scoped scopes ∧ value.Scoped scopes
  | .this keyword => keyword.name.text = "this" ∧ T.Places n scopes keyword
  | .super keyword _ => T.Inherits n scopes keyword

def Expr.ListScoped (scopes : List Scope) : List Expr → Prop
  | [] => True
  | e :: es => e.Scoped scopes ∧ Expr.ListScoped scopes es

end

def Expr.OptionScoped (scopes : List Scope) : Option Expr → Prop
  | none => True
  | some e => e.Scoped T n scopes

/-- The name that a statement declares in the scope around it. -/
def Stmt.declared? : Stmt → Option Lexeme
  | .var name _ => some name
  | .function decl => some decl.name
  | .class name _ _ => some name
  | _ => none

/-- The scopes behind a statement. -/
def Stmt.after (scopes : List Scope) : Stmt → List Scope
  | .var name _ => Scope.mark scopes name.text true
  | .function decl => Scope.mark scopes decl.name.text true
  | .class name _ _ => Scope.mark scopes name.text true
  | _ => scopes

/-- A statement without declarations leaves the scopes as they are. -/
theorem Stmt.Plain.after {s : Stmt} (h : s.Plain) (scopes : List Scope) :
    s.after scopes = scopes := by
  cases s with
  | var declared value => exact h.elim
  | function decl => exact h.elim
  | «class» declared superclass methods => exact h.elim
  | _ => rfl

/-- The scopes behind a list of statements. -/
def Stmt.listAfter (scopes : List Scope) (ss : List Stmt) : List Scope :=
  ss.foldl Stmt.after scopes

mutual

/-- The table is right for a statement inside the scopes. -/
def Stmt.Scoped (scopes : List Scope) : Stmt → Prop
  | .expression value => value.Scoped T n scopes
  | .print value => value.Scoped T n scopes
  | .var name initializer =>
    name.Declarable scopes ∧ Expr.OptionScoped T n (Scope.mark scopes name.text false) initializer
  | .block body => Stmt.ListScoped (.empty :: scopes) body
  | .ifElse condition yes none =>
    condition.Scoped T n scopes ∧ yes.Scoped scopes ∧ yes.Plain
  | .ifElse condition yes (some no) =>
    condition.Scoped T n scopes ∧ yes.Scoped scopes ∧ yes.Plain ∧ no.Scoped scopes ∧ no.Plain
  | .while condition body => condition.Scoped T n scopes ∧ body.Scoped scopes ∧ body.Plain
  | .break _ => True
  | .function decl =>
    decl.name.Declarable scopes ∧ decl.Scoped (Scope.mark scopes decl.name.text true)
  | .return _ value => Expr.OptionScoped T n scopes value
  | .class name none methods =>
    name.Declarable scopes ∧
      FunctionDecl.ListScoped (.single "this" true :: Scope.mark scopes name.text true) methods
  | .class name (some parent) methods =>
    name.Declarable scopes ∧ T.Readable n scopes parent ∧
      FunctionDecl.ListScoped
        (.single "this" true :: .single "super" true :: Scope.mark scopes name.text true) methods

def Stmt.ListScoped (scopes : List Scope) : List Stmt → Prop
  | [] => True
  | s :: ss => s.Scoped scopes ∧ Stmt.ListScoped (s.after scopes) ss

/-- The table is right for the body of a declaration inside the scopes. -/
def FunctionDecl.Scoped (scopes : List Scope) : FunctionDecl → Prop
  | ⟨_, parameters, body⟩ =>
    (∀ p ∈ parameters, p.Ordinary) ∧ Stmt.ListScoped (Scope.ofParameters parameters :: scopes) body

def FunctionDecl.ListScoped (scopes : List Scope) : List FunctionDecl → Prop
  | [] => True
  | d :: ds => d.Scoped scopes ∧ FunctionDecl.ListScoped scopes ds

end

end

end Lox
