/-
  Lox.Proofs.Renaming.Rename

  Another name for a local variable.

    * `Renaming` — the old name, the new one, and the table that tells which scope
      an occurrence means;
    * `Expr.rename`, `Stmt.rename` — a tree in which the variables of some scopes have
      the new name, where they are declared and where they are meant;
    * `Stmt.Renamable` — the new name stands nowhere in the tree, and no function or
      class of those scopes has the old one.

  A scope of a tree is known by its path, the way to it from the root of the tree.
  The flags beside a tree tell which of the scopes around it are chosen, the
  innermost one first.
-/
import Lox.Proofs.Scoping.Static

namespace Lox

/-! ## Names -/

/-- A change of name. -/
structure Renaming where
  table : Table
  old : String
  new : String

/-- The way to a scope: which part of a tree to go to, at each step. -/
abbrev Path := List Nat

/-- The flag of the scope that an occurrence means. -/
def flagAt (flags : List Bool) : Option Nat → Bool
  | none => false
  | some d => flags.getD d false

/-- The chosen paths inside a part of a tree. -/
def inside (chosen : Path → Bool) (part : Nat) : Path → Bool := fun path => chosen (part :: path)

namespace Renaming

variable (r : Renaming)

/-- A name of a scope, which is chosen or not. -/
def spell (chosen : Bool) (name : String) : String :=
  if chosen = true ∧ name = r.old then r.new else name

/-- A declared name. -/
def declared (chosen : Bool) (name : Lexeme) : Lexeme :=
  { name with text := r.spell chosen name.text }

/-- An occurrence of a variable. -/
def occurrence (flags : List Bool) (use : Occurrence) : Occurrence :=
  { use with name := r.declared (flagAt flags r.table[use.id]?) use.name }

/-- The old and the new name, one for the other. -/
def swap (chosen : Bool) (name : String) : String :=
  if chosen = true then
    if name = r.old then r.new else if name = r.new then r.old else name
  else name

/-- Neither name is reserved. -/
structure Ordinary : Prop where
  old : Lexeme.Ordinary ⟨r.old, 0⟩
  new : Lexeme.Ordinary ⟨r.new, 0⟩

variable {r}

theorem swap_swap (chosen : Bool) (name : String) : r.swap chosen (r.swap chosen name) = name := by
  unfold swap
  cases chosen with
  | false => rfl
  | true =>
    by_cases hold : name = r.old
    · by_cases hsame : r.new = r.old <;> simp [hold, hsame]
    · by_cases hnew : name = r.new
      · simp [hnew]
      · simp [hold, hnew]

theorem swap_inj {chosen : Bool} {a b : String} : r.swap chosen a = r.swap chosen b ↔ a = b := by
  constructor
  · intro h
    rw [← swap_swap (r := r) chosen a, h, swap_swap]
  · exact congrArg (r.swap chosen)

@[simp] theorem swap_false (name : String) : r.swap false name = name := rfl

/-- Where the new name is none of the tree, renaming is an exchange. -/
theorem spell_eq_swap (chosen : Bool) {name : String} (hname : name ≠ r.new) :
    r.spell chosen name = r.swap chosen name := by
  cases chosen <;> simp [spell, swap, hname]

theorem spell_of_ne (chosen : Bool) {name : String} (hname : name ≠ r.old) :
    r.spell chosen name = name := by
  simp [spell, hname]

/-- A name that is neither the old nor the new one stays. -/
theorem swap_of_ne (chosen : Bool) {name : String} (hold : name ≠ r.old) (hnew : name ≠ r.new) :
    r.swap chosen name = name := by
  simp [swap, hold, hnew]

theorem Ordinary.swap_this (h : r.Ordinary) (chosen : Bool) : r.swap chosen "this" = "this" :=
  swap_of_ne chosen (Ne.symm h.old.1) (Ne.symm h.new.1)

theorem Ordinary.swap_super (h : r.Ordinary) (chosen : Bool) : r.swap chosen "super" = "super" :=
  swap_of_ne chosen (Ne.symm h.old.2) (Ne.symm h.new.2)

end Renaming

/-! ## Renamed trees -/

section

variable (r : Renaming)

mutual

/-- An expression inside scopes with the given flags. -/
def Expr.rename (flags : List Bool) : Expr → Expr
  | .literal value => .literal value
  | .grouping inner => .grouping (inner.rename flags)
  | .unary op sign operand => .unary op sign (operand.rename flags)
  | .binary op sign left right => .binary op sign (left.rename flags) (right.rename flags)
  | .logical op sign left right => .logical op sign (left.rename flags) (right.rename flags)
  | .name use => .name (r.occurrence flags use)
  | .assign target value => .assign (r.occurrence flags target) (value.rename flags)
  | .call callee paren arguments =>
    .call (callee.rename flags) paren (Expr.listRename flags arguments)
  | .get object property => .get (object.rename flags) property
  | .set object property value => .set (object.rename flags) property (value.rename flags)
  | .this keyword => .this keyword
  | .super keyword method => .super keyword method

def Expr.listRename (flags : List Bool) : List Expr → List Expr
  | [] => []
  | e :: es => e.rename flags :: Expr.listRename flags es

end

/-- The flags inside a class: the scopes of `this` and `super` are never chosen. -/
def classFlags (derived : Bool) (flags : List Bool) : List Bool :=
  if derived then false :: false :: flags else false :: flags

mutual

/-- A statement inside scopes with the given flags; its own scopes are chosen by
    their paths. -/
def Stmt.rename (chosen : Path → Bool) (flags : List Bool) : Stmt → Stmt
  | .expression value => .expression (value.rename r flags)
  | .print value => .print (value.rename r flags)
  | .var name initializer =>
    .var (r.declared (flags.headD false) name) (initializer.map (Expr.rename r flags))
  | .block body => .block (Stmt.listRename chosen 0 (chosen [] :: flags) body)
  | .ifElse condition yes none =>
    .ifElse (condition.rename r flags) (yes.rename (inside chosen 0) flags) none
  | .ifElse condition yes (some no) =>
    .ifElse (condition.rename r flags) (yes.rename (inside chosen 0) flags)
      (some (no.rename (inside chosen 1) flags))
  | .while condition body =>
    .while (condition.rename r flags) (body.rename (inside chosen 0) flags)
  | .break keyword => .break keyword
  | .function decl => .function (decl.rename chosen flags)
  | .return keyword value => .return keyword (value.map (Expr.rename r flags))
  | .class name superclass methods =>
    .class name (superclass.map (r.occurrence flags))
      (FunctionDecl.listRename chosen 0 (classFlags superclass.isSome flags) methods)

/-- Statements, the first of which is the given part. -/
def Stmt.listRename (chosen : Path → Bool) (part : Nat) (flags : List Bool) :
    List Stmt → List Stmt
  | [] => []
  | s :: ss =>
    s.rename (inside chosen part) flags :: Stmt.listRename chosen (part + 1) flags ss

/-- A function.  Its name does not belong to its own scope. -/
def FunctionDecl.rename (chosen : Path → Bool) (flags : List Bool) : FunctionDecl → FunctionDecl
  | ⟨name, parameters, body⟩ =>
    ⟨name, parameters.map (r.declared (chosen [])),
      Stmt.listRename chosen 0 (chosen [] :: flags) body⟩

/-- Methods, the first of which is the given part. -/
def FunctionDecl.listRename (chosen : Path → Bool) (part : Nat) (flags : List Bool) :
    List FunctionDecl → List FunctionDecl
  | [] => []
  | d :: ds =>
    d.rename (inside chosen part) flags :: FunctionDecl.listRename chosen (part + 1) flags ds

end

end

@[simp] theorem FunctionDecl.rename_name (r : Renaming) (chosen : Path → Bool) (flags : List Bool)
    (d : FunctionDecl) : (d.rename r chosen flags).name = d.name := by
  obtain ⟨name, parameters, body⟩ := d
  rw [FunctionDecl.rename]

theorem FunctionDecl.rename_parameters (r : Renaming) (chosen : Path → Bool) (flags : List Bool)
    (d : FunctionDecl) :
    (d.rename r chosen flags).parameters = d.parameters.map (r.declared (chosen [])) := by
  obtain ⟨name, parameters, body⟩ := d
  rw [FunctionDecl.rename]

theorem FunctionDecl.rename_body (r : Renaming) (chosen : Path → Bool) (flags : List Bool)
    (d : FunctionDecl) :
    (d.rename r chosen flags).body = Stmt.listRename r chosen 0 (chosen [] :: flags) d.body := by
  obtain ⟨name, parameters, body⟩ := d
  rw [FunctionDecl.rename]

/-! ## Trees that can be renamed -/

/-- No use of a name in the expression is one of `name`. -/
def Expr.Avoids (name : String) (e : Expr) : Prop :=
  ∀ use ∈ e.uses, use.occurrence.name.text ≠ name

def Expr.OptionAvoids (name : String) : Option Expr → Prop
  | none => True
  | some e => e.Avoids name

section

variable (r : Renaming)

/-- The name of a function or a class in a scope, which is chosen or not. -/
structure Renaming.Keeps (chosen : Bool) (name : Lexeme) : Prop where
  new : name.text ≠ r.new
  old : chosen = true → name.text ≠ r.old

/-- Such a name stays when it is declared. -/
theorem Renaming.Keeps.declared {r : Renaming} {chosen : Bool} {name : Lexeme}
    (h : r.Keeps chosen name) : r.declared chosen name = name := by
  have hspell : r.spell chosen name.text = name.text :=
    if_neg fun hboth => h.old hboth.1 hboth.2
  rw [Renaming.declared, hspell]

mutual

/-- A statement can be renamed; `here` tells whether the scope around it is chosen. -/
def Stmt.Renamable (chosen : Path → Bool) (here : Bool) : Stmt → Prop
  | .expression value => value.Avoids r.new
  | .print value => value.Avoids r.new
  | .var name initializer => name.text ≠ r.new ∧ Expr.OptionAvoids r.new initializer
  | .block body => Stmt.ListRenamable chosen 0 (chosen []) body
  | .ifElse condition yes none =>
    condition.Avoids r.new ∧ yes.Renamable (inside chosen 0) here
  | .ifElse condition yes (some no) =>
    condition.Avoids r.new ∧ yes.Renamable (inside chosen 0) here ∧
      no.Renamable (inside chosen 1) here
  | .while condition body => condition.Avoids r.new ∧ body.Renamable (inside chosen 0) here
  | .break _ => True
  | .function decl => r.Keeps here decl.name ∧ decl.Renamable chosen
  | .return _ value => Expr.OptionAvoids r.new value
  | .class name superclass methods =>
    r.Keeps here name ∧ (∀ parent ∈ superclass, parent.name.text ≠ r.new) ∧
      FunctionDecl.ListRenamable chosen 0 methods

def Stmt.ListRenamable (chosen : Path → Bool) (part : Nat) (here : Bool) : List Stmt → Prop
  | [] => True
  | s :: ss => s.Renamable (inside chosen part) here ∧ Stmt.ListRenamable chosen (part + 1) here ss

def FunctionDecl.Renamable (chosen : Path → Bool) : FunctionDecl → Prop
  | ⟨_, parameters, body⟩ =>
    (∀ p ∈ parameters, p.text ≠ r.new) ∧ Stmt.ListRenamable chosen 0 (chosen []) body

def FunctionDecl.ListRenamable (chosen : Path → Bool) (part : Nat) : List FunctionDecl → Prop
  | [] => True
  | d :: ds => d.Renamable (inside chosen part) ∧ FunctionDecl.ListRenamable chosen (part + 1) ds

end

end

end Lox
