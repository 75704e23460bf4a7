/-
  Lox.Proofs.Relabelling.Trees

  Trees with other lines and other numbers.

    * `Relabelling` — a line for each line, and a number for each number of an
      occurrence;
    * `Expr.relabel`, `Stmt.relabel` — a tree in which every token has its new line and
      every occurrence its new number;
    * `Token.relabel`, `Diagnostic.relabel` — the same for what has no number.

  A relabelled tree depends on the numbers of its own occurrences only
  (`Stmt.listRelabel_congr`).
-/
import Lox.Diagnostic
import Lox.Syntax.Use

namespace Lox

/-- New lines, and new numbers for occurrences. -/
structure Relabelling where
  line : Nat → Nat
  id : Nat → Nat

namespace Relabelling

/-- Everything as it is. -/
def same : Relabelling := ⟨fun line => line, fun id => id⟩

/-- Lines only. -/
def lines (line : Nat → Nat) : Relabelling := { same with line }

/-- Other numbers on the lines on which they were. -/
def numbers (id : Nat → Nat) : Relabelling := { same with id }

end Relabelling

/-! ## Tokens and diagnostics -/

section

variable (r : Relabelling)

def Token.relabel (t : Token) : Token := { t with line := r.line t.line }

def RuntimeError.relabel (e : RuntimeError) : RuntimeError := { e with line := r.line e.line }

def Diagnostic.relabel : Diagnostic → Diagnostic
  | .lexical line fault => .lexical (r.line line) fault
  | .syntactic line place fault => .syntactic (r.line line) place fault
  | .scope line place fault => .scope (r.line line) place fault
  | .runtime error => .runtime (error.relabel r)

def Lexeme.relabel (name : Lexeme) : Lexeme := { name with line := r.line name.line }

def Occurrence.relabel (use : Occurrence) : Occurrence := ⟨r.id use.id, use.name.relabel r⟩

/-! ## Trees -/

mutual

def Expr.relabel : Expr → Expr
  | .literal value => .literal value
  | .grouping inner => .grouping inner.relabel
  | .unary op sign operand => .unary op (sign.relabel r) operand.relabel
  | .binary op sign left right => .binary op (sign.relabel r) left.relabel right.relabel
  | .logical op sign left right => .logical op (sign.relabel r) left.relabel right.relabel
  | .name use => .name (use.relabel r)
  | .assign target value => .assign (target.relabel r) value.relabel
  | .call callee paren arguments =>
    .call callee.relabel (paren.relabel r) (Expr.listRelabel arguments)
  | .get object property => .get object.relabel (property.relabel r)
  | .set object property value => .set object.relabel (property.relabel r) value.relabel
  | .this keyword => .this (keyword.relabel r)
  | .super keyword method => .super (keyword.relabel r) (method.relabel r)

def Expr.listRelabel : List Expr → List Expr
  | [] => []
  | e :: es => e.relabel :: Expr.listRelabel es

end

mutual

def Stmt.relabel : Stmt → Stmt
  | .expression value => .expression (value.relabel r)
  | .print value => .print (value.relabel r)
  | .var name initializer => .var (name.relabel r) (initializer.map (Expr.relabel r))
  | .block body => .block (Stmt.listRelabel body)
  | .ifElse condition yes none => .ifElse (condition.relabel r) yes.relabel none
  | .ifElse condition yes (some no) => .ifElse (condition.relabel r) yes.relabel (some no.relabel)
  | .while condition body => .while (condition.relabel r) body.relabel
  | .break keyword => .break (keyword.relabel r)
  | .function decl => .function decl.relabel
  | .return keyword value => .return (keyword.relabel r) (value.map (Expr.relabel r))
  | .class name superclass methods =>
    .class (name.relabel r) (superclass.map (Occurrence.relabel r))
      (FunctionDecl.listRelabel methods)

def Stmt.listRelabel : List Stmt → List Stmt
  | [] => []
  | s :: ss => s.relabel :: Stmt.listRelabel ss

def FunctionDecl.relabel : FunctionDecl → FunctionDecl
  | ⟨name, parameters, body⟩ =>
    ⟨name.relabel r, parameters.map (Lexeme.relabel r), Stmt.listRelabel body⟩

def FunctionDecl.listRelabel : List FunctionDecl → List FunctionDecl
  | [] => []
  | d :: ds => d.relabel :: FunctionDecl.listRelabel ds

end

end

@[simp] theorem Lexeme.relabel_text (r : Relabelling) (name : Lexeme) :
    (name.relabel r).text = name.text := rfl

@[simp] theorem Token.relabel_kind (r : Relabelling) (t : Token) : (t.relabel r).kind = t.kind :=
  rfl

@[simp] theorem FunctionDecl.relabel_name (r : Relabelling) (d : FunctionDecl) :
    (d.relabel r).name = d.name.relabel r := by
  obtain ⟨name, parameters, body⟩ := d
  rw [FunctionDecl.relabel]

@[simp] theorem FunctionDecl.relabel_parameters (r : Relabelling) (d : FunctionDecl) :
    (d.relabel r).parameters = d.parameters.map (Lexeme.relabel r) := by
  obtain ⟨name, parameters, body⟩ := d
  rw [FunctionDecl.relabel]

@[simp] theorem FunctionDecl.relabel_body (r : Relabelling) (d : FunctionDecl) :
    (d.relabel r).body = Stmt.listRelabel r d.body := by
  obtain ⟨name, parameters, body⟩ := d
  rw [FunctionDecl.relabel]

theorem Expr.listRelabel_eq_map (r : Relabelling) (es : List Expr) :
    Expr.listRelabel r es = es.map (Expr.relabel r) := by
  induction es with
  | nil => rfl
  | cons e es ih => rw [Expr.listRelabel, ih, List.map_cons]

theorem Stmt.listRelabel_eq_map (r : Relabelling) (ss : List Stmt) :
    Stmt.listRelabel r ss = ss.map (Stmt.relabel r) := by
  induction ss with
  | nil => rfl
  | cons s ss ih => rw [Stmt.listRelabel, ih, List.map_cons]

theorem FunctionDecl.listRelabel_eq_map (r : Relabelling) (ds : List FunctionDecl) :
    FunctionDecl.listRelabel r ds = ds.map (FunctionDecl.relabel r) := by
  induction ds with
  | nil => rfl
  | cons d ds ih => rw [FunctionDecl.listRelabel, ih, List.map_cons]

/-! ## Everything as it is -/

@[simp] theorem Lexeme.relabel_same (name : Lexeme) : name.relabel .same = name := rfl

@[simp] theorem Occurrence.relabel_same (use : Occurrence) : use.relabel .same = use := rfl

/-- A map that changes nothing, on what may be missing. -/
theorem option_map_same {α : Type} {f : α → α} (h : ∀ a, f a = a) (o : Option α) : o.map f = o := by
  rw [show f = id from funext h, Option.map_id, id]

mutual

theorem Expr.relabel_same (e : Expr) : e.relabel .same = e := by
  cases e with
  | literal value => rfl
  | grouping inner => rw [Expr.relabel, Expr.relabel_same inner]
  | unary op sign operand => rw [Expr.relabel, Expr.relabel_same operand, Lexeme.relabel_same]
  | binary op sign left right =>
    rw [Expr.relabel, Expr.relabel_same left, Expr.relabel_same right, Lexeme.relabel_same]
  | logical op sign left right =>
    rw [Expr.relabel, Expr.relabel_same left, Expr.relabel_same right, Lexeme.relabel_same]
  | name use => rw [Expr.relabel, Occurrence.relabel_same]
  | assign target value =>
    rw [Expr.relabel, Expr.relabel_same value, Occurrence.relabel_same]
  | call callee paren arguments =>
    rw [Expr.relabel, Expr.relabel_same callee, Expr.listRelabel_same arguments,
      Lexeme.relabel_same]
  | get object property => rw [Expr.relabel, Expr.relabel_same object, Lexeme.relabel_same]
  | set object property value =>
    rw [Expr.relabel, Expr.relabel_same object, Expr.relabel_same value, Lexeme.relabel_same]
  | this keyword => rw [Expr.relabel, Occurrence.relabel_same]
  | super keyword method => rw [Expr.relabel, Occurrence.relabel_same, Lexeme.relabel_same]

theorem Expr.listRelabel_same (es : List Expr) : Expr.listRelabel .same es = es := by
  cases es with
  | nil => rfl
  | cons e es => rw [Expr.listRelabel, Expr.relabel_same e, Expr.listRelabel_same es]

end

mutual

theorem Stmt.relabel_same (s : Stmt) : s.relabel .same = s := by
  match s with
  | .expression value => rw [Stmt.relabel, Expr.relabel_same]
  | .print value => rw [Stmt.relabel, Expr.relabel_same]
  | .var name initializer =>
    rw [Stmt.relabel, option_map_same Expr.relabel_same, Lexeme.relabel_same]
  | .block body => rw [Stmt.relabel, Stmt.listRelabel_same body]
  | .ifElse condition yes none =>
    rw [Stmt.relabel, Expr.relabel_same, Stmt.relabel_same yes]
  | .ifElse condition yes (some no) =>
    rw [Stmt.relabel, Expr.relabel_same, Stmt.relabel_same yes, Stmt.relabel_same no]
  | .while condition body => rw [Stmt.relabel, Expr.relabel_same, Stmt.relabel_same body]
  | .break keyword => rw [Stmt.relabel, Lexeme.relabel_same]
  | .function decl => rw [Stmt.relabel, FunctionDecl.relabel_same decl]
  | .return keyword value =>
    rw [Stmt.relabel, option_map_same Expr.relabel_same, Lexeme.relabel_same]
  | .class name superclass methods =>
    rw [Stmt.relabel, option_map_same Occurrence.relabel_same,
      FunctionDecl.listRelabel_same methods, Lexeme.relabel_same]

theorem Stmt.listRelabel_same (ss : List Stmt) : Stmt.listRelabel .same ss = ss := by
  match ss with
  | [] => rfl
  | s :: ss => rw [Stmt.listRelabel, Stmt.relabel_same s, Stmt.listRelabel_same ss]

theorem FunctionDecl.relabel_same (d : FunctionDecl) : d.relabel .same = d := by
  match d with
  | ⟨name, parameters, body⟩ =>
    rw [FunctionDecl.relabel, List.map_id'' Lexeme.relabel_same, Stmt.listRelabel_same body,
      Lexeme.relabel_same]

theorem FunctionDecl.listRelabel_same (ds : List FunctionDecl) :
    FunctionDecl.listRelabel .same ds = ds := by
  match ds with
  | [] => rfl
  | d :: ds =>
    rw [FunctionDecl.listRelabel, FunctionDecl.relabel_same d, FunctionDecl.listRelabel_same ds]

end

/-! ## The numbers that matter -/

section

variable {r r' : Relabelling}

theorem Token.relabel_congr (hline : r'.line = r.line) (t : Token) :
    t.relabel r' = t.relabel r := by
  rw [Token.relabel, Token.relabel, hline]

theorem Lexeme.relabel_congr (hline : r'.line = r.line) (name : Lexeme) :
    name.relabel r' = name.relabel r := by
  rw [Lexeme.relabel, Lexeme.relabel, hline]

theorem Occurrence.relabel_congr (hline : r'.line = r.line) {use : Occurrence}
    (hid : r'.id use.id = r.id use.id) : use.relabel r' = use.relabel r := by
  rw [Occurrence.relabel, Occurrence.relabel, hid, Lexeme.relabel_congr hline]

/-- Two relabellings give the uses the same numbers. -/
def Relabelling.AgreeOn (r r' : Relabelling) (uses : List Use) : Prop :=
  ∀ use ∈ uses, r'.id use.occurrence.id = r.id use.occurrence.id

theorem Relabelling.agreeOn_append {uses uses' : List Use} :
    r.AgreeOn r' (uses ++ uses') ↔ r.AgreeOn r' uses ∧ r.AgreeOn r' uses' :=
  List.forall_mem_append

theorem Relabelling.agreeOn_cons {use : Use} {uses : List Use} :
    r.AgreeOn r' (use :: uses) ↔
      r'.id use.occurrence.id = r.id use.occurrence.id ∧ r.AgreeOn r' uses :=
  List.forall_mem_cons

mutual

theorem Expr.relabel_congr (hline : r'.line = r.line) (e : Expr) (h : r.AgreeOn r' e.uses) :
    e.relabel r' = e.relabel r := by
  cases e with
  | literal value => rfl
  | grouping inner => simp only [Expr.relabel, Expr.relabel_congr hline inner h]
  | unary op sign operand =>
    simp only [Expr.relabel, Expr.relabel_congr hline operand h, Lexeme.relabel_congr hline]
  | binary op sign left right =>
    obtain ⟨hleft, hright⟩ := Relabelling.agreeOn_append.mp h
    simp only [Expr.relabel, Expr.relabel_congr hline left hleft,
      Expr.relabel_congr hline right hright, Lexeme.relabel_congr hline]
  | logical op sign left right =>
    obtain ⟨hleft, hright⟩ := Relabelling.agreeOn_append.mp h
    simp only [Expr.relabel, Expr.relabel_congr hline left hleft,
      Expr.relabel_congr hline right hright, Lexeme.relabel_congr hline]
  | name use =>
    simp only [Expr.relabel, Occurrence.relabel_congr hline (Relabelling.agreeOn_cons.mp h).1]
  | assign target value =>
    obtain ⟨htarget, hvalue⟩ := Relabelling.agreeOn_cons.mp h
    simp only [Expr.relabel, Expr.relabel_congr hline value hvalue,
      Occurrence.relabel_congr hline htarget]
  | call callee paren arguments =>
    obtain ⟨hcallee, harguments⟩ := Relabelling.agreeOn_append.mp h
    simp only [Expr.relabel, Expr.relabel_congr hline callee hcallee,
      Expr.listRelabel_congr hline arguments harguments, Lexeme.relabel_congr hline]
  | get object property =>
    simp only [Expr.relabel, Expr.relabel_congr hline object h, Lexeme.relabel_congr hline]
  | set object property value =>
    obtain ⟨hobject, hvalue⟩ := Relabelling.agreeOn_append.mp h
    simp only [Expr.relabel, Expr.relabel_congr hline object hobject,
      Expr.relabel_congr hline value hvalue, Lexeme.relabel_congr hline]
  | this keyword =>
    simp only [Expr.relabel, Occurrence.relabel_congr hline (Relabelling.agreeOn_cons.mp h).1]
  | super keyword method =>
    simp only [Expr.relabel, Occurrence.relabel_congr hline (Relabelling.agreeOn_cons.mp h).1,
      Lexeme.relabel_congr hline]

theorem Expr.listRelabel_congr (hline : r'.line = r.line) (es : List Expr)
    (h : r.AgreeOn r' (Expr.listUses es)) :
    Expr.listRelabel r' es = Expr.listRelabel r es := by
  cases es with
  | nil => rfl
  | cons e es =>
    obtain ⟨he, hes⟩ := Relabelling.agreeOn_append.mp h
    simp only [Expr.listRelabel, Expr.relabel_congr hline e he, Expr.listRelabel_congr hline es hes]

end

theorem Expr.optionRelabel_congr (hline : r'.line = r.line) (e : Option Expr)
    (h : r.AgreeOn r' (Expr.optionUses e)) :
    e.map (Expr.relabel r') = e.map (Expr.relabel r) := by
  cases e with
  | none => rfl
  | some e => rw [Option.map_some, Option.map_some, Expr.relabel_congr hline e h]

mutual

theorem Stmt.relabel_congr (hline : r'.line = r.line) (s : Stmt) (h : r.AgreeOn r' s.uses) :
    s.relabel r' = s.relabel r := by
  match s with
  | .expression value => simp only [Stmt.relabel, Expr.relabel_congr hline value h]
  | .print value => simp only [Stmt.relabel, Expr.relabel_congr hline value h]
  | .var name initializer =>
    simp only [Stmt.relabel, Expr.optionRelabel_congr hline initializer h,
      Lexeme.relabel_congr hline]
  | .block body => simp only [Stmt.relabel, Stmt.listRelabel_congr hline body h]
  | .ifElse condition yes none =>
    obtain ⟨hcondition, hyes⟩ := Relabelling.agreeOn_append.mp h
    simp only [Stmt.relabel, Expr.relabel_congr hline condition hcondition,
      Stmt.relabel_congr hline yes hyes]
  | .ifElse condition yes (some no) =>
    obtain ⟨hfront, hno⟩ := Relabelling.agreeOn_append.mp h
    obtain ⟨hcondition, hyes⟩ := Relabelling.agreeOn_append.mp hfront
    simp only [Stmt.relabel, Expr.relabel_congr hline condition hcondition,
      Stmt.relabel_congr hline yes hyes, Stmt.relabel_congr hline no hno]
  | .while condition body =>
    obtain ⟨hcondition, hbody⟩ := Relabelling.agreeOn_append.mp h
    simp only [Stmt.relabel, Expr.relabel_congr hline condition hcondition,
      Stmt.relabel_congr hline body hbody]
  | .break keyword => simp only [Stmt.relabel, Lexeme.relabel_congr hline]
  | .function decl => simp only [Stmt.relabel, FunctionDecl.relabel_congr hline decl h]
  | .return keyword value =>
    simp only [Stmt.relabel, Expr.optionRelabel_congr hline value h, Lexeme.relabel_congr hline]
  | .class name none methods =>
    simp only [Stmt.relabel, FunctionDecl.listRelabel_congr hline methods h,
      Lexeme.relabel_congr hline, Option.map_none, Option.map_none]
  | .class name (some parent) methods =>
    obtain ⟨hparent, hmethods⟩ := Relabelling.agreeOn_cons.mp h
    simp only [Stmt.relabel, FunctionDecl.listRelabel_congr hline methods hmethods,
      Lexeme.relabel_congr hline, Option.map_some, Option.map_some,
      Occurrence.relabel_congr hline hparent]

theorem Stmt.listRelabel_congr (hline : r'.line = r.line) (ss : List Stmt)
    (h : r.AgreeOn r' (Stmt.listUses ss)) :
    Stmt.listRelabel r' ss = Stmt.listRelabel r ss := by
  match ss with
  | [] => rfl
  | s :: ss =>
    obtain ⟨hs, hss⟩ := Relabelling.agreeOn_append.mp h
    simp only [Stmt.listRelabel, Stmt.relabel_congr hline s hs, Stmt.listRelabel_congr hline ss hss]

theorem FunctionDecl.relabel_congr (hline : r'.line = r.line) (d : FunctionDecl)
    (h : r.AgreeOn r' d.uses) :
    d.relabel r' = d.relabel r := by
  match d with
  | ⟨name, parameters, body⟩ =>
    have hparameters : parameters.map (Lexeme.relabel r') = parameters.map (Lexeme.relabel r) :=
      List.map_congr_left fun p _ => Lexeme.relabel_congr hline p
    simp only [FunctionDecl.relabel, Stmt.listRelabel_congr hline body h, hparameters,
      Lexeme.relabel_congr hline]

theorem FunctionDecl.listRelabel_congr (hline : r'.line = r.line) (ds : List FunctionDecl)
    (h : r.AgreeOn r' (FunctionDecl.listUses ds)) :
    FunctionDecl.listRelabel r' ds = FunctionDecl.listRelabel r ds := by
  match ds with
  | [] => rfl
  | d :: ds =>
    obtain ⟨hd, hds⟩ := Relabelling.agreeOn_append.mp h
    simp only [FunctionDecl.listRelabel, FunctionDecl.relabel_congr hline d hd,
      FunctionDecl.listRelabel_congr hline ds hds]

end

end

end Lox
