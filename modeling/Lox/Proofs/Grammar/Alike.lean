/-
  Lox.Proofs.Grammar.Alike

  Texts and trees that differ in the names in them only.

    * `Token.Alike`, `Expr.Alike`, `Stmt.Alike` — a relation `R` holds between the
      names that stand in the same places, and all else is the same, the numbers of
      occurrences included;
    * `eq_of_unnumbered` — a tree that is alike is determined by what it is without
      its numbers.
-/
import Lox.Proofs.Grammar.Rules
import Mathlib.Data.List.Forall2

namespace Lox

section

variable (R : String → String → Prop)

/-! ## Names, tokens and trees -/

/-- Names on the same line. -/
structure Lexeme.Alike (a b : Lexeme) : Prop where
  text : R a.text b.text
  line : b.line = a.line

/-- Occurrences with the same number. -/
structure Occurrence.Alike (a b : Occurrence) : Prop where
  name : a.name.Alike R b.name
  id : b.id = a.id

/-- Tokens of the same kind; only names have another text. -/
structure Token.Alike (t u : Token) : Prop where
  kind : u.kind = t.kind
  name : t.kind = .identifier → t.toLexeme.Alike R u.toLexeme
  fixed : t.kind ≠ .identifier → u = t

mutual

/-- Expressions that differ in names only. -/
inductive Expr.Alike : Expr → Expr → Prop
  | literal {value} : Alike (.literal value) (.literal value)
  | grouping {a a'} : Alike a a' → Alike (.grouping a) (.grouping a')
  | unary {op sign a a'} : Alike a a' → Alike (.unary op sign a) (.unary op sign a')
  | binary {op sign a a' b b'} :
      Alike a a' → Alike b b' → Alike (.binary op sign a b) (.binary op sign a' b')
  | logical {op sign a a' b b'} :
      Alike a a' → Alike b b' → Alike (.logical op sign a b) (.logical op sign a' b')
  | name {use use'} : use.Alike R use' → Alike (.name use) (.name use')
  | assign {target target' a a'} :
      target.Alike R target' → Alike a a' → Alike (.assign target a) (.assign target' a')
  | call {a a' paren es es'} :
      Alike a a' → ListAlike es es' → Alike (.call a paren es) (.call a' paren es')
  | get {a a' property property'} :
      Alike a a' → property.Alike R property' → Alike (.get a property) (.get a' property')
  | set {a a' property property' b b'} :
      Alike a a' → property.Alike R property' → Alike b b' →
      Alike (.set a property b) (.set a' property' b')
  | this {keyword} : Alike (.this keyword) (.this keyword)
  | super {keyword method method'} :
      method.Alike R method' → Alike (.super keyword method) (.super keyword method')

inductive Expr.ListAlike : List Expr → List Expr → Prop
  | nil : ListAlike [] []
  | cons {e e' es es'} : Alike e e' → ListAlike es es' → ListAlike (e :: es) (e' :: es')

end

mutual

/-- Statements that differ in names only. -/
inductive Stmt.Alike : Stmt → Stmt → Prop
  | expression {e e'} : e.Alike R e' → Alike (.expression e) (.expression e')
  | print {e e'} : e.Alike R e' → Alike (.print e) (.print e')
  | var {name name' e e'} :
      name.Alike R name' → Option.Rel (Expr.Alike R) e e' → Alike (.var name e) (.var name' e')
  | block {ss ss'} : ListAlike ss ss' → Alike (.block ss) (.block ss')
  | ifThen {c c' s s'} :
      c.Alike R c' → Alike s s' → Alike (.ifElse c s none) (.ifElse c' s' none)
  | ifElse {c c' s s' t t'} :
      c.Alike R c' → Alike s s' → Alike t t' →
      Alike (.ifElse c s (some t)) (.ifElse c' s' (some t'))
  | while {c c' s s'} : c.Alike R c' → Alike s s' → Alike (.while c s) (.while c' s')
  | break {keyword} : Alike (.break keyword) (.break keyword)
  | function {d d'} : DeclAlike d d' → Alike (.function d) (.function d')
  | return {keyword e e'} :
      Option.Rel (Expr.Alike R) e e' → Alike (.return keyword e) (.return keyword e')
  | class {name name' parent parent' ds ds'} :
      name.Alike R name' → Option.Rel (Occurrence.Alike R) parent parent' → DeclsAlike ds ds' →
      Alike (.class name parent ds) (.class name' parent' ds')

inductive Stmt.ListAlike : List Stmt → List Stmt → Prop
  | nil : ListAlike [] []
  | cons {s s' ss ss'} : Alike s s' → ListAlike ss ss' → ListAlike (s :: ss) (s' :: ss')

inductive Stmt.DeclAlike : FunctionDecl → FunctionDecl → Prop
  | mk {name name' parameters parameters' body body'} :
      name.Alike R name' → List.Forall₂ (Lexeme.Alike R) parameters parameters' →
      ListAlike body body' → DeclAlike ⟨name, parameters, body⟩ ⟨name', parameters', body'⟩

inductive Stmt.DeclsAlike : List FunctionDecl → List FunctionDecl → Prop
  | nil : DeclsAlike [] []
  | cons {d d' ds ds'} : DeclAlike d d' → DeclsAlike ds ds' → DeclsAlike (d :: ds) (d' :: ds')

end

end

variable {R R' : String → String → Prop}

/-- A token that is no name is like itself. -/
theorem Token.Alike.of_fixed {t : Token} (h : t.kind ≠ .identifier) : t.Alike R t :=
  ⟨rfl, fun hname => absurd hname h, fun _ => rfl⟩

/-- Tokens of which none is the last stay so. -/
theorem Token.forall_ne_eof_of_alike {before before' : List Token}
    (hbefore : List.Forall₂ (Token.Alike R) before before') (hkinds : ∀ t ∈ before, t.kind ≠ .eof) :
    ∀ t ∈ before', t.kind ≠ .eof := by
  induction hbefore with
  | nil => exact nofun
  | cons ht _ ih =>
    obtain ⟨hkind, hrest⟩ := List.forall_mem_cons.mp hkinds
    exact List.forall_mem_cons.mpr ⟨ht.kind ▸ hkind, ih hrest⟩

/-- For a name that is like the name of a token there is a token. -/
theorem Token.Alike.of_name {t : Token} {name : Lexeme} (ht : t.kind = .identifier)
    (h : t.toLexeme.Alike R name) : ∃ u, t.Alike R u ∧ u.kind = .identifier ∧ u.toLexeme = name :=
  ⟨⟨.identifier, name.text, name.line⟩, ⟨ht.symm, fun _ => h, fun hne => absurd ht hne⟩, rfl, rfl⟩

/-! ## Numbers -/

theorem Occurrence.Alike.eq_of_unnumbered {a b c : Occurrence} (hb : a.Alike R b)
    (hc : a.Alike R' c) (h : b.unnumbered = c.unnumbered) : b = c := by
  obtain ⟨id, name⟩ := b
  obtain ⟨id', name'⟩ := c
  have hid : id' = id := hc.id.trans hb.id.symm
  cases h
  rw [hid]

mutual

/-- Two expressions that are like a third one are the same if they are so without their
    numbers. -/
theorem Expr.eq_of_unnumbered (e : Expr) {a b : Expr} (ha : e.Alike R a) (hb : e.Alike R' b)
    (h : a.unnumbered = b.unnumbered) : a = b := by
  cases e with
  | literal value =>
    cases ha
    cases hb
    rfl
  | grouping inner =>
    cases ha with | grouping ha =>
    cases hb with | grouping hb =>
    injection h with h
    rw [Expr.eq_of_unnumbered inner ha hb h]
  | unary op sign operand =>
    cases ha with | unary ha =>
    cases hb with | unary hb =>
    injection h with _ _ h
    rw [Expr.eq_of_unnumbered operand ha hb h]
  | binary op sign left right =>
    cases ha with | binary hl hr =>
    cases hb with | binary hl' hr' =>
    injection h with _ _ hleft hright
    rw [Expr.eq_of_unnumbered left hl hl' hleft, Expr.eq_of_unnumbered right hr hr' hright]
  | logical op sign left right =>
    cases ha with | logical hl hr =>
    cases hb with | logical hl' hr' =>
    injection h with _ _ hleft hright
    rw [Expr.eq_of_unnumbered left hl hl' hleft, Expr.eq_of_unnumbered right hr hr' hright]
  | name use =>
    cases ha with | name ha =>
    cases hb with | name hb =>
    injection h with h
    rw [ha.eq_of_unnumbered hb h]
  | assign target value =>
    cases ha with | assign ht hv =>
    cases hb with | assign ht' hv' =>
    injection h with htarget hvalue
    rw [ht.eq_of_unnumbered ht' htarget, Expr.eq_of_unnumbered value hv hv' hvalue]
  | call callee paren arguments =>
    cases ha with | call hc has =>
    cases hb with | call hc' has' =>
    injection h with hcallee _ harguments
    rw [Expr.eq_of_unnumbered callee hc hc' hcallee,
      Expr.list_eq_of_unnumbered arguments has has' harguments]
  | get object property =>
    cases ha with | get ho hp =>
    cases hb with | get ho' hp' =>
    injection h with hobject hproperty
    rw [Expr.eq_of_unnumbered object ho ho' hobject, hproperty]
  | set object property value =>
    cases ha with | set ho hp hv =>
    cases hb with | set ho' hp' hv' =>
    injection h with hobject hproperty hvalue
    rw [Expr.eq_of_unnumbered object ho ho' hobject, hproperty,
      Expr.eq_of_unnumbered value hv hv' hvalue]
  | this keyword =>
    cases ha
    cases hb
    rfl
  | super keyword method =>
    cases ha with | super hm =>
    cases hb with | super hm' =>
    injection h with _ hmethod
    rw [hmethod]

theorem Expr.list_eq_of_unnumbered (es : List Expr) {as bs : List Expr}
    (has : Expr.ListAlike R es as) (hbs : Expr.ListAlike R' es bs)
    (h : Expr.listUnnumbered as = Expr.listUnnumbered bs) : as = bs := by
  cases es with
  | nil =>
    cases has
    cases hbs
    rfl
  | cons e es =>
    cases has with | cons ha has =>
    cases hbs with | cons hb hbs =>
    injection h with hhead htail
    rw [Expr.eq_of_unnumbered e ha hb hhead, Expr.list_eq_of_unnumbered es has hbs htail]

end

theorem Expr.option_eq_of_unnumbered {e a b : Option Expr} (ha : Option.Rel (Expr.Alike R) e a)
    (hb : Option.Rel (Expr.Alike R') e b) (h : a.map Expr.unnumbered = b.map Expr.unnumbered) :
    a = b := by
  cases ha with
  | none =>
    cases hb
    rfl
  | some ha =>
    cases hb with | some hb =>
    injection h with h
    rw [Expr.eq_of_unnumbered _ ha hb h]

theorem Occurrence.option_eq_of_unnumbered {use a b : Option Occurrence}
    (ha : Option.Rel (Occurrence.Alike R) use a) (hb : Option.Rel (Occurrence.Alike R') use b)
    (h : a.map Occurrence.unnumbered = b.map Occurrence.unnumbered) : a = b := by
  cases ha with
  | none =>
    cases hb
    rfl
  | some ha =>
    cases hb with | some hb =>
    injection h with h
    rw [ha.eq_of_unnumbered hb h]

mutual

/-- So are two statements. -/
theorem Stmt.eq_of_unnumbered (s : Stmt) {a b : Stmt} (ha : s.Alike R a) (hb : s.Alike R' b)
    (h : a.unnumbered = b.unnumbered) : a = b := by
  match s with
  | .expression e =>
    cases ha with | expression ha =>
    cases hb with | expression hb =>
    injection h with h
    rw [Expr.eq_of_unnumbered e ha hb h]
  | .print e =>
    cases ha with | print ha =>
    cases hb with | print hb =>
    injection h with h
    rw [Expr.eq_of_unnumbered e ha hb h]
  | .var name initializer =>
    cases ha with | var hn hi =>
    cases hb with | var hn' hi' =>
    injection h with hname hinitializer
    rw [hname, Expr.option_eq_of_unnumbered hi hi' hinitializer]
  | .block body =>
    cases ha with | block hs =>
    cases hb with | block hs' =>
    injection h with h
    rw [Stmt.list_eq_of_unnumbered body hs hs' h]
  | .ifElse condition yes none =>
    cases ha with | ifThen hc hy =>
    cases hb with | ifThen hc' hy' =>
    injection h with hcondition hyes _
    rw [Expr.eq_of_unnumbered condition hc hc' hcondition, Stmt.eq_of_unnumbered yes hy hy' hyes]
  | .ifElse condition yes (some no) =>
    cases ha with | ifElse hc hy hn =>
    cases hb with | ifElse hc' hy' hn' =>
    injection h with hcondition hyes hno
    injection hno with hno
    rw [Expr.eq_of_unnumbered condition hc hc' hcondition, Stmt.eq_of_unnumbered yes hy hy' hyes,
      Stmt.eq_of_unnumbered no hn hn' hno]
  | .while condition body =>
    cases ha with | «while» hc hs =>
    cases hb with | «while» hc' hs' =>
    injection h with hcondition hbody
    rw [Expr.eq_of_unnumbered condition hc hc' hcondition, Stmt.eq_of_unnumbered body hs hs' hbody]
  | .break keyword =>
    cases ha
    cases hb
    rfl
  | .function decl =>
    cases ha with | function hd =>
    cases hb with | function hd' =>
    injection h with h
    rw [FunctionDecl.eq_of_unnumbered decl hd hd' h]
  | .return keyword value =>
    cases ha with | «return» hv =>
    cases hb with | «return» hv' =>
    injection h with _ hvalue
    rw [Expr.option_eq_of_unnumbered hv hv' hvalue]
  | .class name superclass methods =>
    cases ha with | «class» hn hp hds =>
    cases hb with | «class» hn' hp' hds' =>
    injection h with hname hparent hmethods
    rw [hname, Occurrence.option_eq_of_unnumbered hp hp' hparent,
      FunctionDecl.list_eq_of_unnumbered methods hds hds' hmethods]

theorem Stmt.list_eq_of_unnumbered (ss : List Stmt) {as bs : List Stmt}
    (has : Stmt.ListAlike R ss as) (hbs : Stmt.ListAlike R' ss bs)
    (h : Stmt.listUnnumbered as = Stmt.listUnnumbered bs) : as = bs := by
  match ss with
  | [] =>
    cases has
    cases hbs
    rfl
  | s :: ss =>
    cases has with | cons ha has =>
    cases hbs with | cons hb hbs =>
    injection h with hhead htail
    rw [Stmt.eq_of_unnumbered s ha hb hhead, Stmt.list_eq_of_unnumbered ss has hbs htail]

theorem FunctionDecl.eq_of_unnumbered (d : FunctionDecl) {a b : FunctionDecl}
    (ha : Stmt.DeclAlike R d a) (hb : Stmt.DeclAlike R' d b) (h : a.unnumbered = b.unnumbered) :
    a = b := by
  match d with
  | ⟨name, parameters, body⟩ =>
    cases ha with | mk hn hp hs =>
    cases hb with | mk hn' hp' hs' =>
    injection h with hname hparameters hbody
    rw [hname, hparameters, Stmt.list_eq_of_unnumbered body hs hs' hbody]

theorem FunctionDecl.list_eq_of_unnumbered (ds : List FunctionDecl) {as bs : List FunctionDecl}
    (has : Stmt.DeclsAlike R ds as) (hbs : Stmt.DeclsAlike R' ds bs)
    (h : FunctionDecl.listUnnumbered as = FunctionDecl.listUnnumbered bs) : as = bs := by
  match ds with
  | [] =>
    cases has
    cases hbs
    rfl
  | d :: ds =>
    cases has with | cons ha has =>
    cases hbs with | cons hb hbs =>
    injection h with hhead htail
    rw [FunctionDecl.eq_of_unnumbered d ha hb hhead,
      FunctionDecl.list_eq_of_unnumbered ds has hbs htail]

end

end Lox
