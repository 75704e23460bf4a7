/-
  Lox.Proofs.Renaming.Locals

  The local variables of a program, and why each of them can be renamed.

    * `Stmt.HasLocal name path` — the scope at the end of the path has a parameter or
      a `var` of that name;
    * `Stmt.Avoids` — no variable, function or class and no use has the name;
      `StmtPhrase.Derives.avoids` — as in a text in which the word does not stand;
    * `Stmt.listRenamable` — with a name that is avoided, the locals of one scope can be
      renamed: nothing else in their scope has their name;
    * `Stmt.listRename_alike` — the renamed tree differs in names only.
-/
import Lox.Proofs.Grammar.Alike
import Lox.Proofs.Renaming.Rename
import Lox.Proofs.Scoping.Resolution

namespace Lox

/-! ## Local variables -/

/-- A `var` of the name stands directly among the statements. -/
def Stmt.Declares (name : String) (ss : List Stmt) : Prop :=
  ∃ declared initializer, .var declared initializer ∈ ss ∧ declared.text = name

mutual

/-- The scope at the end of the path has a parameter or a `var` of the name. -/
def Stmt.HasLocal (name : String) : Path → Stmt → Prop
  | path, .block body => path = [] ∧ Stmt.Declares name body ∨ Stmt.ListHasLocal name 0 path body
  | path, .ifElse _ yes none => ∃ rest, path = 0 :: rest ∧ yes.HasLocal name rest
  | path, .ifElse _ yes (some no) =>
    (∃ rest, path = 0 :: rest ∧ yes.HasLocal name rest) ∨
      ∃ rest, path = 1 :: rest ∧ no.HasLocal name rest
  | path, .while _ body => ∃ rest, path = 0 :: rest ∧ body.HasLocal name rest
  | path, .function decl => decl.HasLocal name path
  | path, .class _ _ methods => FunctionDecl.ListHasLocal name 0 path methods
  | _, _ => False

def Stmt.ListHasLocal (name : String) : Nat → Path → List Stmt → Prop
  | _, _, [] => False
  | part, path, s :: ss =>
    (∃ rest, path = part :: rest ∧ s.HasLocal name rest) ∨ Stmt.ListHasLocal name (part + 1) path ss

/-- Parameters and body are in one scope. -/
def FunctionDecl.HasLocal (name : String) : Path → FunctionDecl → Prop
  | path, ⟨_, parameters, body⟩ =>
    path = [] ∧ ((∃ p ∈ parameters, p.text = name) ∨ Stmt.Declares name body) ∨
      Stmt.ListHasLocal name 0 path body

def FunctionDecl.ListHasLocal (name : String) : Nat → Path → List FunctionDecl → Prop
  | _, _, [] => False
  | part, path, d :: ds =>
    (∃ rest, path = part :: rest ∧ d.HasLocal name rest) ∨
      FunctionDecl.ListHasLocal name (part + 1) path ds

end

/-- A way that begins with a part goes on inside it. -/
theorem Path.inside {P : Path → Prop} {i : Nat} {path : Path}
    (h : ∃ rest, i :: path = i :: rest ∧ P rest) : P path := by
  obtain ⟨rest, hpath, hP⟩ := h
  cases hpath
  exact hP

/-- A way that begins with another part does not go there. -/
theorem Path.beside {P : Path → Prop} {i j : Nat} {path : Path} (hne : i ≠ j) :
    ¬∃ rest, i :: path = j :: rest ∧ P rest := by
  rintro ⟨rest, hpath, _⟩
  cases hpath
  exact hne rfl

/-- The way into a list begins with one of its parts. -/
theorem Stmt.ListHasLocal.part {name : String} {part : Nat} {path : Path} {ss : List Stmt}
    (h : Stmt.ListHasLocal name part path ss) : ∃ i rest, path = i :: rest ∧ part ≤ i := by
  induction ss generalizing part with
  | nil => exact h.elim
  | cons s ss ih =>
    rcases h with ⟨rest, rfl, _⟩ | h
    · exact ⟨part, rest, rfl, Nat.le_refl _⟩
    · obtain ⟨i, rest, rfl, hi⟩ := ih h
      exact ⟨i, rest, rfl, Nat.le_of_succ_le hi⟩

theorem FunctionDecl.ListHasLocal.part {name : String} {part : Nat} {path : Path}
    {ds : List FunctionDecl} (h : FunctionDecl.ListHasLocal name part path ds) :
    ∃ i rest, path = i :: rest ∧ part ≤ i := by
  induction ds generalizing part with
  | nil => exact h.elim
  | cons d ds ih =>
    rcases h with ⟨rest, rfl, _⟩ | h
    · exact ⟨part, rest, rfl, Nat.le_refl _⟩
    · obtain ⟨i, rest, rfl, hi⟩ := ih h
      exact ⟨i, rest, rfl, Nat.le_of_succ_le hi⟩

/-- The way into a list begins with none of the parts in front of it. -/
theorem Stmt.ListHasLocal.not_before {name : String} {part : Nat} {path : Path} {ss : List Stmt} :
    ¬Stmt.ListHasLocal name (part + 1) (part :: path) ss := by
  intro h
  obtain ⟨_, _, hpath, hle⟩ := h.part
  cases hpath
  exact Nat.not_succ_le_self part hle

theorem FunctionDecl.ListHasLocal.not_before {name : String} {part : Nat} {path : Path}
    {ds : List FunctionDecl} : ¬FunctionDecl.ListHasLocal name (part + 1) (part :: path) ds := by
  intro h
  obtain ⟨_, _, hpath, hle⟩ := h.part
  cases hpath
  exact Nat.not_succ_le_self part hle

theorem Stmt.Declares.ordinary {name : String} {body : List Stmt} (h : Stmt.Declares name body)
    (hbody : Stmt.ListProper body) : Lexeme.Ordinary ⟨name, 0⟩ := by
  obtain ⟨declared, initializer, hmem, rfl⟩ := h
  induction body with
  | nil => cases hmem
  | cons s ss ih =>
    rcases List.mem_cons.mp hmem with rfl | hmem
    · exact hbody.1.1
    · exact ih hbody.2 hmem

mutual

/-- Locals have ordinary names. -/
theorem Stmt.HasLocal.ordinary {name : String} (s : Stmt) {path : Path} (h : s.HasLocal name path)
    (hs : s.Proper) : Lexeme.Ordinary ⟨name, 0⟩ := by
  match s with
  | .block body =>
    rcases h with ⟨_, h⟩ | h
    · exact h.ordinary hs
    · exact Stmt.ListHasLocal.ordinary body h hs
  | .ifElse _ yes none =>
    obtain ⟨_, _, h⟩ := h
    exact Stmt.HasLocal.ordinary yes h hs.2.1
  | .ifElse _ yes (some no) =>
    rcases h with ⟨_, _, h⟩ | ⟨_, _, h⟩
    · exact Stmt.HasLocal.ordinary yes h hs.2.1
    · exact Stmt.HasLocal.ordinary no h hs.2.2.2.1
  | .while _ body =>
    obtain ⟨_, _, h⟩ := h
    exact Stmt.HasLocal.ordinary body h hs.2.1
  | .function decl => exact FunctionDecl.HasLocal.ordinary decl h hs.2
  | .class _ _ methods => exact FunctionDecl.ListHasLocal.ordinary methods h hs.2
  | .expression _ | .print _ | .var _ _ | .break _ | .return _ _ => exact h.elim

theorem Stmt.ListHasLocal.ordinary {name : String} (ss : List Stmt) {part : Nat} {path : Path}
    (h : Stmt.ListHasLocal name part path ss) (hss : Stmt.ListProper ss) :
    Lexeme.Ordinary ⟨name, 0⟩ := by
  match ss with
  | [] => exact h.elim
  | s :: ss =>
    rcases h with ⟨_, _, h⟩ | h
    · exact Stmt.HasLocal.ordinary s h hss.1
    · exact Stmt.ListHasLocal.ordinary ss h hss.2

theorem FunctionDecl.HasLocal.ordinary {name : String} (d : FunctionDecl) {path : Path}
    (h : d.HasLocal name path) (hd : d.Proper) : Lexeme.Ordinary ⟨name, 0⟩ := by
  match d with
  | ⟨_, parameters, body⟩ =>
    rcases h with ⟨_, ⟨p, hp, rfl⟩ | h⟩ | h
    · exact hd.1 p hp
    · exact h.ordinary hd.2
    · exact Stmt.ListHasLocal.ordinary body h hd.2

theorem FunctionDecl.ListHasLocal.ordinary {name : String} (ds : List FunctionDecl) {part : Nat}
    {path : Path} (h : FunctionDecl.ListHasLocal name part path ds)
    (hds : FunctionDecl.ListProper ds) : Lexeme.Ordinary ⟨name, 0⟩ := by
  match ds with
  | [] => exact h.elim
  | d :: ds =>
    rcases h with ⟨_, _, h⟩ | h
    · exact FunctionDecl.HasLocal.ordinary d h hds.1
    · exact FunctionDecl.ListHasLocal.ordinary ds h hds.2

end

/-! ## Names that are avoided -/

mutual

/-- The name is that of no variable, function or class, and of no use. -/
def Stmt.Avoids (name : String) : Stmt → Prop
  | .expression value => value.Avoids name
  | .print value => value.Avoids name
  | .var declared initializer => declared.text ≠ name ∧ Expr.OptionAvoids name initializer
  | .block body => Stmt.ListAvoids name body
  | .ifElse condition yes none => condition.Avoids name ∧ yes.Avoids name
  | .ifElse condition yes (some no) =>
    condition.Avoids name ∧ yes.Avoids name ∧ no.Avoids name
  | .while condition body => condition.Avoids name ∧ body.Avoids name
  | .break _ => True
  | .function decl => decl.name.text ≠ name ∧ decl.Avoids name
  | .return _ value => Expr.OptionAvoids name value
  | .class declared superclass methods =>
    declared.text ≠ name ∧ (∀ parent ∈ superclass, parent.name.text ≠ name) ∧
      FunctionDecl.ListAvoids name methods

def Stmt.ListAvoids (name : String) : List Stmt → Prop
  | [] => True
  | s :: ss => s.Avoids name ∧ Stmt.ListAvoids name ss

def FunctionDecl.Avoids (name : String) : FunctionDecl → Prop
  | ⟨_, parameters, body⟩ => (∀ p ∈ parameters, p.text ≠ name) ∧ Stmt.ListAvoids name body

def FunctionDecl.ListAvoids (name : String) : List FunctionDecl → Prop
  | [] => True
  | d :: ds => d.Avoids name ∧ FunctionDecl.ListAvoids name ds

end

section

variable {name : String} {ts : List Token}

theorem Expr.Avoids.of_nil {e : Expr} (h : e.uses = []) : e.Avoids name := by
  rw [Expr.Avoids, h]
  exact nofun

theorem Expr.Avoids.of_append {e a b : Expr} (h : e.uses = a.uses ++ b.uses) (ha : a.Avoids name)
    (hb : b.Avoids name) : e.Avoids name := by
  rw [Expr.Avoids, h]
  exact List.forall_mem_append.mpr ⟨ha, hb⟩

def ExprPhrase.Avoids (name : String) : ExprPhrase → Prop
  | .expr _ e => e.Avoids name
  | .arguments es => ∀ use ∈ Expr.listUses es, use.occurrence.name.text ≠ name

theorem Between.avoids {rule : Rule} {kind : TokenKind} {node : Lexeme → Expr → Expr → Expr}
    (h : Between rule kind node) (sign : Lexeme) {left right : Expr} (hleft : left.Avoids name)
    (hright : right.Avoids name) : (node sign left right).Avoids name := by
  cases h <;> exact .of_append rfl hleft hright

/-- A word that does not stand in a text is not the name of a use in its tree. -/
theorem ExprPhrase.Derives.avoids {phrase : ExprPhrase} (h : phrase.Derives ts)
    (hts : ∀ t ∈ ts, t.lexeme ≠ name) : phrase.Avoids name := by
  induction h with
  | operand _ ih => exact ih hts
  | assignName _ _ _ ih =>
    simp only [List.forall_mem_cons] at hts
    exact List.forall_mem_cons.mpr ⟨hts.1, ih hts.2.2⟩
  | assignProperty _ _ _ _ _ ihobject ihvalue =>
    simp only [List.forall_mem_append, List.forall_mem_cons] at hts
    exact .of_append rfl (ihobject hts.1) (ihvalue hts.2.2.2.2)
  | between hnode _ _ ihleft ihright =>
    simp only [List.forall_mem_append, List.forall_mem_cons] at hts
    exact hnode.avoids _ (ihleft hts.1) (ihright hts.2.2)
  | inFront _ _ ih =>
    simp only [List.forall_mem_cons] at hts
    exact ih hts.2
  | callEmpty _ _ _ ih =>
    simp only [List.forall_mem_append] at hts
    exact List.forall_mem_append.mpr ⟨ih hts.1, nofun⟩
  | call _ _ _ _ ihcallee iharguments =>
    simp only [List.forall_mem_append, List.forall_mem_cons] at hts
    exact List.forall_mem_append.mpr ⟨ihcallee hts.1, iharguments hts.2.2.1⟩
  | property _ _ _ ih =>
    simp only [List.forall_mem_append] at hts
    exact ih hts.1
  | constant _ => exact .of_nil rfl
  | name _ => exact List.forall_mem_singleton.mpr (hts _ List.mem_cons_self)
  | this _ => exact List.forall_mem_singleton.mpr (hts _ List.mem_cons_self)
  | super _ _ _ => exact List.forall_mem_singleton.mpr (hts _ List.mem_cons_self)
  | grouping _ _ _ ih =>
    simp only [List.forall_mem_append, List.forall_mem_cons] at hts
    exact ih hts.2.1
  | lastArgument _ ih => exact List.forall_mem_append.mpr ⟨ih hts, nofun⟩
  | argument _ _ _ ihe ihes =>
    simp only [List.forall_mem_append, List.forall_mem_cons] at hts
    exact List.forall_mem_append.mpr ⟨ihe hts.1, ihes hts.2.2⟩

theorem Optional.avoids {e : Option Expr} (h : Optional e ts) (hts : ∀ t ∈ ts, t.lexeme ≠ name) :
    Expr.OptionAvoids name e := by
  cases h with
  | none => trivial
  | some he => exact he.avoids hts

theorem Initializer.avoids {e : Option Expr} (h : Initializer e ts)
    (hts : ∀ t ∈ ts, t.lexeme ≠ name) : Expr.OptionAvoids name e := by
  cases h with
  | none => trivial
  | some _ he => exact he.avoids fun t ht => hts t (List.mem_cons_of_mem _ ht)

theorem Variable.avoids {s : Stmt} (h : Variable s ts) (hts : ∀ t ∈ ts, t.lexeme ≠ name) :
    s.Avoids name := by
  cases h with
  | mk _ hinitializer _ =>
    simp only [List.forall_mem_append, List.forall_mem_cons] at hts
    exact ⟨hts.1, hinitializer.avoids hts.2.1⟩

theorem First.avoids {first : Option Stmt} (h : First first ts) (hts : ∀ t ∈ ts, t.lexeme ≠ name) :
    ∀ s, first = some s → s.Avoids name := by
  rintro s rfl
  cases h with
  | var _ hvariable => exact hvariable.avoids fun t ht => hts t (List.mem_cons_of_mem _ ht)
  | expression he _ => exact he.avoids fun t ht => hts t (List.mem_append_left _ ht)

theorem Parameters.avoids {names : List Lexeme} (h : Parameters names ts)
    (hts : ∀ t ∈ ts, t.lexeme ≠ name) : ∀ p ∈ names, p.text ≠ name := by
  induction h with
  | last _ => exact List.forall_mem_singleton.mpr (hts _ List.mem_cons_self)
  | more _ _ _ ih =>
    simp only [List.forall_mem_cons] at hts
    exact List.forall_mem_cons.mpr ⟨hts.1, ih hts.2.2⟩

theorem SuperclassClause.avoids {parent : Option Occurrence} (h : SuperclassClause parent ts)
    (hts : ∀ t ∈ ts, t.lexeme ≠ name) : ∀ use ∈ parent, use.name.text ≠ name := by
  cases h with
  | none => nofun
  | some _ _ =>
    rintro _ ⟨⟩
    exact hts _ (List.mem_cons_of_mem _ List.mem_cons_self)

theorem Parser.avoids_forTree {first : Option Stmt} {condition increment : Option Expr}
    {body : Stmt} (hfirst : ∀ s, first = some s → s.Avoids name)
    (hcondition : Expr.OptionAvoids name condition) (hincrement : Expr.OptionAvoids name increment)
    (hbody : body.Avoids name) : (Parser.forTree first condition increment body).Avoids name := by
  have hasked : (condition.getD (.literal (.bool true))).Avoids name := by
    cases condition with
    | none => exact .of_nil rfl
    | some e => exact hcondition
  have hloop : (Parser.forTree none condition increment body).Avoids name := by
    cases increment with
    | none => exact ⟨hasked, hbody⟩
    | some e => exact ⟨hasked, hbody, hincrement, trivial⟩
  cases first with
  | none => exact hloop
  | some s => exact ⟨hfirst s rfl, hloop, trivial⟩

def StmtPhrase.Avoids (name : String) : StmtPhrase → Prop
  | .declarations ss => Stmt.ListAvoids name ss
  | .declaration s => s.Avoids name
  | .statement _ s => s.Avoids name
  | .function decl => decl.name.text ≠ name ∧ decl.Avoids name
  | .methods decls => FunctionDecl.ListAvoids name decls

/-- A word that does not stand in a text is not a name in its tree. -/
theorem StmtPhrase.Derives.avoids {phrase : StmtPhrase} (h : phrase.Derives ts)
    (hts : ∀ t ∈ ts, t.lexeme ≠ name) : phrase.Avoids name := by
  induction h with
  | noDeclarations => trivial
  | declarations _ _ ihs ihss =>
    simp only [List.forall_mem_append] at hts
    exact ⟨ihs hts.1, ihss hts.2⟩
  | «class» _ _ hparent _ _ _ ih =>
    simp only [List.forall_mem_append, List.forall_mem_cons] at hts
    exact ⟨hts.2.1, hparent.avoids hts.2.2.1, ih hts.2.2.2.2.1⟩
  | function _ _ ih => exact ih fun t ht => hts t (List.mem_cons_of_mem _ ht)
  | var _ hvariable => exact hvariable.avoids fun t ht => hts t (List.mem_cons_of_mem _ ht)
  | statement _ ih => exact ih hts
  | noMethods => trivial
  | methods _ _ ihd ihds =>
    simp only [List.forall_mem_append] at hts
    exact ⟨(ihd hts.1).2, ihds hts.2⟩
  | callable _ _ hnames _ _ _ _ ih =>
    simp only [List.forall_mem_append, List.forall_mem_cons] at hts
    refine ⟨hts.1, ?_, ih hts.2.2.2.2.2.1⟩
    rcases hnames with ⟨rfl, _⟩ | hparameters
    · nofun
    · exact hparameters.avoids hts.2.2.1
  | «break» _ _ => trivial
  | «for» _ _ hfirst hcondition _ hincrement _ _ ih =>
    simp only [List.forall_mem_append, List.forall_mem_cons] at hts
    obtain ⟨_, _, hfs, hcs, _, his, _, hbs⟩ := hts
    exact Parser.avoids_forTree (hfirst.avoids hfs) (hcondition.avoids hcs) (hincrement.avoids his)
      (ih hbs)
  | «if» _ _ hcondition _ _ ih =>
    simp only [List.forall_mem_append, List.forall_mem_cons] at hts
    exact ⟨hcondition.avoids hts.2.2.1, ih hts.2.2.2.2⟩
  | ifElse _ _ hcondition _ _ _ _ ihyes ihno =>
    simp only [List.forall_mem_append, List.forall_mem_cons] at hts
    obtain ⟨_, _, hcs, _, hys, _, hns⟩ := hts
    exact ⟨hcondition.avoids hcs, ihyes hys, ihno hns⟩
  | print _ he _ =>
    simp only [List.forall_mem_append, List.forall_mem_cons] at hts
    exact he.avoids hts.2.1
  | «return» _ he _ =>
    simp only [List.forall_mem_append, List.forall_mem_cons] at hts
    exact he.avoids hts.2.1
  | «while» _ _ hcondition _ _ ih =>
    simp only [List.forall_mem_append, List.forall_mem_cons] at hts
    exact ⟨hcondition.avoids hts.2.2.1, ih hts.2.2.2.2⟩
  | block _ _ _ ih =>
    simp only [List.forall_mem_append, List.forall_mem_cons] at hts
    exact ih hts.2.1
  | expression he _ =>
    simp only [List.forall_mem_append] at hts
    exact he.avoids hts.1

end

/-! ## Names of one scope -/

/-- The name of a function or a class that a statement declares. -/
def Stmt.callable? : Stmt → Option Lexeme
  | .function decl => some decl.name
  | .class name _ _ => some name
  | _ => none

theorem Stmt.declared?_of_callable? {s : Stmt} {name : Lexeme} (h : s.callable? = some name) :
    s.declared? = some name := by
  cases s with
  | function decl => exact h
  | «class» declared superclass methods => exact h
  | _ => cases h

theorem Stmt.Plain.callable? {s : Stmt} (h : s.Plain) : s.callable? = none := by
  cases s with
  | function decl => exact h.elim
  | «class» declared superclass methods => exact h.elim
  | _ => rfl

variable {T : Table} {n : Nat} {scope : Scope} {outer : List Scope} {name : String}

theorem Stmt.Scoped.declarable {s : Stmt} {scopes : List Scope} (h : s.Scoped T n scopes)
    {declared : Lexeme} (hdeclared : s.declared? = some declared) : declared.Declarable scopes := by
  match s with
  | .var _ _ =>
    cases hdeclared
    exact h.1
  | .function _ =>
    cases hdeclared
    exact h.1
  | .class _ none _ =>
    cases hdeclared
    exact h.1
  | .class _ (some _) _ =>
    cases hdeclared
    exact h.1

/-- Behind a statement its scope has the name that it declares, and the names it had. -/
theorem Stmt.after_cons (s : Stmt) (scope : Scope) (outer : List Scope) :
    ∃ scope', s.after (scope :: outer) = scope' :: outer ∧
      (∀ name, scope.contains name = true → scope'.contains name = true) ∧
      ∀ declared, s.declared? = some declared → scope'.contains declared.text = true := by
  have marked (declared : Lexeme) : ∀ name, scope.contains name = true →
      (scope.insert declared.text true).contains name = true := by
    intro name hname
    by_cases hsame : name = declared.text
    · rw [hsame]
      exact scope.contains_insert_self _ _
    · rw [scope.contains_insert_of_ne hsame]
      exact hname
  match s with
  | .var declared _ =>
    refine ⟨_, rfl, marked declared, ?_⟩
    rintro _ ⟨⟩
    exact scope.contains_insert_self _ _
  | .function decl =>
    refine ⟨_, rfl, marked decl.name, ?_⟩
    rintro _ ⟨⟩
    exact scope.contains_insert_self _ _
  | .class declared _ _ =>
    refine ⟨_, rfl, marked declared, ?_⟩
    rintro _ ⟨⟩
    exact scope.contains_insert_self _ _
  | .expression _ | .print _ | .block _ | .ifElse _ _ _ | .while _ _ | .break _ | .return _ _ =>
    exact ⟨scope, rfl, fun _ h => h, nofun⟩

/-- A name that a scope has is not declared in it again. -/
theorem Stmt.ListScoped.not_again {ss : List Stmt} (h : Stmt.ListScoped T n (scope :: outer) ss)
    (hname : scope.contains name = true) :
    ∀ s ∈ ss, ∀ declared, s.declared? = some declared → declared.text ≠ name := by
  induction ss generalizing scope with
  | nil => exact nofun
  | cons s ss ih =>
    obtain ⟨hs, hss⟩ := h
    obtain ⟨scope', hafter, hkept, _⟩ := s.after_cons scope outer
    rw [hafter] at hss
    refine List.forall_mem_cons.mpr ⟨fun declared hdeclared heq => ?_, ih hss (hkept name hname)⟩
    have hlacks := (hs.declarable hdeclared).fresh scope rfl
    rw [heq, hname] at hlacks
    cases hlacks

/-- No function and no class has the name of a variable of its scope. -/
theorem Stmt.ListScoped.callable_ne {ss : List Stmt} (h : Stmt.ListScoped T n (scope :: outer) ss)
    (hname : scope.contains name = true ∨ Stmt.Declares name ss) :
    ∀ s ∈ ss, ∀ callable, s.callable? = some callable → callable.text ≠ name := by
  induction ss generalizing scope with
  | nil => exact nofun
  | cons s ss ih =>
    rcases hname with hname | ⟨declared, initializer, hmem, rfl⟩
    · exact fun t ht callable hcallable =>
        h.not_again hname t ht callable (Stmt.declared?_of_callable? hcallable)
    obtain ⟨hs, hss⟩ := h
    obtain ⟨scope', hafter, _, hnow⟩ := s.after_cons scope outer
    rw [hafter] at hss
    rcases List.mem_cons.mp hmem with rfl | hmem
    · exact List.forall_mem_cons.mpr ⟨nofun, ih hss (.inl (hnow _ rfl))⟩
    · refine List.forall_mem_cons.mpr
        ⟨fun callable hcallable heq => ?_, ih hss (.inr ⟨_, _, hmem, rfl⟩)⟩
      have hhas := hnow callable (Stmt.declared?_of_callable? hcallable)
      exact hss.not_again hhas _ hmem _ rfl heq.symm

theorem Scope.contains_ofParameters {parameters : List Lexeme} {p : Lexeme} (hp : p ∈ parameters) :
    (Scope.ofParameters parameters).contains p.text = true := by
  suffices hfold : ∀ scope : Scope, p ∈ parameters ∨ scope.contains p.text = true →
      (parameters.foldl (fun scope p => scope.insert p.text true) scope).contains p.text = true from
    hfold .empty (.inl hp)
  clear hp
  induction parameters with
  | nil => exact fun scope h => h.resolve_left List.not_mem_nil
  | cons q qs ih =>
    intro scope h
    apply ih
    by_cases hsame : p.text = q.text
    · rw [hsame]
      exact .inr (scope.contains_insert_self _ _)
    · rw [scope.contains_insert_of_ne hsame]
      rcases h with hmem | hhas
      · rcases List.mem_cons.mp hmem with rfl | hmem
        · exact absurd rfl hsame
        · exact .inl hmem
      · exact .inr hhas

/-! ## Locals can be renamed -/

section

variable {r : Renaming}

mutual

/-- The locals of the chosen scopes can be renamed, where these have the old name. -/
theorem Stmt.renamable (s : Stmt) {scopes : List Scope} {chosen : Path → Bool} {here : Bool}
    (hs : s.Scoped T n scopes) (hnew : s.Avoids r.new)
    (hlocal : ∀ path, chosen path = true → s.HasLocal r.old path)
    (hkept : here = true → ∀ name, s.callable? = some name → name.text ≠ r.old) :
    s.Renamable r chosen here := by
  match s with
  | .expression value => exact hnew
  | .print value => exact hnew
  | .var name initializer => exact hnew
  | .block body =>
    refine Stmt.listRenamable body hs hnew (fun part rest _ hchosen => ?_) fun hhere => ?_
    · exact (hlocal _ hchosen).resolve_left nofun
    · refine Stmt.ListScoped.callable_ne hs (.inr ?_)
      rcases hlocal [] hhere with h | h
      · exact h.2
      · obtain ⟨_, _, hpath, _⟩ := h.part
        cases hpath
  | .ifElse condition yes none =>
    refine ⟨hnew.1, Stmt.renamable yes hs.2.1 hnew.2
      (fun path hchosen => Path.inside (hlocal _ hchosen)) fun _ => ?_⟩
    rw [hs.2.2.callable?]
    exact nofun
  | .ifElse condition yes (some no) =>
    obtain ⟨_, hyes, hplain, hno, hplain'⟩ := hs
    refine ⟨hnew.1, Stmt.renamable yes hyes hnew.2.1 (fun path hchosen => ?_) fun _ => ?_,
      Stmt.renamable no hno hnew.2.2 (fun path hchosen => ?_) fun _ => ?_⟩
    · exact Path.inside ((hlocal _ hchosen).resolve_right (Path.beside Nat.zero_ne_one))
    · rw [hplain.callable?]
      exact nofun
    · exact Path.inside ((hlocal _ hchosen).resolve_left (Path.beside Nat.one_ne_zero))
    · rw [hplain'.callable?]
      exact nofun
  | .while condition body =>
    refine ⟨hnew.1, Stmt.renamable body hs.2.1 hnew.2
      (fun path hchosen => Path.inside (hlocal _ hchosen)) fun _ => ?_⟩
    rw [hs.2.2.callable?]
    exact nofun
  | .break keyword => trivial
  | .function decl =>
    exact ⟨⟨hnew.1, fun hhere => hkept hhere _ rfl⟩,
      FunctionDecl.renamable decl hs.2 hnew.2 hlocal⟩
  | .return keyword value => exact hnew
  | .class name none methods =>
    exact ⟨⟨hnew.1, fun hhere => hkept hhere _ rfl⟩, hnew.2.1,
      FunctionDecl.listRenamable methods hs.2 hnew.2.2 fun _ _ _ => hlocal _⟩
  | .class name (some parent) methods =>
    exact ⟨⟨hnew.1, fun hhere => hkept hhere _ rfl⟩, hnew.2.1,
      FunctionDecl.listRenamable methods hs.2.2 hnew.2.2 fun _ _ _ => hlocal _⟩

theorem Stmt.listRenamable (ss : List Stmt) {scopes : List Scope} {chosen : Path → Bool}
    {part : Nat} {here : Bool} (hss : Stmt.ListScoped T n scopes ss)
    (hnew : Stmt.ListAvoids r.new ss)
    (hlocal : ∀ i rest, part ≤ i → chosen (i :: rest) = true →
      Stmt.ListHasLocal r.old part (i :: rest) ss)
    (hkept : here = true → ∀ s ∈ ss, ∀ name, s.callable? = some name → name.text ≠ r.old) :
    Stmt.ListRenamable r chosen part here ss := by
  match ss with
  | [] => trivial
  | s :: ss =>
    refine ⟨Stmt.renamable s hss.1 hnew.1 (fun path hchosen => ?_)
      fun hhere => hkept hhere s List.mem_cons_self,
      Stmt.listRenamable ss hss.2 hnew.2 (fun i rest hi hchosen => ?_)
        fun hhere t ht => hkept hhere t (List.mem_cons_of_mem _ ht)⟩
    · have hhead := hlocal part path (Nat.le_refl _) hchosen
      exact Path.inside (hhead.resolve_right Stmt.ListHasLocal.not_before)
    · have htail := hlocal i rest (Nat.le_of_succ_le hi) hchosen
      exact htail.resolve_left (Path.beside (Nat.ne_of_gt hi))

theorem FunctionDecl.renamable (d : FunctionDecl) {scopes : List Scope} {chosen : Path → Bool}
    (hd : d.Scoped T n scopes) (hnew : d.Avoids r.new)
    (hlocal : ∀ path, chosen path = true → d.HasLocal r.old path) : d.Renamable r chosen := by
  match d with
  | ⟨name, parameters, body⟩ =>
    refine ⟨hnew.1, Stmt.listRenamable body hd.2 hnew.2 (fun part rest _ hchosen => ?_)
      fun hhere => Stmt.ListScoped.callable_ne hd.2 ?_⟩
    · exact (hlocal _ hchosen).resolve_left nofun
    · rcases hlocal [] hhere with ⟨_, ⟨p, hp, hname⟩ | h⟩ | h
      · exact .inl (hname ▸ Scope.contains_ofParameters hp)
      · exact .inr h
      · obtain ⟨_, _, hpath, _⟩ := h.part
        cases hpath

theorem FunctionDecl.listRenamable (ds : List FunctionDecl) {scopes : List Scope}
    {chosen : Path → Bool} {part : Nat} (hds : FunctionDecl.ListScoped T n scopes ds)
    (hnew : FunctionDecl.ListAvoids r.new ds)
    (hlocal : ∀ i rest, part ≤ i → chosen (i :: rest) = true →
      FunctionDecl.ListHasLocal r.old part (i :: rest) ds) :
    FunctionDecl.ListRenamable r chosen part ds := by
  match ds with
  | [] => trivial
  | d :: ds =>
    refine ⟨FunctionDecl.renamable d hds.1 hnew.1 fun path hchosen => ?_,
      FunctionDecl.listRenamable ds hds.2 hnew.2 fun i rest hi hchosen => ?_⟩
    · have hhead := hlocal part path (Nat.le_refl _) hchosen
      exact Path.inside (hhead.resolve_right FunctionDecl.ListHasLocal.not_before)
    · have htail := hlocal i rest (Nat.le_of_succ_le hi) hchosen
      exact htail.resolve_left (Path.beside (Nat.ne_of_gt hi))

end

/-! ## Renamed trees differ in names only -/

/-- A name, or the new one in place of the old one. -/
def Renaming.Respells (r : Renaming) (a b : String) : Prop := b = a ∨ a = r.old ∧ b = r.new

variable (r)

theorem Renaming.declared_alike (chosen : Bool) (name : Lexeme) :
    name.Alike r.Respells (r.declared chosen name) := by
  refine ⟨?_, rfl⟩
  show r.Respells name.text (r.spell chosen name.text)
  unfold Renaming.spell
  split
  · next h => exact .inr ⟨h.2, rfl⟩
  · exact .inl rfl

theorem Renaming.occurrence_alike (flags : List Bool) (use : Occurrence) :
    use.Alike r.Respells (r.occurrence flags use) :=
  ⟨r.declared_alike _ use.name, rfl⟩

theorem Renaming.alike_refl (name : Lexeme) : name.Alike r.Respells name := ⟨.inl rfl, rfl⟩

mutual

theorem Expr.rename_alike (flags : List Bool) (e : Expr) :
    e.Alike r.Respells (e.rename r flags) := by
  cases e with
  | literal value => exact .literal
  | grouping inner => exact .grouping (Expr.rename_alike flags inner)
  | unary op sign operand => exact .unary (Expr.rename_alike flags operand)
  | binary op sign left right =>
    exact .binary (Expr.rename_alike flags left) (Expr.rename_alike flags right)
  | logical op sign left right =>
    exact .logical (Expr.rename_alike flags left) (Expr.rename_alike flags right)
  | name use => exact .name (r.occurrence_alike flags use)
  | assign target value =>
    exact .assign (r.occurrence_alike flags target) (Expr.rename_alike flags value)
  | call callee paren arguments =>
    exact .call (Expr.rename_alike flags callee) (Expr.listRename_alike flags arguments)
  | get object property => exact .get (Expr.rename_alike flags object) (r.alike_refl property)
  | set object property value =>
    exact .set (Expr.rename_alike flags object) (r.alike_refl property)
      (Expr.rename_alike flags value)
  | this keyword => exact .this
  | super keyword method => exact .super (r.alike_refl method)

theorem Expr.listRename_alike (flags : List Bool) (es : List Expr) :
    Expr.ListAlike r.Respells es (Expr.listRename r flags es) := by
  cases es with
  | nil => exact .nil
  | cons e es => exact .cons (Expr.rename_alike flags e) (Expr.listRename_alike flags es)

end

theorem Expr.optionRename_alike (flags : List Bool) (e : Option Expr) :
    Option.Rel (Expr.Alike r.Respells) e (e.map (Expr.rename r flags)) := by
  cases e with
  | none => exact .none
  | some e => exact .some (Expr.rename_alike r flags e)

mutual

theorem Stmt.rename_alike (chosen : Path → Bool) (flags : List Bool) (s : Stmt) :
    s.Alike r.Respells (s.rename r chosen flags) := by
  match s with
  | .expression value => exact .expression (Expr.rename_alike r flags value)
  | .print value => exact .print (Expr.rename_alike r flags value)
  | .var name initializer =>
    exact .var (r.declared_alike _ name) (Expr.optionRename_alike r flags initializer)
  | .block body => exact .block (Stmt.listRename_alike chosen 0 _ body)
  | .ifElse condition yes none =>
    exact .ifThen (Expr.rename_alike r flags condition) (Stmt.rename_alike _ flags yes)
  | .ifElse condition yes (some no) =>
    exact .ifElse (Expr.rename_alike r flags condition) (Stmt.rename_alike _ flags yes)
      (Stmt.rename_alike _ flags no)
  | .while condition body =>
    exact .while (Expr.rename_alike r flags condition) (Stmt.rename_alike _ flags body)
  | .break keyword => exact .break
  | .function decl => exact .function (FunctionDecl.rename_alike chosen flags decl)
  | .return keyword value => exact .return (Expr.optionRename_alike r flags value)
  | .class name none methods =>
    exact .class (r.alike_refl name) .none (FunctionDecl.listRename_alike chosen 0 _ methods)
  | .class name (some parent) methods =>
    exact .class (r.alike_refl name) (.some (r.occurrence_alike flags parent))
      (FunctionDecl.listRename_alike chosen 0 _ methods)

theorem Stmt.listRename_alike (chosen : Path → Bool) (part : Nat) (flags : List Bool)
    (ss : List Stmt) : Stmt.ListAlike r.Respells ss (Stmt.listRename r chosen part flags ss) := by
  match ss with
  | [] => exact .nil
  | s :: ss =>
    exact .cons (Stmt.rename_alike _ flags s) (Stmt.listRename_alike chosen (part + 1) flags ss)

theorem FunctionDecl.rename_alike (chosen : Path → Bool) (flags : List Bool) (d : FunctionDecl) :
    Stmt.DeclAlike r.Respells d (d.rename r chosen flags) := by
  match d with
  | ⟨name, parameters, body⟩ =>
    refine .mk (r.alike_refl name) ?_ (Stmt.listRename_alike chosen 0 _ body)
    rw [List.forall₂_map_right_iff]
    exact List.forall₂_same.mpr fun p _ => r.declared_alike (chosen []) p

theorem FunctionDecl.listRename_alike (chosen : Path → Bool) (part : Nat) (flags : List Bool)
    (ds : List FunctionDecl) :
    Stmt.DeclsAlike r.Respells ds (FunctionDecl.listRename r chosen part flags ds) := by
  match ds with
  | [] => exact .nil
  | d :: ds =>
    exact .cons (FunctionDecl.rename_alike _ flags d)
      (FunctionDecl.listRename_alike chosen (part + 1) flags ds)

end

end

end Lox
