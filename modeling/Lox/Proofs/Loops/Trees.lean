/-
  Lox.Proofs.Loops.Trees

  Trees that two tables place alike, along ways outward that need not lead through the
  same number of scopes.

    * `Expr.Placed`, `Stmt.Placed` — for every occurrence the first table has the number of
      the tree, and the second one its new number, at distances where the same scope
      stands; names are declared only where both ways begin in the same scope;
    * `Stmt.Scoped.placed` — trees that are scoped along both ways are placed alike.
-/
import Lox.Proofs.Loops.Links
import Lox.Proofs.Relabelling.Trees
import Lox.Proofs.Scoping.Static

namespace Lox

@[simp] theorem Lexeme.relabel_numbers (id : Nat → Nat) (name : Lexeme) :
    name.relabel (.numbers id) = name := rfl

@[simp] theorem Occurrence.relabel_numbers (id : Nat → Nat) (use : Occurrence) :
    use.relabel (.numbers id) = ⟨id use.id, use.name⟩ := rfl

/-! ## Trees placed alike -/

section

variable (T T' : Table) (ν : Nat → Nat)

/-- Both tables have nothing for the occurrence, or distances where the same scope
    stands. -/
def Occurrence.Placed (links : List Link) (use : Occurrence) : Prop :=
  T[use.id]? = none ∧ T'[ν use.id]? = none ∨
    ∃ d d', T[use.id]? = some d ∧ T'[ν use.id]? = some d' ∧ Link.Joins links d d'

/-- For `super` the scope just inside is the same as well: it is that of the instance. -/
def Use.Placed (links : List Link) : Use → Prop
  | ⟨.super, use⟩ => ∃ d d', T[use.id]? = some (d + 1) ∧ T'[ν use.id]? = some (d' + 1) ∧
    Link.Joins links d d' ∧ Link.Joins links (d + 1) (d' + 1)
  | ⟨.read, use⟩ => use.Placed T T' ν links
  | ⟨.assign, use⟩ => use.Placed T T' ν links
  | ⟨.this, use⟩ => use.Placed T T' ν links

def Expr.Placed (links : List Link) (e : Expr) : Prop := ∀ use ∈ e.uses, use.Placed T T' ν links

def Expr.ListPlaced (links : List Link) (es : List Expr) : Prop :=
  ∀ use ∈ Expr.listUses es, use.Placed T T' ν links

def Expr.OptionPlaced (links : List Link) (e : Option Expr) : Prop :=
  ∀ use ∈ Expr.optionUses e, use.Placed T T' ν links

mutual

def Stmt.Placed (links : List Link) : Stmt → Prop
  | .expression value => value.Placed T T' ν links
  | .print value => value.Placed T T' ν links
  | .var _ initializer => Link.Shared links ∧ Expr.OptionPlaced T T' ν links initializer
  | .block body => Stmt.ListPlaced (.both :: links) body
  | .ifElse condition yes none => condition.Placed T T' ν links ∧ yes.Placed links
  | .ifElse condition yes (some no) =>
    condition.Placed T T' ν links ∧ yes.Placed links ∧ no.Placed links
  | .while condition body => condition.Placed T T' ν links ∧ body.Placed links
  | .break _ => True
  | .function decl => Link.Shared links ∧ decl.Placed links
  | .return _ value => Expr.OptionPlaced T T' ν links value
  | .class _ none methods => Link.Shared links ∧ FunctionDecl.ListPlaced (.both :: links) methods
  | .class _ (some parent) methods =>
    Link.Shared links ∧ parent.Placed T T' ν links ∧
      FunctionDecl.ListPlaced (.both :: .both :: links) methods

def Stmt.ListPlaced (links : List Link) : List Stmt → Prop
  | [] => True
  | s :: ss => s.Placed links ∧ Stmt.ListPlaced links ss

def FunctionDecl.Placed (links : List Link) : FunctionDecl → Prop
  | ⟨_, _, body⟩ => Stmt.ListPlaced (.both :: links) body

def FunctionDecl.ListPlaced (links : List Link) : List FunctionDecl → Prop
  | [] => True
  | d :: ds => d.Placed links ∧ FunctionDecl.ListPlaced links ds

end

end

/-! ## Scoped trees -/

variable {T T' : Table} {n n' : Nat} {ν : Nat → Nat} {links : List Link}
  {scopes scopes' : List Scope}

theorem Table.Places.placed {use : Occurrence} (h : T.Places n scopes use)
    (h' : T'.Places n' scopes' (use.relabel (.numbers ν)))
    (hbeside : Scope.Beside links scopes scopes') : use.Placed T T' ν links := by
  have hplace : T'[ν use.id]? = scopes'.findIdx? (·.contains use.name.text) := h'.2
  rcases hbeside.findIdx? use.name.text with ⟨hnone, hnone'⟩ | ⟨d, d', hd, hd', hjoins⟩
  · exact .inl ⟨h.2.trans hnone, hplace.trans hnone'⟩
  · exact .inr ⟨d, d', h.2.trans hd, hplace.trans hd', hjoins⟩

theorem Table.Inherits.placed {keyword : Occurrence} (h : T.Inherits n scopes keyword)
    (h' : T'.Inherits n' scopes' (keyword.relabel (.numbers ν)))
    (hbeside : Scope.Beside links scopes scopes') :
    Use.Placed T T' ν links ⟨.super, keyword⟩ := by
  have hplaced := h.1.placed h'.1 hbeside
  obtain ⟨_, d, receiver, parent, hd, hreceiver, hthis, _, _⟩ := h
  obtain ⟨_, d', receiver', parent', hd', hreceiver', hthis', _, _⟩ := h'
  have hd' : T'[ν keyword.id]? = some (d' + 1) := hd'
  rcases hplaced with ⟨hnone, _⟩ | ⟨e, e', he, he', hjoins⟩
  · rw [hd] at hnone
    cases hnone
  · rw [hd] at he
    rw [hd'] at he'
    cases he
    cases he'
    exact ⟨d, d', hd, hd', hbeside.joins_inside hjoins hreceiver hthis hreceiver' hthis', hjoins⟩

mutual

theorem Expr.Scoped.placed (e : Expr) (h : e.Scoped T n scopes)
    (h' : (e.relabel (.numbers ν)).Scoped T' n' scopes')
    (hbeside : Scope.Beside links scopes scopes') : e.Placed T T' ν links := by
  cases e with
  | literal value => exact nofun
  | grouping inner => exact Expr.Scoped.placed inner h h' hbeside
  | unary op sign operand => exact Expr.Scoped.placed operand h.2 h'.2 hbeside
  | binary op sign left right =>
    exact List.forall_mem_append.mpr ⟨Expr.Scoped.placed left h.2.1 h'.2.1 hbeside,
      Expr.Scoped.placed right h.2.2 h'.2.2 hbeside⟩
  | logical op sign left right =>
    exact List.forall_mem_append.mpr ⟨Expr.Scoped.placed left h.1 h'.1 hbeside,
      Expr.Scoped.placed right h.2 h'.2 hbeside⟩
  | name use => exact List.forall_mem_singleton.mpr (Table.Places.placed h.1 h'.1 hbeside)
  | assign target value =>
    exact List.forall_mem_cons.mpr ⟨Table.Places.placed h.1.1 h'.1.1 hbeside,
      Expr.Scoped.placed value h.2.2 h'.2.2 hbeside⟩
  | call callee paren arguments =>
    exact List.forall_mem_append.mpr ⟨Expr.Scoped.placed callee h.1 h'.1 hbeside,
      Expr.ListScoped.placed arguments h.2 h'.2 hbeside⟩
  | get object property => exact Expr.Scoped.placed object h h' hbeside
  | set object property value =>
    exact List.forall_mem_append.mpr ⟨Expr.Scoped.placed object h.1 h'.1 hbeside,
      Expr.Scoped.placed value h.2 h'.2 hbeside⟩
  | this keyword => exact List.forall_mem_singleton.mpr (Table.Places.placed h.2 h'.2 hbeside)
  | super keyword method =>
    exact List.forall_mem_singleton.mpr (Table.Inherits.placed h h' hbeside)

theorem Expr.ListScoped.placed (es : List Expr) (h : Expr.ListScoped T n scopes es)
    (h' : Expr.ListScoped T' n' scopes' (Expr.listRelabel (.numbers ν) es))
    (hbeside : Scope.Beside links scopes scopes') : Expr.ListPlaced T T' ν links es := by
  cases es with
  | nil => exact nofun
  | cons e es =>
    exact List.forall_mem_append.mpr ⟨Expr.Scoped.placed e h.1 h'.1 hbeside,
      Expr.ListScoped.placed es h.2 h'.2 hbeside⟩

end

theorem Expr.OptionScoped.placed {e : Option Expr} (h : Expr.OptionScoped T n scopes e)
    (h' : Expr.OptionScoped T' n' scopes' (e.map (Expr.relabel (.numbers ν))))
    (hbeside : Scope.Beside links scopes scopes') : Expr.OptionPlaced T T' ν links e := by
  cases e with
  | none => exact nofun
  | some e => exact Expr.Scoped.placed e h h' hbeside

theorem Stmt.Plain.relabel {s : Stmt} (h : s.Plain) (r : Relabelling) : (s.relabel r).Plain := by
  match s with
  | .var _ _ | .function _ | .class _ _ _ => exact h.elim
  | .ifElse _ _ none | .ifElse _ _ (some _) => trivial
  | .expression _ | .print _ | .block _ | .while _ _ | .break _ | .return _ _ => trivial

/-- The statement declares nothing, or both ways begin in the same scope. -/
def Stmt.Joint (links : List Link) (s : Stmt) : Prop := s.Plain ∨ Link.Shared links

/-- What a statement declares keeps its name. -/
theorem Stmt.after_relabel (s : Stmt) (r : Relabelling) (scopes : List Scope) :
    (s.relabel r).after scopes = s.after scopes := by
  cases s with
  | function decl =>
    rw [Stmt.relabel, Stmt.after, FunctionDecl.relabel_name, Lexeme.relabel_text]
    rfl
  | ifElse condition yes no => cases no <;> rfl
  | _ => rfl

/-- Behind a statement the scopes are side by side as they were before it. -/
theorem Scope.Beside.after (h : Scope.Beside links scopes scopes') {s : Stmt}
    (hjoint : s.Joint links) : Scope.Beside links (s.after scopes) (s.after scopes') := by
  have declared (hplain : ¬s.Plain) (name : String) :
      Scope.Beside links (Scope.mark scopes name true) (Scope.mark scopes' name true) :=
    h.mark (hjoint.resolve_left hplain) name true
  cases s with
  | var name initializer => exact declared id name.text
  | function decl => exact declared id decl.name.text
  | «class» name superclass methods => exact declared id name.text
  | _ => exact h

theorem Scope.ofParameters_relabel (parameters : List Lexeme) :
    Scope.ofParameters (parameters.map (Lexeme.relabel (.numbers ν))) =
      Scope.ofParameters parameters := by
  rw [List.map_id'' (Lexeme.relabel_numbers ν)]

mutual

theorem Stmt.Scoped.placed {links : List Link} {scopes scopes' : List Scope} (s : Stmt)
    (h : s.Scoped T n scopes) (h' : (s.relabel (.numbers ν)).Scoped T' n' scopes')
    (hbeside : Scope.Beside links scopes scopes') (hjoint : s.Joint links) :
    s.Placed T T' ν links := by
  match s with
  | .expression value => exact Expr.Scoped.placed value h h' hbeside
  | .print value => exact Expr.Scoped.placed value h h' hbeside
  | .var name initializer =>
    have hshared := hjoint.resolve_left id
    exact ⟨hshared, Expr.OptionScoped.placed h.2 h'.2 (hbeside.mark hshared name.text false)⟩
  | .block body => exact Stmt.ListScoped.placed body h h' (.both _ hbeside) trivial
  | .ifElse condition yes none =>
    exact ⟨Expr.Scoped.placed condition h.1 h'.1 hbeside,
      Stmt.Scoped.placed yes h.2.1 h'.2.1 hbeside (.inl h.2.2)⟩
  | .ifElse condition yes (some no) =>
    obtain ⟨hcondition, hyes, hplain, hno, hplain'⟩ := h
    exact ⟨Expr.Scoped.placed condition hcondition h'.1 hbeside,
      Stmt.Scoped.placed yes hyes h'.2.1 hbeside (.inl hplain),
      Stmt.Scoped.placed no hno h'.2.2.2.1 hbeside (.inl hplain')⟩
  | .while condition body =>
    exact ⟨Expr.Scoped.placed condition h.1 h'.1 hbeside,
      Stmt.Scoped.placed body h.2.1 h'.2.1 hbeside (.inl h.2.2)⟩
  | .break keyword => trivial
  | .function decl =>
    have hshared := hjoint.resolve_left id
    obtain ⟨_, h'⟩ := h'
    rw [FunctionDecl.relabel_name] at h'
    exact ⟨hshared, FunctionDecl.Scoped.placed decl h.2 h'
      (hbeside.mark hshared decl.name.text true)⟩
  | .return keyword value => exact Expr.OptionScoped.placed h h' hbeside
  | .class name none methods =>
    have hshared := hjoint.resolve_left id
    exact ⟨hshared, FunctionDecl.ListScoped.placed methods h.2 h'.2
      (.both _ (hbeside.mark hshared name.text true))⟩
  | .class name (some parent) methods =>
    have hshared := hjoint.resolve_left id
    exact ⟨hshared, Table.Places.placed h.2.1.1 h'.2.1.1 hbeside,
      FunctionDecl.ListScoped.placed methods h.2.2 h'.2.2
        (.both _ (.both _ (hbeside.mark hshared name.text true)))⟩

theorem Stmt.ListScoped.placed {links : List Link} {scopes scopes' : List Scope} (ss : List Stmt)
    (h : Stmt.ListScoped T n scopes ss)
    (h' : Stmt.ListScoped T' n' scopes' (Stmt.listRelabel (.numbers ν) ss))
    (hbeside : Scope.Beside links scopes scopes') (hshared : Link.Shared links) :
    Stmt.ListPlaced T T' ν links ss := by
  match ss with
  | [] => trivial
  | s :: ss =>
    obtain ⟨hs', hss'⟩ := h'
    rw [s.after_relabel] at hss'
    exact ⟨Stmt.Scoped.placed s h.1 hs' hbeside (.inr hshared),
      Stmt.ListScoped.placed ss h.2 hss' (hbeside.after (.inr hshared)) hshared⟩

theorem FunctionDecl.Scoped.placed {links : List Link} {scopes scopes' : List Scope}
    (d : FunctionDecl) (h : d.Scoped T n scopes)
    (h' : (d.relabel (.numbers ν)).Scoped T' n' scopes')
    (hbeside : Scope.Beside links scopes scopes') : d.Placed T T' ν links := by
  match d with
  | ⟨name, parameters, body⟩ =>
    obtain ⟨_, h'⟩ := h'
    rw [Scope.ofParameters_relabel] at h'
    exact Stmt.ListScoped.placed body h.2 h' (.both _ hbeside) trivial

theorem FunctionDecl.ListScoped.placed {links : List Link} {scopes scopes' : List Scope}
    (ds : List FunctionDecl) (h : FunctionDecl.ListScoped T n scopes ds)
    (h' : FunctionDecl.ListScoped T' n' scopes' (FunctionDecl.listRelabel (.numbers ν) ds))
    (hbeside : Scope.Beside links scopes scopes') : FunctionDecl.ListPlaced T T' ν links ds := by
  match ds with
  | [] => trivial
  | d :: ds =>
    exact ⟨FunctionDecl.Scoped.placed d h.1 h'.1 hbeside,
      FunctionDecl.ListScoped.placed ds h.2 h'.2 hbeside⟩

end

end Lox
