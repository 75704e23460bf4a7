/-
  Lox.Proofs.Sites.Basic

  Scopes by position in the tree.

    * `Opening` — a scope of the text: what opens it and where that stands;
    * `Site` — a declaration, a use, a `return` or a superclass clause, with the
      scopes around it;
    * `Stmt.sites` — the sites of a tree in the order in which they are written;
    * `Opening.Declares` — which names a scope has behind the sites before a position;
    * `Untouched` — a part of the tree where nothing was opened yet.

  Nothing here walks with a stack of scopes: a site says what is around it, and what
  is declared there is read off the sites that are written before it.
-/
import Lox.Syntax.Use

namespace Lox

/-! ## Scopes of the text -/

/-- What opens a scope. -/
inductive OpeningKind where
  | block
  | function
  | method (name : String)
  /-- The scope of `this`, around the methods of a class. -/
  | receiver (derived : Bool)
  /-- The scope of `super`, around that of `this`. -/
  | parent
deriving DecidableEq, Repr

/-- The name that a scope has from its beginning. -/
def OpeningKind.implicit? : OpeningKind → Option String
  | .receiver _ => some "this"
  | .parent => some "super"
  | _ => none

/-- A scope of the text.  The place is the way up through the tree, so that no two
    scopes of a tree have the same one. -/
structure Opening where
  kind : OpeningKind
  place : List Nat
deriving DecidableEq, Repr

/-- A scope of a function or a method. -/
def Opening.IsBody (o : Opening) : Prop := o.kind = .function ∨ ∃ name, o.kind = .method name

/-- The scope that the methods of a class have around them. -/
def Opening.IsClass (o : Opening) : Prop := ∃ derived, o.kind = .receiver derived

/-! ## Sites -/

/-- What stands at a site. -/
inductive Event where
  | declaration (name : Lexeme)
  | use (use : Use)
  | return (keyword : Lexeme) (hasValue : Bool)
  /-- A class names its superclass. -/
  | inheritance (name parent : Lexeme)
deriving DecidableEq, Repr

/-- A place of the text where scopes matter. -/
structure Site where
  /-- The scopes around it, the innermost first; none at top level. -/
  around : List Opening
  /-- The variable whose initializer it is in. -/
  initializing : Option String
  event : Event
deriving DecidableEq, Repr

/-- The name that a site declares. -/
def Site.declared? (site : Site) : Option String :=
  match site.event with
  | .declaration name => some name.text
  | _ => none

/-- The use that stands at a site. -/
def Site.use? (site : Site) : Option Use :=
  match site.event with
  | .use use => some use
  | _ => none

/-- The sites of the uses in an expression. -/
def Site.ofUses (around : List Opening) (initializing : Option String) (uses : List Use) :
    List Site :=
  uses.map fun use => ⟨around, initializing, .use use⟩

mutual

/-- The sites of a statement that stands at a place inside given scopes. -/
def Stmt.sites (around : List Opening) (place : List Nat) : Stmt → List Site
  | .expression value => Site.ofUses around none value.uses
  | .print value => Site.ofUses around none value.uses
  | .var name initializer =>
    ⟨around, none, .declaration name⟩ ::
      Site.ofUses around (some name.text) (Expr.optionUses initializer)
  | .block body => Stmt.listSites (⟨.block, place⟩ :: around) place 0 body
  | .ifElse condition yes none =>
    Site.ofUses around none condition.uses ++ yes.sites around (0 :: place)
  | .ifElse condition yes (some no) =>
    Site.ofUses around none condition.uses ++ yes.sites around (0 :: place) ++
      no.sites around (1 :: place)
  | .while condition body =>
    Site.ofUses around none condition.uses ++ body.sites around (0 :: place)
  | .break _ => []
  | .function decl => ⟨around, none, .declaration decl.name⟩ :: decl.sites .function around place
  | .return keyword value =>
    ⟨around, none, .return keyword value.isSome⟩ ::
      Site.ofUses around none (Expr.optionUses value)
  | .class name none methods =>
    ⟨around, none, .declaration name⟩ ::
      FunctionDecl.listSites (⟨.receiver false, place⟩ :: around) place 0 methods
  | .class name (some parent) methods =>
    ⟨around, none, .declaration name⟩ :: ⟨around, none, .inheritance name parent.name⟩ ::
      ⟨around, none, .use ⟨.read, parent⟩⟩ ::
        FunctionDecl.listSites (⟨.receiver true, 0 :: place⟩ :: ⟨.parent, place⟩ :: around)
          (0 :: place) 0 methods

/-- The sites of statements; `index` is the number of the first one. -/
def Stmt.listSites (around : List Opening) (place : List Nat) (index : Nat) :
    List Stmt → List Site
  | [] => []
  | s :: ss => s.sites around (index :: place) ++ Stmt.listSites around place (index + 1) ss

/-- The sites of a function: its parameters, then its body, in one scope. -/
def FunctionDecl.sites (kind : OpeningKind) (around : List Opening) (place : List Nat) :
    FunctionDecl → List Site
  | ⟨_, parameters, body⟩ =>
    parameters.map (fun p => ⟨⟨kind, place⟩ :: around, none, .declaration p⟩) ++
      Stmt.listSites (⟨kind, place⟩ :: around) place 0 body

/-- The sites of methods; `index` is the number of the first one. -/
def FunctionDecl.listSites (around : List Opening) (place : List Nat) (index : Nat) :
    List FunctionDecl → List Site
  | [] => []
  | d :: ds =>
    d.sites (.method d.name.text) around (index :: place) ++
      FunctionDecl.listSites around place (index + 1) ds

end

/-- The sites of a program. -/
def programSites (program : List Stmt) : List Site := Stmt.listSites [] [] 0 program

/-! ## Names of a scope -/

/-- A scope has a name behind the sites before a position: from its beginning, or
    by a declaration directly in it. -/
def Opening.Declares (before : List Site) (o : Opening) (name : String) : Prop :=
  o.kind.implicit? = some name ∨
    ∃ site ∈ before, site.around.head? = some o ∧ site.declared? = some name

instance (before : List Site) (o : Opening) (name : String) :
    Decidable (o.Declares before name) :=
  inferInstanceAs (Decidable (_ ∨ ∃ site ∈ before, _ ∧ _))

namespace Opening.Declares

variable {before sites : List Site} {o : Opening} {name : String}

/-- What is declared stays declared. -/
theorem append (h : o.Declares before name) (sites : List Site) :
    o.Declares (before ++ sites) name :=
  h.imp_right fun ⟨site, hmem, hsite⟩ => ⟨site, List.mem_append_left _ hmem, hsite⟩

/-- Sites that declare nothing directly in a scope do not matter for it. -/
theorem append_iff (h : ∀ site ∈ sites, site.around.head? = some o → site.declared? = none) :
    o.Declares (before ++ sites) name ↔ o.Declares before name := by
  refine ⟨fun hdeclares => ?_, fun hdeclares => hdeclares.append sites⟩
  refine hdeclares.imp_right fun ⟨site, hmem, hhead, hname⟩ => ?_
  rcases List.mem_append.mp hmem with hbefore | hsites
  · exact ⟨site, hbefore, hhead, hname⟩
  · rw [h site hsites hhead] at hname
    cases hname

/-- One more declaration adds its name to its own scope. -/
theorem declaration_iff {outer : List Opening} {initializing : Option String} {declared : Lexeme} :
    o.Declares (before ++ [⟨o :: outer, initializing, .declaration declared⟩]) name ↔
      name = declared.text ∨ o.Declares before name := by
  constructor
  · rintro (himplicit | ⟨site, hmem, hhead, hname⟩)
    · exact .inr (.inl himplicit)
    · rcases List.mem_append.mp hmem with hbefore | hlast
      · exact .inr (.inr ⟨site, hbefore, hhead, hname⟩)
      · rw [List.mem_singleton] at hlast
        subst hlast
        exact .inl (Option.some.inj hname).symm
  · rintro (rfl | hdeclares)
    · exact .inr ⟨_, List.mem_append_right _ List.mem_cons_self, rfl, rfl⟩
    · exact hdeclares.append _

end Opening.Declares

/-! ## Uses -/

theorem filterMap_use?_ofUses (around : List Opening) (initializing : Option String)
    (uses : List Use) : (Site.ofUses around initializing uses).filterMap Site.use? = uses := by
  rw [Site.ofUses, List.filterMap_map]
  exact List.filterMap_some

theorem filterMap_use?_declarations (around : List Opening) (parameters : List Lexeme) :
    (parameters.map fun p => (⟨around, none, .declaration p⟩ : Site)).filterMap Site.use? = [] := by
  rw [List.filterMap_map]
  exact List.filterMap_eq_nil_iff.mpr fun _ _ => rfl

mutual

/-- Every use in a statement has its site. -/
theorem Stmt.filterMap_use?_sites (around : List Opening) (place : List Nat) (s : Stmt) :
    (s.sites around place).filterMap Site.use? = s.uses := by
  match s with
  | .expression value => exact filterMap_use?_ofUses around none value.uses
  | .print value => exact filterMap_use?_ofUses around none value.uses
  | .var name initializer => exact filterMap_use?_ofUses around _ (Expr.optionUses initializer)
  | .block body => exact Stmt.filterMap_use?_listSites _ place 0 body
  | .ifElse condition yes none =>
    simp only [Stmt.sites, Stmt.uses, List.filterMap_append, filterMap_use?_ofUses,
      Stmt.filterMap_use?_sites around _ yes]
  | .ifElse condition yes (some no) =>
    simp only [Stmt.sites, Stmt.uses, List.filterMap_append, filterMap_use?_ofUses,
      Stmt.filterMap_use?_sites around _ yes, Stmt.filterMap_use?_sites around _ no]
  | .while condition body =>
    simp only [Stmt.sites, Stmt.uses, List.filterMap_append, filterMap_use?_ofUses,
      Stmt.filterMap_use?_sites around _ body]
  | .break keyword => rfl
  | .function decl => exact FunctionDecl.filterMap_use?_sites .function around place decl
  | .return keyword value => exact filterMap_use?_ofUses around none (Expr.optionUses value)
  | .class name none methods => exact FunctionDecl.filterMap_use?_listSites _ place 0 methods
  | .class name (some parent) methods =>
    exact congrArg (_ :: ·) (FunctionDecl.filterMap_use?_listSites _ (0 :: place) 0 methods)

theorem Stmt.filterMap_use?_listSites (around : List Opening) (place : List Nat) (index : Nat)
    (ss : List Stmt) :
    (Stmt.listSites around place index ss).filterMap Site.use? = Stmt.listUses ss := by
  match ss with
  | [] => rfl
  | s :: ss =>
    simp only [Stmt.listSites, Stmt.listUses, List.filterMap_append,
      Stmt.filterMap_use?_sites around _ s, Stmt.filterMap_use?_listSites around place _ ss]

theorem FunctionDecl.filterMap_use?_sites (kind : OpeningKind) (around : List Opening)
    (place : List Nat) (d : FunctionDecl) :
    (d.sites kind around place).filterMap Site.use? = d.uses := by
  match d with
  | ⟨name, parameters, body⟩ =>
    simp only [FunctionDecl.sites, FunctionDecl.uses, List.filterMap_append,
      filterMap_use?_declarations, Stmt.filterMap_use?_listSites _ place 0 body, List.nil_append]

theorem FunctionDecl.filterMap_use?_listSites (around : List Opening) (place : List Nat)
    (index : Nat) (ds : List FunctionDecl) :
    (FunctionDecl.listSites around place index ds).filterMap Site.use? =
      FunctionDecl.listUses ds := by
  match ds with
  | [] => rfl
  | d :: ds =>
    simp only [FunctionDecl.listSites, FunctionDecl.listUses, List.filterMap_append,
      FunctionDecl.filterMap_use?_sites _ around _ d,
      FunctionDecl.filterMap_use?_listSites around place _ ds]

end

/-! ## Places -/

/-- The places at a place and below it. -/
def Below (place : List Nat) (q : List Nat) : Prop := place <:+ q

/-- The places below the parts of a place, from a number on. -/
def From (place : List Nat) (index : Nat) (q : List Nat) : Prop :=
  ∃ i, index ≤ i ∧ Below (i :: place) q

theorem Below.of_cons {i : Nat} {place q : List Nat} (h : Below (i :: place) q) : Below place q :=
  (List.suffix_cons i place).trans h

theorem Below.ne {i : Nat} {place q : List Nat} (h : Below (i :: place) q) : q ≠ place := by
  rintro rfl
  have hlength := List.IsSuffix.length_le h
  rw [List.length_cons] at hlength
  omega

/-- Different parts of a place have nothing in common. -/
theorem Below.index_eq {i j : Nat} {place q : List Nat} (hi : Below (i :: place) q)
    (hj : Below (j :: place) q) : i = j := by
  have hsuffix := List.suffix_of_suffix_length_le hi hj (by simp)
  have heq := hsuffix.eq_of_length (by simp)
  exact (List.cons.inj heq).1

theorem From.below {place : List Nat} {index : Nat} {q : List Nat} (h : From place index q) :
    Below place q := by
  obtain ⟨i, _, hi⟩ := h
  exact hi.of_cons

theorem From.of_succ {place : List Nat} {index : Nat} {q : List Nat}
    (h : From place (index + 1) q) : From place index q := by
  obtain ⟨i, hle, hi⟩ := h
  exact ⟨i, by omega, hi⟩

theorem From.not_below {place : List Nat} {index : Nat} {q : List Nat}
    (h : From place (index + 1) q) : ¬Below (index :: place) q := by
  obtain ⟨i, hle, hi⟩ := h
  intro hindex
  have heq := hi.index_eq hindex
  omega

/-- The scopes of a site are the given ones, or they are opened at certain places. -/
def Site.OpenedIn (around : List Opening) (places : List Nat → Prop) (site : Site) : Prop :=
  ∀ o ∈ site.around, o ∈ around ∨ places o.place

namespace Site.OpenedIn

variable {around : List Opening} {places places' : List Nat → Prop} {site : Site}

theorem here (initializing : Option String) (event : Event) :
    OpenedIn around places ⟨around, initializing, event⟩ :=
  fun _ ho => .inl ho

theorem mono (h : site.OpenedIn around places) (hplaces : ∀ q, places q → places' q) :
    site.OpenedIn around places' :=
  fun o ho => (h o ho).imp_right (hplaces _)

/-- A scope that is opened at one of the places is no exception. -/
theorem leave {kind : OpeningKind} {place : List Nat}
    (h : site.OpenedIn (⟨kind, place⟩ :: around) places) (hplace : places place) :
    site.OpenedIn around places := by
  intro o ho
  rcases h o ho with hmem | hopened
  · rcases List.mem_cons.mp hmem with rfl | houter
    · exact .inr hplace
    · exact .inl houter
  · exact .inr hopened

theorem ofUses {initializing : Option String} {uses : List Use}
    (h : site ∈ Site.ofUses around initializing uses) : site.OpenedIn around places := by
  obtain ⟨use, _, rfl⟩ := List.mem_map.mp h
  exact here initializing (.use use)

end Site.OpenedIn

mutual

/-- A statement opens its scopes at its own place and below. -/
theorem Stmt.openedIn_of_mem_sites {around : List Opening} {place : List Nat} {s : Stmt}
    {site : Site} (h : site ∈ s.sites around place) : site.OpenedIn around (Below place) := by
  have hself : Below place place := List.suffix_rfl
  have hpart (i : Nat) (q : List Nat) (hq : Below (i :: place) q) : Below place q := hq.of_cons
  match s with
  | .expression value => exact .ofUses h
  | .print value => exact .ofUses h
  | .var name initializer =>
    rcases List.mem_cons.mp h with rfl | hvalue
    · exact .here none _
    · exact .ofUses hvalue
  | .block body =>
    exact ((Stmt.openedIn_of_mem_listSites h).mono fun _ hq => hq.below).leave hself
  | .ifElse condition yes none =>
    rcases List.mem_append.mp h with hcondition | hyes
    · exact .ofUses hcondition
    · exact (Stmt.openedIn_of_mem_sites hyes).mono (hpart 0)
  | .ifElse condition yes (some no) =>
    rcases List.mem_append.mp h with hfirst | hno
    · rcases List.mem_append.mp hfirst with hcondition | hyes
      · exact .ofUses hcondition
      · exact (Stmt.openedIn_of_mem_sites hyes).mono (hpart 0)
    · exact (Stmt.openedIn_of_mem_sites hno).mono (hpart 1)
  | .while condition body =>
    rcases List.mem_append.mp h with hcondition | hbody
    · exact .ofUses hcondition
    · exact (Stmt.openedIn_of_mem_sites hbody).mono (hpart 0)
  | .break keyword => cases h
  | .function decl =>
    rcases List.mem_cons.mp h with rfl | hdecl
    · exact .here none _
    · exact FunctionDecl.openedIn_of_mem_sites hdecl
  | .return keyword value =>
    rcases List.mem_cons.mp h with rfl | hvalue
    · exact .here none _
    · exact .ofUses hvalue
  | .class name none methods =>
    rcases List.mem_cons.mp h with rfl | hmethods
    · exact .here none _
    · have hbelow := (FunctionDecl.openedIn_of_mem_listSites hmethods).mono fun _ hq => hq.below
      exact hbelow.leave hself
  | .class name (some parent) methods =>
    rcases List.mem_cons.mp h with rfl | hrest
    · exact .here none _
    rcases List.mem_cons.mp hrest with rfl | hrest
    · exact .here none _
    rcases List.mem_cons.mp hrest with rfl | hmethods
    · exact .here none _
    · have hbelow := (FunctionDecl.openedIn_of_mem_listSites hmethods).mono
        fun q hq => (hpart 0) q hq.below
      exact (hbelow.leave (List.suffix_cons 0 place)).leave hself

theorem Stmt.openedIn_of_mem_listSites {around : List Opening} {place : List Nat} {index : Nat}
    {ss : List Stmt} {site : Site} (h : site ∈ Stmt.listSites around place index ss) :
    site.OpenedIn around (From place index) := by
  match ss with
  | [] => cases h
  | s :: ss =>
    rcases List.mem_append.mp h with hs | hss
    · exact (Stmt.openedIn_of_mem_sites hs).mono fun q hq => ⟨index, Nat.le_refl index, hq⟩
    · exact (Stmt.openedIn_of_mem_listSites hss).mono fun q hq => hq.of_succ

theorem FunctionDecl.openedIn_of_mem_sites {kind : OpeningKind} {around : List Opening}
    {place : List Nat} {d : FunctionDecl} {site : Site} (h : site ∈ d.sites kind around place) :
    site.OpenedIn around (Below place) := by
  match d with
  | ⟨name, parameters, body⟩ =>
    have hscope : site.OpenedIn (⟨kind, place⟩ :: around) (Below place) := by
      rcases List.mem_append.mp h with hparameter | hbody
      · obtain ⟨p, _, rfl⟩ := List.mem_map.mp hparameter
        exact .here none _
      · exact (Stmt.openedIn_of_mem_listSites hbody).mono fun _ hq => hq.below
    exact hscope.leave List.suffix_rfl

theorem FunctionDecl.openedIn_of_mem_listSites {around : List Opening} {place : List Nat}
    {index : Nat} {ds : List FunctionDecl} {site : Site}
    (h : site ∈ FunctionDecl.listSites around place index ds) :
    site.OpenedIn around (From place index) := by
  match ds with
  | [] => cases h
  | d :: ds =>
    rcases List.mem_append.mp h with hd | hds
    · exact (FunctionDecl.openedIn_of_mem_sites hd).mono fun q hq => ⟨index, Nat.le_refl index, hq⟩
    · exact (FunctionDecl.openedIn_of_mem_listSites hds).mono fun q hq => hq.of_succ

end

/-! ## Parts of the tree that are still ahead -/

/-- At the given places nothing was opened yet: not around a position, and not at the
    sites before it. -/
structure Untouched (places : List Nat → Prop) (around : List Opening) (before : List Site) :
    Prop where
  distinct : around.Nodup
  around : ∀ o ∈ around, ¬places o.place
  before : ∀ site ∈ before, ∀ o ∈ site.around, ¬places o.place

namespace Untouched

variable {places places' taken : List Nat → Prop} {around : List Opening}
  {before sites : List Site}

theorem mono (h : Untouched places around before) (hplaces : ∀ q, places' q → places q) :
    Untouched places' around before :=
  ⟨h.distinct, fun o ho hq => h.around o ho (hplaces _ hq),
    fun site hsite o ho hq => h.before site hsite o ho (hplaces _ hq)⟩

/-- Behind a part of the tree, the other parts are untouched. -/
theorem append (h : Untouched places around before)
    (hsites : ∀ site ∈ sites, site.OpenedIn around taken)
    (hplaces : ∀ q, places' q → places q ∧ ¬taken q) :
    Untouched places' around (before ++ sites) := by
  refine ⟨h.distinct, fun o ho hq => h.around o ho (hplaces _ hq).1, fun site hsite o ho hq => ?_⟩
  rcases List.mem_append.mp hsite with hbefore | hmem
  · exact h.before site hbefore o ho (hplaces _ hq).1
  · rcases hsites site hmem o ho with houter | htaken
    · exact h.around o houter (hplaces _ hq).1
    · exact (hplaces _ hq).2 htaken

/-- Sites directly inside the scopes around a position open nothing. -/
theorem append_here (h : Untouched places around before)
    (hsites : ∀ site ∈ sites, site.around = around) :
    Untouched places around (before ++ sites) := by
  have hnone : ∀ site ∈ sites, site.OpenedIn around fun _ => False := by
    intro site hsite o ho
    rw [hsites site hsite] at ho
    exact .inl ho
  exact h.append hnone fun _ hq => ⟨hq, id⟩

/-- One more scope is opened at an untouched place. -/
theorem enter {place : List Nat} (h : Untouched places around before) (kind : OpeningKind)
    (hplace : places place) (hplaces : ∀ q, places' q → places q ∧ q ≠ place) :
    Untouched places' (⟨kind, place⟩ :: around) before := by
  refine ⟨List.nodup_cons.mpr ⟨fun hmem => h.around _ hmem hplace, h.distinct⟩, ?_,
    fun site hsite o ho hq => h.before site hsite o ho (hplaces _ hq).1⟩
  intro o ho hq
  rcases List.mem_cons.mp ho with rfl | houter
  · exact (hplaces _ hq).2 rfl
  · exact h.around o houter (hplaces _ hq).1

/-- The parts of a place, inside a scope that is opened there. -/
theorem parts {place : List Nat} (h : Untouched (Below place) around before) (kind : OpeningKind)
    (index : Nat) : Untouched (From place index) (⟨kind, place⟩ :: around) before :=
  h.enter kind List.suffix_rfl fun _ ⟨_, _, hq⟩ => ⟨hq.of_cons, hq.ne⟩

/-- A scope at an untouched place has only the name that it begins with. -/
theorem declares_iff {o : Opening} (h : Untouched places around before) (ho : places o.place)
    (name : String) : o.Declares before name ↔ o.kind.implicit? = some name := by
  refine ⟨fun hdeclares => hdeclares.elim id ?_, .inl⟩
  rintro ⟨site, hsite, hhead, _⟩
  exact absurd ho (h.before site hsite o (List.mem_of_head? hhead))

end Untouched

end Lox
