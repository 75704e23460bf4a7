/-
  Lox.Proofs.Methods.Anchored

  Which class declaration a `super` belongs to.

    * `FunctionDecl.supers` — the keywords `super` of a method: those in its body, also in
      functions there, but not those in the methods of a class inside it;
    * `Seat` — how far inside the body of a method a place is, and the keywords of that
      method;
    * `Stmt.Anchored` — the table takes every `super` to the frame around its method, and
      only methods of a class with a superclass have any.

  What the resolver accepts is anchored: `resolveProgram_anchored`.
-/
import Lox.Proofs.Scoping.Resolution

namespace Lox

/-! ## Keywords -/

mutual

/-- The keywords `super` of an expression. -/
def Expr.supers : Expr → List Occurrence
  | .literal _ => []
  | .grouping inner => inner.supers
  | .unary _ _ operand => operand.supers
  | .binary _ _ left right => left.supers ++ right.supers
  | .logical _ _ left right => left.supers ++ right.supers
  | .name _ => []
  | .assign _ value => value.supers
  | .call callee _ arguments => callee.supers ++ Expr.listSupers arguments
  | .get object _ => object.supers
  | .set object _ value => object.supers ++ value.supers
  | .this _ => []
  | .super keyword _ => [keyword]

def Expr.listSupers : List Expr → List Occurrence
  | [] => []
  | e :: es => e.supers ++ Expr.listSupers es

end

def Expr.optionSupers : Option Expr → List Occurrence
  | none => []
  | some e => e.supers

mutual

/-- The keywords `super` of a statement.  Those of a class in it belong to that class. -/
def Stmt.supers : Stmt → List Occurrence
  | .expression value => value.supers
  | .print value => value.supers
  | .var _ initializer => Expr.optionSupers initializer
  | .block body => Stmt.listSupers body
  | .ifElse condition yes none => condition.supers ++ yes.supers
  | .ifElse condition yes (some no) => condition.supers ++ yes.supers ++ no.supers
  | .while condition body => condition.supers ++ body.supers
  | .break _ => []
  | .function decl => decl.supers
  | .return _ value => Expr.optionSupers value
  | .class _ _ _ => []

def Stmt.listSupers : List Stmt → List Occurrence
  | [] => []
  | s :: ss => s.supers ++ Stmt.listSupers ss

/-- The keywords `super` of a function or a method. -/
def FunctionDecl.supers : FunctionDecl → List Occurrence
  | ⟨_, _, body⟩ => Stmt.listSupers body

end

/-! ## Places in methods -/

/-- A place in a method of a class with a superclass. -/
structure Seat where
  /-- How many scopes are between the place and the scope of the body. -/
  depth : Nat
  /-- The keywords `super` of the method. -/
  supers : List Occurrence

/-- The body of a method itself. -/
def FunctionDecl.seat (decl : FunctionDecl) : Seat := ⟨0, decl.supers⟩

/-- One scope further in. -/
def Seat.inner (seat : Option Seat) : Option Seat :=
  seat.map fun s => { s with depth := s.depth + 1 }

section

variable (T : Table)

mutual

/-- In an expression at a seat, every `super` is one of the method there, and the table
    takes it past the body of the method and the frame of `this`. -/
def Expr.Anchored (seat : Option Seat) : Expr → Prop
  | .literal _ => True
  | .grouping inner => inner.Anchored seat
  | .unary _ _ operand => operand.Anchored seat
  | .binary _ _ left right => left.Anchored seat ∧ right.Anchored seat
  | .logical _ _ left right => left.Anchored seat ∧ right.Anchored seat
  | .name _ => True
  | .assign target value => target.name.Ordinary ∧ value.Anchored seat
  | .call callee _ arguments => callee.Anchored seat ∧ Expr.ListAnchored seat arguments
  | .get object _ => object.Anchored seat
  | .set object _ value => object.Anchored seat ∧ value.Anchored seat
  | .this _ => True
  | .super keyword _ =>
    ∃ s, seat = some s ∧ keyword ∈ s.supers ∧ T[keyword.id]? = some (s.depth + 2)

def Expr.ListAnchored (seat : Option Seat) : List Expr → Prop
  | [] => True
  | e :: es => e.Anchored seat ∧ Expr.ListAnchored seat es

end

def Expr.OptionAnchored (seat : Option Seat) : Option Expr → Prop
  | none => True
  | some e => e.Anchored T seat

mutual

/-- The same of a statement.  It declares ordinary names only. -/
def Stmt.Anchored (seat : Option Seat) : Stmt → Prop
  | .expression value => value.Anchored T seat
  | .print value => value.Anchored T seat
  | .var name initializer => name.Ordinary ∧ Expr.OptionAnchored T seat initializer
  | .block body => Stmt.ListAnchored (Seat.inner seat) body
  | .ifElse condition yes none => condition.Anchored T seat ∧ yes.Anchored seat
  | .ifElse condition yes (some no) =>
    condition.Anchored T seat ∧ yes.Anchored seat ∧ no.Anchored seat
  | .while condition body => condition.Anchored T seat ∧ body.Anchored seat
  | .break _ => True
  | .function decl => decl.name.Ordinary ∧ decl.Anchored (Seat.inner seat)
  | .return _ value => Expr.OptionAnchored T seat value
  | .class name superclass methods =>
    name.Ordinary ∧ FunctionDecl.MethodsAnchored superclass.isSome methods

def Stmt.ListAnchored (seat : Option Seat) : List Stmt → Prop
  | [] => True
  | s :: ss => s.Anchored seat ∧ Stmt.ListAnchored seat ss

/-- The same of a declaration with its body at a seat. -/
def FunctionDecl.Anchored (seat : Option Seat) : FunctionDecl → Prop
  | ⟨_, parameters, body⟩ => (∀ p ∈ parameters, p.Ordinary) ∧ Stmt.ListAnchored seat body

/-- The methods of a class, with a superclass or without. -/
def FunctionDecl.MethodsAnchored (derived : Bool) : List FunctionDecl → Prop
  | [] => True
  | d :: ds =>
    d.Anchored (if derived then some d.seat else none) ∧ FunctionDecl.MethodsAnchored derived ds

end

end

theorem FunctionDecl.MethodsAnchored.method {T : Table} {derived : Bool} {ds : List FunctionDecl}
    (h : FunctionDecl.MethodsAnchored T derived ds) {d : FunctionDecl} (hd : d ∈ ds) :
    d.Anchored T (if derived then some d.seat else none) := by
  induction ds with
  | nil => cases hd
  | cons other ds ih =>
    rcases List.mem_cons.mp hd with rfl | hmem
    · exact h.1
    · exact ih h.2 hmem

/-! ## Walks at a seat -/

namespace Seat

/-- The walk is inside `past` more scopes than the one of `super`, and in a class with a
    superclass; without a seat it is not in such a class. -/
def Around (past : Nat) (seat : Option Seat) (scopes : List Scope) (cls : ClassKind) : Prop :=
  match seat with
  | none => cls ≠ .derived
  | some s => cls = .derived ∧ scopes.findIdx? (·.contains "super") = some (s.depth + past)

/-- A walk at a place with a seat. -/
abbrev At : Option Seat → List Scope → ClassKind → Prop := Around 2

/-- A walk outside the body that is at the seat. -/
abbrev Outside : Option Seat → List Scope → ClassKind → Prop := Around 1

variable {past : Nat} {seat : Option Seat} {scopes : List Scope} {cls : ClassKind}

/-- A scope without `super` is counted. -/
theorem Around.push (h : Around past seat scopes cls) {scope : Scope}
    (hscope : scope.contains "super" = false) : Around (past + 1) seat (scope :: scopes) cls := by
  cases seat with
  | none => exact h
  | some s =>
    obtain ⟨hcls, hplace⟩ := h
    refine ⟨hcls, ?_⟩
    rw [List.findIdx?_cons, hscope, hplace]
    rfl

/-- One scope further in is one seat further in. -/
theorem Around.inner (h : Around (past + 1) seat scopes cls) :
    Around past (inner seat) scopes cls := by
  cases seat with
  | none => exact h
  | some s =>
    obtain ⟨hcls, hplace⟩ := h
    refine ⟨hcls, ?_⟩
    have hcount : s.depth + (past + 1) = s.depth + 1 + past := by omega
    rw [hplace, hcount]

/-- Ordinary names do not move `super`. -/
theorem Around.mark (h : Around past seat scopes cls) {name : Lexeme} (hname : name.Ordinary)
    (ready : Bool) : Around past seat (Scope.mark scopes name.text ready) cls := by
  cases seat with
  | none => exact h
  | some s =>
    obtain ⟨hcls, hplace⟩ := h
    refine ⟨hcls, ?_⟩
    cases scopes with
    | nil => exact hplace
    | cons scope outer =>
      have hsame := scope.contains_insert_of_ne (Ne.symm hname.2) ready
      rw [List.findIdx?_cons] at hplace
      rw [Scope.mark, List.findIdx?_cons, hsame]
      exact hplace

theorem Around.parameters (h : Around past seat scopes cls) {parameters : List Lexeme}
    (hp : ∀ p ∈ parameters, p.Ordinary) :
    Around past seat (parameters.foldl (fun scopes p => Scope.mark scopes p.text true) scopes)
      cls := by
  induction parameters generalizing scopes with
  | nil => exact h
  | cons p ps ih =>
    have hfirst := h.mark (hp p List.mem_cons_self) true
    exact ih hfirst fun q hq => hp q (List.mem_cons_of_mem _ hq)

theorem Around.after (h : Around past seat scopes cls) {s : Stmt} (hs : s.Proper) :
    Around past seat (s.after scopes) cls := by
  cases s with
  | var name initializer => exact h.mark hs.1 true
  | function decl => exact h.mark hs.1 true
  | «class» name superclass methods => exact h.mark hs.1 true
  | _ => exact h

/-- Only the keywords of the method stand at a seat. -/
def Holds (seat : Option Seat) (supers : List Occurrence) : Prop :=
  ∀ s, seat = some s → supers ⊆ s.supers

theorem Holds.left {us vs : List Occurrence} (h : Holds seat (us ++ vs)) : Holds seat us :=
  fun s hs => List.Subset.trans (List.subset_append_left us vs) (h s hs)

theorem Holds.right {us vs : List Occurrence} (h : Holds seat (us ++ vs)) : Holds seat vs :=
  fun s hs => List.Subset.trans (List.subset_append_right us vs) (h s hs)

theorem Holds.inner {us : List Occurrence} (h : Holds seat us) : Holds (inner seat) us := by
  intro s hs
  obtain ⟨outer, houter, rfl⟩ := Option.map_eq_some_iff.mp hs
  exact h outer houter

theorem holds_none (us : List Occurrence) : Holds none us := nofun

theorem holds_seat (d : FunctionDecl) : Holds (some d.seat) d.supers := by
  rintro _ ⟨⟩
  exact List.Subset.refl _

end Seat

/-! ## Trees -/

open Seat

variable {T : Table} {n : Nat}

/-- Of a walk that need not find anything, only where it leads is told. -/
theorem Resolves.leads {ok ok' : List Scope → ClassKind → Prop} {f : Walk → Walk}
    {us : List Use} {a : List Scope → List Scope} {P : List Scope → Prop}
    (h : Resolves T n ok f us a P) : Resolves T n ok' f us a fun _ => True :=
  fun w => ⟨(h w).1, fun _ _ => trivial⟩

theorem anchors_read (use : Occurrence) {ok : List Scope → ClassKind → Prop} :
    Resolves T n ok (fun w => w.read use) [⟨.read, use⟩] (fun scopes => scopes) fun _ => True := by
  have hread : Resolves T n (fun _ _ => False) (fun w => w.read use) [⟨.read, use⟩]
      (fun scopes => scopes) fun scopes => T.Readable n scopes use :=
    resolves_read use fun _ _ h => h.elim
  exact hread.leads

theorem anchors_super {seat : Option Seat} (keyword : Occurrence) (method : Lexeme)
    (hname : keyword.name.text = "super")
    (hholds : Holds seat [keyword]) :
    Resolves T n (Seat.At seat) (Expr.super keyword method).resolve [⟨.super, keyword⟩]
      (fun scopes => scopes) fun _ => (Expr.super keyword method).Anchored T seat := by
  intro w
  have hbind (v : Walk) : v.Leads (v.bind keyword) v.scopes [⟨.super, keyword⟩] ∧
      (True → v.Finds T n (v.bind keyword) [⟨.super, keyword⟩] → T.Places n v.scopes keyword) :=
    (resolves_bind .super keyword : Resolves T n (fun _ _ => True) _ _ _ _) v
  -- Outside a class with a superclass the keyword is a fault.
  have hreported (fault : ScopeFault) :
      w.Leads ((w.report keyword.name fault).bind keyword) w.scopes [⟨.super, keyword⟩] ∧
        ¬w.Finds T n ((w.report keyword.name fault).bind keyword) [⟨.super, keyword⟩] := by
    obtain ⟨hleads, -⟩ := hbind (w.report keyword.name fault)
    exact ⟨(leads_report w _ _).trans hleads, not_finds_report hleads⟩
  unfold Expr.resolve
  dsimp only
  cases hcls : w.cls with
  | outside =>
    obtain ⟨hleads, hnot⟩ := hreported .superOutsideClass
    exact ⟨hleads, fun _ hfinds => absurd hfinds hnot⟩
  | base =>
    obtain ⟨hleads, hnot⟩ := hreported .superWithoutSuperclass
    exact ⟨hleads, fun _ hfinds => absurd hfinds hnot⟩
  | derived =>
    obtain ⟨hleads, hplaces⟩ := hbind w
    refine ⟨hleads, fun hat hfinds => ?_⟩
    cases seat with
    | none => exact absurd rfl hat
    | some s =>
      obtain ⟨-, hplace⟩ := hat
      have htable := (hplaces trivial hfinds).2
      rw [hname] at htable
      exact ⟨s, rfl, hholds s rfl List.mem_cons_self, htable.trans hplace⟩

mutual

/-- An expression without faults is anchored. -/
theorem Expr.anchors {seat : Option Seat} (e : Expr) (he : e.Proper)
    (hholds : Holds seat e.supers) :
    Resolves T n (Seat.At seat) e.resolve e.uses (fun scopes => scopes)
      fun _ => e.Anchored T seat := by
  cases e with
  | literal value => exact .still
  | grouping inner => exact Expr.anchors inner he hholds
  | unary op sign operand => exact Expr.anchors operand he.2 hholds
  | binary op sign left right =>
    exact (Expr.anchors left he.2.1 hholds.left).then_ (fun _ _ h => h)
      (Expr.anchors right he.2.2 hholds.right)
  | logical op sign left right =>
    exact (Expr.anchors left he.1 hholds.left).then_ (fun _ _ h => h)
      (Expr.anchors right he.2 hholds.right)
  | name use => exact anchors_read use
  | assign target value =>
    refine (((Expr.anchors value he.2 hholds).then_ (fun _ _ h => h)
      (resolves_bind .assign target)).perm List.perm_append_comm).mono (fun _ _ h => h) ?_
    exact fun _ h => ⟨he.1, h.1⟩
  | call callee paren arguments =>
    exact (Expr.anchors callee he.1 hholds.left).then_ (fun _ _ h => h)
      (Expr.listAnchors arguments he.2 hholds.right)
  | get object property => exact Expr.anchors object he hholds
  | set object property value =>
    refine (((Expr.anchors value he.2 hholds.right).then_ (fun _ _ h => h)
      (Expr.anchors object he.1 hholds.left)).perm List.perm_append_comm).mono (fun _ _ h => h) ?_
    exact fun _ h => ⟨h.2, h.1⟩
  | this keyword =>
    have hbind := (resolves_this keyword : Resolves T n (fun _ _ => True) _ _ _ _)
    exact hbind.leads
  | super keyword method => exact anchors_super keyword method he hholds

theorem Expr.listAnchors {seat : Option Seat} (es : List Expr) (hes : Expr.ListProper es)
    (hholds : Holds seat (Expr.listSupers es)) :
    Resolves T n (Seat.At seat) (Expr.listResolve es) (Expr.listUses es) (fun scopes => scopes)
      fun _ => Expr.ListAnchored T seat es := by
  cases es with
  | nil => exact .still
  | cons e es =>
    exact (Expr.anchors e hes.1 hholds.left).then_ (fun _ _ h => h)
      (Expr.listAnchors es hes.2 hholds.right)

end

theorem Expr.optionAnchors {seat : Option Seat} (e : Option Expr) (he : Expr.OptionProper e)
    (hholds : Holds seat (Expr.optionSupers e)) :
    Resolves T n (Seat.At seat) (Expr.optionResolve e) (Expr.optionUses e) (fun scopes => scopes)
      fun _ => Expr.OptionAnchored T seat e := by
  cases e with
  | none => exact .still
  | some e => exact Expr.anchors e he hholds

/-- The walk into the methods of a class with a superclass. -/
theorem Seat.outside_derived {scopes : List Scope} (d : FunctionDecl) :
    Seat.Outside (some d.seat) (.single "this" true :: .single "super" true :: scopes) .derived :=
  ⟨rfl, rfl⟩

mutual

/-- A statement without faults is anchored. -/
theorem Stmt.anchors {seat : Option Seat} (s : Stmt) (hs : s.Proper)
    (hholds : Holds seat s.supers) :
    Resolves T n (Seat.At seat) s.resolve s.uses (fun scopes => s.after scopes)
      fun _ => s.Anchored T seat := by
  match s with
  | .expression value => exact Expr.anchors value hs hholds
  | .print value => exact Expr.anchors value hs hholds
  | .var name initializer =>
    -- Declared, then the initializer, then ready: together one marked name.
    have hvalue := (resolves_declare name : Resolves T n (Seat.At seat) _ _ _ _).then_
      (fun _ _ h => h.mark hs.1 false) (Expr.optionAnchors initializer hs.2 hholds)
    have h := hvalue.then_ (fun _ _ _ => trivial)
      (resolves_define name : Resolves T n (fun _ _ => True) _ _ _ _)
    simp only [mark_mark, List.append_nil, List.nil_append] at h
    exact h.mono (fun _ _ h => h) fun _ h => ⟨hs.1, h.1.2⟩
  | .block body =>
    exact (Stmt.listAnchors body hs hholds.inner).inScope .empty
      (fun _ _ h => (Around.push h rfl).inner)
      fun scopes => Stmt.tail_listAfter body (.empty :: scopes)
  | .ifElse condition yes none =>
    have h := (Expr.anchors condition hs.1 hholds.left : Resolves T n _ _ _ _ _).then_
      (fun _ _ h => h) (Stmt.anchors yes hs.2.1 hholds.right)
    simp only [hs.2.2.after] at h
    exact h
  | .ifElse condition yes (some no) =>
    obtain ⟨hcondition, hyes, hplain, hno, hplain'⟩ := hs
    have hbranch := (Expr.anchors condition hcondition hholds.left.left :
      Resolves T n _ _ _ _ _).then_ (fun _ _ h => h) (Stmt.anchors yes hyes hholds.left.right)
    simp only [hplain.after] at hbranch
    have h := hbranch.then_ (fun _ _ h => h) (Stmt.anchors no hno hholds.right)
    simp only [hplain'.after] at h
    exact h.mono (fun _ _ h => h) fun _ h => ⟨h.1.1, h.1.2, h.2⟩
  | .while condition body =>
    have h := (Expr.anchors condition hs.1 hholds.left : Resolves T n _ _ _ _ _).then_
      (fun _ _ h => h) (Stmt.anchors body hs.2.1 hholds.right)
    simp only [hs.2.2.after] at h
    exact h
  | .break keyword => exact .still
  | .function decl =>
    exact ((resolves_introduce decl.name).then_ (fun _ _ h => (h.mark hs.1 true).inner)
      (FunctionDecl.anchors .function decl hs.2 hholds.inner)).mono (fun _ _ h => h)
      fun _ h => ⟨hs.1, h.2⟩
  | .return keyword value =>
    exact ((resolves_checkReturn keyword value.isSome).then_ (fun _ _ h => h)
      (Expr.optionAnchors value hs hholds)).mono (fun _ _ h => h) fun _ h => h.2
  | .class name none methods =>
    have hmethods := (FunctionDecl.methodsAnchors false methods hs.2).inScope (.single "this" true)
      (fun _ cls (h : cls = .base) _ => by rw [h]; nofun) fun _ => rfl
    have hnamed := (resolves_introduce name).then_ (fun _ cls (h : cls = .base) => h) hmethods
    exact (hnamed.inClass .base fun _ _ (_ : Seat.At seat _ _) => rfl).mono (fun _ _ h => h)
      fun _ h => ⟨hs.1, h.2⟩
  | .class name (some parent) methods =>
    -- From the inside out: the scopes of `this` and of `super`, the superclass, the name.
    have hthis := (FunctionDecl.methodsAnchors true methods hs.2).inScope (.single "this" true)
      (fun _ _ h => h) fun _ => rfl
    have hsuper := hthis.inScope (.single "super" true)
      (fun _ cls (h : cls = .derived) d => by rw [h]; exact outside_derived d) fun _ => rfl
    have hparent := (anchors_read parent).then_ (fun _ cls (h : cls = .derived) => h) hsuper
    have hclause := (resolves_inheritance parent.name name.text).then_ (fun _ _ h => h)
      (hparent.inClass .derived fun _ _ (_ : True) => rfl)
    have hnamed := (resolves_introduce name).then_ (fun _ _ (h : True) => h) hclause
    refine (hnamed.inClass .base fun _ _ (_ : Seat.At seat _ _) => trivial).mono (fun _ _ h => h)
      fun _ h => ⟨hs.1, h.2.2.2⟩

theorem Stmt.listAnchors {seat : Option Seat} (ss : List Stmt) (hss : Stmt.ListProper ss)
    (hholds : Holds seat (Stmt.listSupers ss)) :
    Resolves T n (Seat.At seat) (Stmt.listResolve ss) (Stmt.listUses ss)
      (fun scopes => Stmt.listAfter scopes ss) fun _ => Stmt.ListAnchored T seat ss := by
  match ss with
  | [] => exact .still
  | s :: ss =>
    exact (Stmt.anchors s hss.1 hholds.left).then_ (fun _ _ h => h.after hss.1)
      (Stmt.listAnchors ss hss.2 hholds.right)

theorem FunctionDecl.anchors {seat : Option Seat} (kind : BodyKind) (d : FunctionDecl)
    (hd : d.Proper) (hholds : Holds seat d.supers) :
    Resolves T n (Seat.Outside seat) (d.resolve kind) d.uses (fun scopes => scopes)
      fun _ => d.Anchored T seat := by
  match d with
  | ⟨name, parameters, body⟩ =>
    have hbody := (resolves_parameters parameters : Resolves T n (Seat.At seat) _ _ _ _).then_
      (fun _ _ h => h.parameters hd.1) (Stmt.listAnchors body hd.2 hholds)
    have hscope := hbody.inScope .empty (fun _ _ (h : Seat.Outside seat _ _) => Around.push h rfl)
      fun scopes => by
        rw [mark_parameters]
        exact Stmt.tail_listAfter body (_ :: scopes)
    exact (hscope.inBody kind).mono (fun _ _ h => h) fun _ h => ⟨hd.1, h.2⟩

theorem FunctionDecl.methodsAnchors (derived : Bool) (ds : List FunctionDecl)
    (hds : FunctionDecl.ListProper ds) :
    Resolves T n (fun scopes cls => ∀ d : FunctionDecl,
        Seat.Outside (if derived then some d.seat else none) scopes cls)
      (FunctionDecl.listResolve ds) (FunctionDecl.listUses ds) (fun scopes => scopes)
      fun _ => FunctionDecl.MethodsAnchored T derived ds := by
  match ds with
  | [] => exact .still
  | d :: ds =>
    have hholds : Holds (if derived then some d.seat else none) d.supers := by
      cases derived with
      | false => exact holds_none _
      | true => exact holds_seat d
    have hfirst := (FunctionDecl.anchors d.methodKind d hds.1 hholds :
      Resolves T n _ _ _ _ _).mono (fun _ _ (h : ∀ d : FunctionDecl,
        Seat.Outside (if derived then some d.seat else none) _ _) => h d) fun _ h => h
    exact hfirst.then_ (fun _ _ h => h) (FunctionDecl.methodsAnchors derived ds hds.2)

end

/-- A program that is accepted is anchored in the table it is accepted with. -/
theorem resolveProgram_anchored {program : List Stmt} {A : Table}
    (h : resolveProgram program = .ok A) (hproper : Stmt.ListProper program) {first next : Nat}
    (hfresh : Fresh (Stmt.listUses program) first next) : Stmt.ListAnchored A none program :=
  (Stmt.listAnchors program hproper (holds_none _) :
    Resolves A next _ _ _ _ _).of_result (by nofun) h hfresh fun _ _ => rfl

end Lox
