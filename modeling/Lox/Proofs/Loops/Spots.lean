/-
  Lox.Proofs.Loops.Spots

  A tree that is scoped along one way outward can be scoped along another one.

    * `Stmt.spots` — the occurrences in a tree, each with the scopes around it;
    * `Scope.Abreast` — scopes along two ways between which trees can be moved: `super`
      stays next to `this`, and a name that is not ready stays in the innermost scope;
    * `Stmt.Scoped.move` — a tree that is scoped along the first way is scoped along the
      second one, under every table that is right at its spots there;
    * `Table.exists_placesAll` — there is such a table, if the occurrences have numbers of
      their own.
-/
import Lox.Proofs.Loops.Trees
import Lox.Proofs.Scoping.Points
import Lox.Proofs.Scoping.Tables

namespace Lox

/-! ## Spots -/

/-- An occurrence, and the scopes around it. -/
abbrev Spot := Occurrence × List Scope

/-- Uses inside the same scopes. -/
def spotsAt (scopes : List Scope) (uses : List Use) : List Spot :=
  uses.map fun use => (use.occurrence, scopes)

mutual

/-- The occurrences in a statement inside the scopes. -/
def Stmt.spots (scopes : List Scope) : Stmt → List Spot
  | .expression value => spotsAt scopes value.uses
  | .print value => spotsAt scopes value.uses
  | .var name initializer =>
    spotsAt (Scope.mark scopes name.text false) (Expr.optionUses initializer)
  | .block body => Stmt.listSpots (.empty :: scopes) body
  | .ifElse condition yes none => spotsAt scopes condition.uses ++ yes.spots scopes
  | .ifElse condition yes (some no) =>
    spotsAt scopes condition.uses ++ yes.spots scopes ++ no.spots scopes
  | .while condition body => spotsAt scopes condition.uses ++ body.spots scopes
  | .break _ => []
  | .function decl => decl.spots (Scope.mark scopes decl.name.text true)
  | .return _ value => spotsAt scopes (Expr.optionUses value)
  | .class name none methods =>
    FunctionDecl.listSpots (.single "this" true :: Scope.mark scopes name.text true) methods
  | .class name (some parent) methods =>
    (parent, scopes) :: FunctionDecl.listSpots
      (.single "this" true :: .single "super" true :: Scope.mark scopes name.text true) methods

def Stmt.listSpots (scopes : List Scope) : List Stmt → List Spot
  | [] => []
  | s :: ss => s.spots scopes ++ Stmt.listSpots (s.after scopes) ss

def FunctionDecl.spots (scopes : List Scope) : FunctionDecl → List Spot
  | ⟨_, parameters, body⟩ => Stmt.listSpots (Scope.ofParameters parameters :: scopes) body

def FunctionDecl.listSpots (scopes : List Scope) : List FunctionDecl → List Spot
  | [] => []
  | d :: ds => d.spots scopes ++ FunctionDecl.listSpots scopes ds

end

theorem map_spotsAt (scopes : List Scope) (uses : List Use) :
    (spotsAt scopes uses).map Prod.fst = uses.map (·.occurrence) := by
  rw [spotsAt, List.map_map]
  rfl

mutual

/-- The spots of a statement are those of its uses, in their order. -/
theorem Stmt.map_spots (s : Stmt) (scopes : List Scope) :
    (s.spots scopes).map Prod.fst = s.uses.map (·.occurrence) := by
  match s with
  | .expression value => exact map_spotsAt scopes _
  | .print value => exact map_spotsAt scopes _
  | .var name initializer => exact map_spotsAt _ _
  | .block body => exact Stmt.map_listSpots body _
  | .ifElse condition yes none =>
    rw [Stmt.spots, Stmt.uses, List.map_append, List.map_append, map_spotsAt, yes.map_spots]
  | .ifElse condition yes (some no) =>
    rw [Stmt.spots, Stmt.uses, List.map_append, List.map_append, List.map_append, List.map_append,
      map_spotsAt, yes.map_spots, no.map_spots]
  | .while condition body =>
    rw [Stmt.spots, Stmt.uses, List.map_append, List.map_append, map_spotsAt, body.map_spots]
  | .break _ => rfl
  | .function decl => exact decl.map_spots _
  | .return _ value => exact map_spotsAt scopes _
  | .class name none methods => exact FunctionDecl.map_listSpots methods _
  | .class name (some parent) methods =>
    exact congrArg (parent :: ·) (FunctionDecl.map_listSpots methods _)

theorem Stmt.map_listSpots (ss : List Stmt) (scopes : List Scope) :
    (Stmt.listSpots scopes ss).map Prod.fst = (Stmt.listUses ss).map (·.occurrence) := by
  match ss with
  | [] => rfl
  | s :: ss =>
    rw [Stmt.listSpots, Stmt.listUses, List.map_append, List.map_append, s.map_spots,
      Stmt.map_listSpots ss]

theorem FunctionDecl.map_spots (d : FunctionDecl) (scopes : List Scope) :
    (d.spots scopes).map Prod.fst = d.uses.map (·.occurrence) := by
  match d with
  | ⟨_, _, body⟩ => exact Stmt.map_listSpots body _

theorem FunctionDecl.map_listSpots (ds : List FunctionDecl) (scopes : List Scope) :
    (FunctionDecl.listSpots scopes ds).map Prod.fst =
      (FunctionDecl.listUses ds).map (·.occurrence) := by
  match ds with
  | [] => rfl
  | d :: ds =>
    rw [FunctionDecl.listSpots, FunctionDecl.listUses, List.map_append, List.map_append,
      d.map_spots, FunctionDecl.map_listSpots ds]

end

/-! ## Two ways for one tree -/

namespace Link

/-- Where a scope of `this` stands directly inside a scope of `super`, it does so along
    both ways. -/
def Tight (links : List Link) (kinds : List (Bool × Bool)) : Prop :=
  ∀ d d' x y, kinds[d]? = some (true, x) → kinds[d + 1]? = some (y, true) →
    Joins links (d + 1) d' → ∃ e', d' = e' + 1 ∧ Joins links d e'

variable {links : List Link} {kinds : List (Bool × Bool)}

theorem joins_replicate {k d d' : Nat} (h : Joins (.replicate k .both) d d') :
    d' = d ∧ d < k := by
  induction k generalizing d d' with
  | zero => cases h
  | succ k ih =>
    cases h with
    | here => exact ⟨rfl, Nat.succ_pos k⟩
    | both h =>
      obtain ⟨rfl, hlt⟩ := ih h
      exact ⟨rfl, Nat.succ_lt_succ hlt⟩

theorem joins_self {k d : Nat} (h : d < k) : Joins (.replicate k .both) d d := by
  induction k generalizing d with
  | zero => exact absurd h (Nat.not_lt_zero d)
  | succ k ih =>
    cases d with
    | zero => exact .here
    | succ d => exact .both (ih (Nat.lt_of_succ_lt_succ h))

theorem tight_replicate (k : Nat) (kinds : List (Bool × Bool)) :
    Tight (.replicate k .both) kinds := by
  intro d d' _ _ _ _ hjoins
  obtain ⟨rfl, hlt⟩ := joins_replicate hjoins
  exact ⟨d, rfl, joins_self (Nat.lt_of_succ_lt hlt)⟩

/-- One more scope around both, without `this`. -/
theorem Tight.push (h : Tight links kinds) (x : Bool) :
    Tight (.both :: links) ((false, x) :: kinds) := by
  intro d d' y z hd hd' hjoins
  cases d with
  | zero => cases hd
  | succ d =>
    cases hjoins with
    | both hjoins =>
      obtain ⟨e', rfl, he'⟩ := h d _ y z hd hd' hjoins
      exact ⟨e' + 1, rfl, .both he'⟩

/-- A scope of `this` is put where both ways begin in the same scope. -/
theorem Tight.receiver (h : Tight links kinds) (hshared : Shared links) (x : Bool) :
    Tight (.both :: links) ((true, x) :: kinds) := by
  intro d d' y z hd hd' hjoins
  cases d with
  | zero =>
    cases hjoins with
    | both hjoins =>
      cases hjoins with
      | here => exact ⟨0, rfl, .here⟩
      | right _ => exact hshared.elim
  | succ d =>
    cases hjoins with
    | both hjoins =>
      obtain ⟨e', rfl, he'⟩ := h d _ y z hd hd' hjoins
      exact ⟨e' + 1, rfl, .both he'⟩

theorem Tight.left (h : Tight links kinds) : Tight (.left :: links) ((false, false) :: kinds) := by
  intro d d' y z hd hd' hjoins
  cases d with
  | zero => cases hd
  | succ d =>
    cases hjoins with
    | left hjoins =>
      obtain ⟨e', rfl, he'⟩ := h d _ y z hd hd' hjoins
      exact ⟨e', rfl, .left he'⟩

theorem Tight.right (h : Tight links kinds) : Tight (.right :: links) kinds := by
  intro d d' y z hd hd' hjoins
  cases hjoins with
  | right hjoins =>
    obtain ⟨e', rfl, he'⟩ := h d _ y z hd hd' hjoins
    exact ⟨e' + 1, rfl, .right he'⟩

end Link

namespace Scope

/-- Scopes along two ways between which trees can be moved. -/
structure Abreast (links : List Link) (scopes scopes' : List Scope) : Prop where
  beside : Beside links scopes scopes'
  tight : Link.Tight links (kinds scopes)
  /-- A name that is not ready is in a scope that both have. -/
  ready : Link.Shared links ∨ ∀ name, ¬Pends scopes name

namespace Abreast

variable {links : List Link} {scopes scopes' : List Scope}

theorem refl (scopes : List Scope) :
    Abreast (.replicate scopes.length .both) scopes scopes := by
  refine ⟨.refl scopes, Link.tight_replicate _ _, .inl ?_⟩
  cases scopes <;> trivial

theorem push (h : Abreast links scopes scopes') {scope : Scope}
    (hscope : scope.contains "this" = false) :
    Abreast (.both :: links) (scope :: scopes) (scope :: scopes') := by
  refine ⟨.both scope h.beside, ?_, .inl trivial⟩
  rw [kinds, List.map_cons, hscope]
  exact h.tight.push _

theorem receiver (h : Abreast links scopes scopes') (hshared : Link.Shared links) :
    Abreast (.both :: links) (.single "this" true :: scopes) (.single "this" true :: scopes') :=
  ⟨.both _ h.beside, h.tight.receiver hshared false, .inl trivial⟩

theorem left (h : Abreast links scopes scopes') :
    Abreast (.left :: links) (.empty :: scopes) scopes' :=
  ⟨.left h.beside, h.tight.left, .inr fun _ => not_pends_empty⟩

theorem right (h : Abreast links scopes scopes') (hready : ∀ name, ¬Pends scopes name) :
    Abreast (.right :: links) scopes (.empty :: scopes') :=
  ⟨.right h.beside, h.tight.right, .inr hready⟩

theorem mark (h : Abreast links scopes scopes') (hshared : Link.Shared links) {name : Lexeme}
    (hname : name.Ordinary) (ready : Bool) :
    Abreast links (Scope.mark scopes name.text ready) (Scope.mark scopes' name.text ready) := by
  refine ⟨h.beside.mark hshared name.text ready, ?_, .inl hshared⟩
  rw [kinds_mark scopes hname]
  exact h.tight

end Abreast

theorem Beside.getElem? {links : List Link} {scopes scopes' : List Scope}
    (h : Beside links scopes scopes') {d d' : Nat} (hjoins : Link.Joins links d d') :
    scopes'[d']? = scopes[d]? := by
  induction hjoins generalizing scopes scopes' with
  | here =>
    cases h with
    | both scope _ => rfl
  | both _ ih =>
    cases h with
    | both scope h => exact ih h
  | left _ ih =>
    cases h with
    | left h => exact ih h
  | right _ ih =>
    cases h with
    | right h => exact ih h

theorem ofParameters_without_this {parameters : List Lexeme} (h : ∀ p ∈ parameters, p.Ordinary) :
    (ofParameters parameters).contains "this" = false := by
  -- The names are put in one by one.
  suffices hfold : ∀ scope : Scope, scope.contains "this" = false →
      (parameters.foldl (fun scope p => scope.insert p.text true) scope).contains "this" = false
    from hfold .empty rfl
  induction parameters with
  | nil => exact fun _ hscope => hscope
  | cons p parameters ih =>
    obtain ⟨hp, hparameters⟩ := List.forall_mem_cons.mp h
    intro scope hscope
    refine ih hparameters _ ?_
    rw [scope.contains_insert_of_ne (Ne.symm hp.1)]
    exact hscope

end Scope

/-! ## Moving a tree -/

section

variable (T : Table) (n : Nat) (ν : Nat → Nat)

/-- The table is right for the new numbers at all spots. -/
def Table.PlacesAll (spots : List Spot) : Prop :=
  ∀ spot ∈ spots, T.Places n spot.2 (spot.1.relabel (.numbers ν))

end

variable {T T' : Table} {n n' : Nat} {ν : Nat → Nat} {links : List Link}
  {scopes scopes' : List Scope}

theorem Table.placesAll_append {spots spots' : List Spot} :
    T.PlacesAll n ν (spots ++ spots') ↔ T.PlacesAll n ν spots ∧ T.PlacesAll n ν spots' :=
  List.forall_mem_append

theorem Table.placesAll_spotsAt {uses : List Use} :
    T.PlacesAll n ν (spotsAt scopes uses) ↔
      ∀ use ∈ uses, T.Places n scopes (use.occurrence.relabel (.numbers ν)) :=
  List.forall_mem_map

section

variable {use : Occurrence}

/-- An occurrence that the second table places, the first one places where the same scope
    stands. -/
theorem Table.Places.back (h : T.Places n scopes use)
    (h' : T'.Places n' scopes' (use.relabel (.numbers ν)))
    (hbeside : Scope.Beside links scopes scopes') {d' : Nat} (hd' : T'[ν use.id]? = some d') :
    ∃ d, T[use.id]? = some d ∧ Link.Joins links d d' := by
  rcases h.placed h' hbeside with ⟨-, hnone⟩ | ⟨d, e', hd, he', hjoins⟩
  · rw [hd'] at hnone
    cases hnone
  · rw [hd'] at he'
    cases he'
    exact ⟨d, hd, hjoins⟩

theorem Table.Readable.move (h : T.Readable n scopes use)
    (h' : T'.Places n' scopes' (use.relabel (.numbers ν)))
    (hways : Scope.Abreast links scopes scopes') :
    T'.Readable n' scopes' (use.relabel (.numbers ν)) := by
  refine ⟨h', fun d' scope hd' hscope => ?_⟩
  obtain ⟨d, hd, hjoins⟩ := h.1.back h' hways.beside hd'
  rw [hways.beside.getElem? hjoins] at hscope
  exact h.2 d scope hd hscope

theorem Table.Writable.move (h : T.Writable n scopes use)
    (h' : T'.Places n' scopes' (use.relabel (.numbers ν)))
    (hways : Scope.Abreast links scopes scopes') :
    T'.Writable n' scopes' (use.relabel (.numbers ν)) := by
  refine ⟨h', fun d' scope hd' hscope => ?_⟩
  obtain ⟨d, hd, hjoins⟩ := h.1.back h' hways.beside hd'
  rw [hways.beside.getElem? hjoins] at hscope
  cases d with
  | succ d => exact h.2 d scope hd hscope
  | zero =>
    -- Then the first way begins further inside, so its names are ready.
    have hready : ∀ name, ¬Scope.Pends scopes name := by
      refine hways.ready.resolve_left fun hshared => ?_
      cases hjoins with
      | right _ => exact hshared
    obtain ⟨innermost, hinnermost, hcontains⟩ := h.1.scope hd
    rw [hscope] at hinnermost
    cases hinnermost
    have hhead : scopes.head? = some scope := by rw [List.head?_eq_getElem?, hscope]
    cases hget : scope.get? use.name.text with
    | none => simp [Bindings.contains, hget] at hcontains
    | some ready =>
      cases ready with
      | true => exact hget
      | false => exact absurd ⟨scope, hhead, hget⟩ (hready use.name.text)

theorem Table.Inherits.move (h : T.Inherits n scopes use)
    (h' : T'.Places n' scopes' (use.relabel (.numbers ν)))
    (hways : Scope.Abreast links scopes scopes') :
    T'.Inherits n' scopes' (use.relabel (.numbers ν)) := by
  obtain ⟨hplaces, d, receiver, parent, hd, hreceiver, hthis, hparent, hsuper⟩ := h
  rcases hplaces.placed h' hways.beside with ⟨hnone, -⟩ | ⟨e, d', he, hd', hjoins⟩
  · rw [hd] at hnone
    cases hnone
  · rw [hd] at he
    cases he
    have hkind : (Scope.kinds scopes)[d]? = some (true, receiver.contains "super") := by
      rw [Scope.kinds, List.getElem?_map, hreceiver, Option.map_some, hthis]
    have hkind' : (Scope.kinds scopes)[d + 1]? = some (parent.contains "this", true) := by
      rw [Scope.kinds, List.getElem?_map, hparent, Option.map_some, hsuper]
    obtain ⟨e', rfl, hinside⟩ := hways.tight d d' _ _ hkind hkind' hjoins
    refine ⟨h', e', receiver, parent, hd', ?_, hthis, ?_, hsuper⟩
    · rw [hways.beside.getElem? hinside]
      exact hreceiver
    · rw [hways.beside.getElem? hjoins]
      exact hparent

theorem Lexeme.Declarable.move {name : Lexeme} (h : name.Declarable scopes)
    (hbeside : Scope.Beside links scopes scopes') (hshared : Link.Shared links) :
    name.Declarable scopes' := by
  refine ⟨h.ordinary, fun scope hscope => ?_⟩
  cases hbeside with
  | nil => cases hscope
  | both innermost _ => exact h.fresh scope hscope
  | left _ => exact hshared.elim
  | right _ => exact hshared.elim

end

mutual

theorem Expr.Scoped.move (e : Expr) (h : e.Scoped T n scopes)
    (h' : ∀ use ∈ e.uses, T'.Places n' scopes' (use.occurrence.relabel (.numbers ν)))
    (hways : Scope.Abreast links scopes scopes') :
    (e.relabel (.numbers ν)).Scoped T' n' scopes' := by
  cases e with
  | literal value => trivial
  | grouping inner => exact Expr.Scoped.move inner h h' hways
  | unary op sign operand => exact ⟨h.1, Expr.Scoped.move operand h.2 h' hways⟩
  | binary op sign left right =>
    obtain ⟨hleft, hright⟩ := List.forall_mem_append.mp h'
    exact ⟨h.1, Expr.Scoped.move left h.2.1 hleft hways,
      Expr.Scoped.move right h.2.2 hright hways⟩
  | logical op sign left right =>
    obtain ⟨hleft, hright⟩ := List.forall_mem_append.mp h'
    exact ⟨Expr.Scoped.move left h.1 hleft hways, Expr.Scoped.move right h.2 hright hways⟩
  | name use => exact Table.Readable.move h (h' _ List.mem_cons_self) hways
  | assign target value =>
    obtain ⟨htarget, hvalue⟩ := List.forall_mem_cons.mp h'
    exact ⟨Table.Writable.move h.1 htarget hways, h.2.1,
      Expr.Scoped.move value h.2.2 hvalue hways⟩
  | call callee paren arguments =>
    obtain ⟨hcallee, harguments⟩ := List.forall_mem_append.mp h'
    exact ⟨Expr.Scoped.move callee h.1 hcallee hways,
      Expr.ListScoped.move arguments h.2 harguments hways⟩
  | get object property => exact Expr.Scoped.move object h h' hways
  | set object property value =>
    obtain ⟨hobject, hvalue⟩ := List.forall_mem_append.mp h'
    exact ⟨Expr.Scoped.move object h.1 hobject hways, Expr.Scoped.move value h.2 hvalue hways⟩
  | this keyword => exact ⟨h.1, h' _ List.mem_cons_self⟩
  | super keyword method => exact Table.Inherits.move h (h' _ List.mem_cons_self) hways

theorem Expr.ListScoped.move (es : List Expr) (h : Expr.ListScoped T n scopes es)
    (h' : ∀ use ∈ Expr.listUses es, T'.Places n' scopes' (use.occurrence.relabel (.numbers ν)))
    (hways : Scope.Abreast links scopes scopes') :
    Expr.ListScoped T' n' scopes' (Expr.listRelabel (.numbers ν) es) := by
  cases es with
  | nil => trivial
  | cons e es =>
    obtain ⟨he, hes⟩ := List.forall_mem_append.mp h'
    exact ⟨Expr.Scoped.move e h.1 he hways, Expr.ListScoped.move es h.2 hes hways⟩

end

theorem Expr.OptionScoped.move {e : Option Expr} (h : Expr.OptionScoped T n scopes e)
    (h' : T'.PlacesAll n' ν (spotsAt scopes' (Expr.optionUses e)))
    (hways : Scope.Abreast links scopes scopes') :
    Expr.OptionScoped T' n' scopes' (e.map (Expr.relabel (.numbers ν))) := by
  cases e with
  | none => trivial
  | some e => exact Expr.Scoped.move e h (Table.placesAll_spotsAt.mp h') hways

/-- Behind a statement trees can be moved as before it. -/
theorem Scope.Abreast.after (hways : Scope.Abreast links scopes scopes')
    (hshared : Link.Shared links) {s : Stmt} (h : s.Scoped T n scopes) :
    Scope.Abreast links (s.after scopes) (s.after scopes') := by
  cases s with
  | var name initializer => exact hways.mark hshared h.1.ordinary true
  | function decl => exact hways.mark hshared h.1.ordinary true
  | «class» name superclass methods =>
    cases superclass with
    | none => exact hways.mark hshared h.1.ordinary true
    | some parent => exact hways.mark hshared h.1.ordinary true
  | _ => exact hways

mutual

theorem Stmt.Scoped.move {links : List Link} {scopes scopes' : List Scope} (s : Stmt)
    (h : s.Scoped T n scopes) (h' : T'.PlacesAll n' ν (s.spots scopes'))
    (hways : Scope.Abreast links scopes scopes') (hjoint : s.Joint links) :
    (s.relabel (.numbers ν)).Scoped T' n' scopes' := by
  match s with
  | .expression value => exact Expr.Scoped.move value h (Table.placesAll_spotsAt.mp h') hways
  | .print value => exact Expr.Scoped.move value h (Table.placesAll_spotsAt.mp h') hways
  | .var name initializer =>
    have hshared := hjoint.resolve_left id
    exact ⟨h.1.move hways.beside hshared,
      Expr.OptionScoped.move h.2 h' (hways.mark hshared h.1.ordinary false)⟩
  | .block body => exact Stmt.ListScoped.move body h h' (hways.push rfl) trivial
  | .ifElse condition yes none =>
    obtain ⟨hcondition, hyes, hplain⟩ := h
    obtain ⟨hcondition', hyes'⟩ := Table.placesAll_append.mp h'
    exact ⟨Expr.Scoped.move condition hcondition (Table.placesAll_spotsAt.mp hcondition') hways,
      Stmt.Scoped.move yes hyes hyes' hways (.inl hplain), hplain.relabel _⟩
  | .ifElse condition yes (some no) =>
    obtain ⟨hcondition, hyes, hplain, hno, hplain'⟩ := h
    obtain ⟨hfront, hno'⟩ := Table.placesAll_append.mp h'
    obtain ⟨hcondition', hyes'⟩ := Table.placesAll_append.mp hfront
    exact ⟨Expr.Scoped.move condition hcondition (Table.placesAll_spotsAt.mp hcondition') hways,
      Stmt.Scoped.move yes hyes hyes' hways (.inl hplain), hplain.relabel _,
      Stmt.Scoped.move no hno hno' hways (.inl hplain'), hplain'.relabel _⟩
  | .while condition body =>
    obtain ⟨hcondition, hbody, hplain⟩ := h
    obtain ⟨hcondition', hbody'⟩ := Table.placesAll_append.mp h'
    exact ⟨Expr.Scoped.move condition hcondition (Table.placesAll_spotsAt.mp hcondition') hways,
      Stmt.Scoped.move body hbody hbody' hways (.inl hplain), hplain.relabel _⟩
  | .break keyword => trivial
  | .function decl =>
    have hshared := hjoint.resolve_left id
    rw [Stmt.relabel, Stmt.Scoped, FunctionDecl.relabel_name]
    exact ⟨h.1.move hways.beside hshared,
      FunctionDecl.Scoped.move decl h.2 h' (hways.mark hshared h.1.ordinary true)⟩
  | .return keyword value => exact Expr.OptionScoped.move h h' hways
  | .class name none methods =>
    have hshared := hjoint.resolve_left id
    have hmarked := hways.mark hshared h.1.ordinary true
    exact ⟨h.1.move hways.beside hshared,
      FunctionDecl.ListScoped.move methods h.2 h' (hmarked.receiver hshared)⟩
  | .class name (some parent) methods =>
    have hshared := hjoint.resolve_left id
    have hmarked := hways.mark hshared h.1.ordinary true
    obtain ⟨hparent, hmethods⟩ := List.forall_mem_cons.mp h'
    exact ⟨h.1.move hways.beside hshared, h.2.1.move hparent hways,
      FunctionDecl.ListScoped.move methods h.2.2 hmethods ((hmarked.push rfl).receiver trivial)⟩

theorem Stmt.ListScoped.move {links : List Link} {scopes scopes' : List Scope} (ss : List Stmt)
    (h : Stmt.ListScoped T n scopes ss) (h' : T'.PlacesAll n' ν (Stmt.listSpots scopes' ss))
    (hways : Scope.Abreast links scopes scopes') (hshared : Link.Shared links) :
    Stmt.ListScoped T' n' scopes' (Stmt.listRelabel (.numbers ν) ss) := by
  match ss with
  | [] => trivial
  | s :: ss =>
    obtain ⟨hs', hss'⟩ := Table.placesAll_append.mp h'
    rw [Stmt.listRelabel, Stmt.ListScoped, s.after_relabel]
    exact ⟨Stmt.Scoped.move s h.1 hs' hways (.inr hshared),
      Stmt.ListScoped.move ss h.2 hss' (hways.after hshared h.1) hshared⟩

theorem FunctionDecl.Scoped.move {links : List Link} {scopes scopes' : List Scope}
    (d : FunctionDecl) (h : d.Scoped T n scopes) (h' : T'.PlacesAll n' ν (d.spots scopes'))
    (hways : Scope.Abreast links scopes scopes') :
    (d.relabel (.numbers ν)).Scoped T' n' scopes' := by
  match d with
  | ⟨name, parameters, body⟩ =>
    rw [FunctionDecl.relabel, FunctionDecl.Scoped, Scope.ofParameters_relabel,
      List.map_id'' (Lexeme.relabel_numbers ν)]
    exact ⟨h.1, Stmt.ListScoped.move body h.2 h' (hways.push (Scope.ofParameters_without_this h.1))
      trivial⟩

theorem FunctionDecl.ListScoped.move {links : List Link} {scopes scopes' : List Scope}
    (ds : List FunctionDecl) (h : FunctionDecl.ListScoped T n scopes ds)
    (h' : T'.PlacesAll n' ν (FunctionDecl.listSpots scopes' ds))
    (hways : Scope.Abreast links scopes scopes') :
    FunctionDecl.ListScoped T' n' scopes' (FunctionDecl.listRelabel (.numbers ν) ds) := by
  match ds with
  | [] => trivial
  | d :: ds =>
    obtain ⟨hd', hds'⟩ := Table.placesAll_append.mp h'
    exact ⟨FunctionDecl.Scoped.move d h.1 hd' hways,
      FunctionDecl.ListScoped.move ds h.2 hds' hways⟩

end

/-! ## A table -/

/-- Every list of spots has a table, with numbers behind those of another one. -/
theorem Table.exists_placesAll (T : Table) (n : Nat) {spots : List Spot}
    (hdistinct : (spots.map (·.1.id)).Nodup) :
    ∃ T' n', T.Extends T' n n' ∧ T'.PlacesAll n' (n + ·) spots := by
  induction spots with
  | nil => exact ⟨T, n, ⟨Nat.le_refl n, fun _ _ => rfl⟩, nofun⟩
  | cons spot spots ih =>
    obtain ⟨hnew, hrest⟩ := List.nodup_cons.mp hdistinct
    obtain ⟨T', n', hT, hplaces⟩ := ih hrest
    obtain ⟨use, scopes⟩ := spot
    have htable (id : Nat) : (T'.alter (n + use.id) fun _ =>
        scopes.findIdx? (·.contains use.name.text))[id]? =
          if n + use.id = id then scopes.findIdx? (·.contains use.name.text) else T'[id]? := by
      rw [Std.TreeMap.getElem?_alter]
      simp
    refine ⟨T'.alter (n + use.id) fun _ => scopes.findIdx? (·.contains use.name.text),
      max n' (n + use.id + 1), ⟨?_, fun id hid => ?_⟩, List.forall_mem_cons.mpr ⟨⟨?_, ?_⟩, ?_⟩⟩
    · exact Nat.le_trans hT.le (Nat.le_max_left _ _)
    · rw [htable, if_neg (by omega)]
      exact hT.same id hid
    · exact Nat.le_max_right _ _
    · exact (htable _).trans (if_pos rfl)
    · intro other hother
      obtain ⟨hlt, hplace⟩ := hplaces other hother
      refine ⟨Nat.lt_of_lt_of_le hlt (Nat.le_max_left _ _), ?_⟩
      have hne : n + use.id ≠ n + other.1.id := fun heq =>
        hnew (List.mem_map.mpr ⟨other, hother, (Nat.add_left_cancel heq).symm⟩)
      exact ((htable _).trans (if_neg hne)).trans hplace

end Lox
