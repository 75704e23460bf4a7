/-
  Lox.Proofs.Loops.Links

  Two ways outward, which lead through the same scopes but for some that only one of
  them has.

    * `Link` — a step outward that both ways make, or one of them alone;
    * `Link.Joins` — the distances at which both ways stand in the same scope;
    * `Scope.Beside` — the scopes along both ways: those of one way alone have no names,
      so a name is found in the same scope along both (`Scope.Beside.findIdx?`);
    * `Store.Beside` — the frames along both ways, in a store of its own each; those in
      the same scope make a pair.
-/
import Lox.Proofs.Scoping.Frames

namespace Lox

/-! ## Steps outward -/

/-- A step outward from two places. -/
inductive Link where
  | both
  /-- Only the first way leads through this scope. -/
  | left
  | right

namespace Link

/-- At these distances the two ways stand in the same scope. -/
inductive Joins : List Link → Nat → Nat → Prop
  | here {links} : Joins (.both :: links) 0 0
  | both {links d d'} : Joins links d d' → Joins (.both :: links) (d + 1) (d' + 1)
  | left {links d d'} : Joins links d d' → Joins (.left :: links) (d + 1) d'
  | right {links d d'} : Joins links d d' → Joins (.right :: links) d (d' + 1)

/-- The two ways begin in the same scope. -/
def Shared : List Link → Prop
  | .left :: _ => False
  | .right :: _ => False
  | _ => True

end Link

/-! ## Scopes -/

namespace Scope

/-- The scopes along two ways outward. -/
inductive Beside : List Link → List Scope → List Scope → Prop
  | nil : Beside [] [] []
  | both {links scopes scopes'} (scope : Scope) : Beside links scopes scopes' →
      Beside (.both :: links) (scope :: scopes) (scope :: scopes')
  | left {links scopes scopes'} : Beside links scopes scopes' →
      Beside (.left :: links) (.empty :: scopes) scopes'
  | right {links scopes scopes'} : Beside links scopes scopes' →
      Beside (.right :: links) scopes (.empty :: scopes')

namespace Beside

variable {links : List Link} {scopes scopes' : List Scope} {d d' : Nat}

/-- A way beside itself. -/
theorem refl (scopes : List Scope) :
    Beside (List.replicate scopes.length .both) scopes scopes := by
  induction scopes with
  | nil => exact .nil
  | cons scope outer ih => exact .both scope ih

theorem mark (h : Beside links scopes scopes') (hshared : Link.Shared links) (name : String)
    (ready : Bool) :
    Beside links (Scope.mark scopes name ready) (Scope.mark scopes' name ready) := by
  cases h with
  | nil => exact .nil
  | both scope h => exact .both (scope.insert name ready) h
  | left h => exact hshared.elim
  | right h => exact hshared.elim

/-- A name is found in the same scope along both ways, or along none of them. -/
theorem findIdx? (h : Beside links scopes scopes') (name : String) :
    (scopes.findIdx? (·.contains name) = none ∧ scopes'.findIdx? (·.contains name) = none) ∨
      ∃ d d', scopes.findIdx? (·.contains name) = some d ∧
        scopes'.findIdx? (·.contains name) = some d' ∧ Link.Joins links d d' := by
  have hempty : (Bindings.empty : Scope).contains name = false := rfl
  induction h with
  | nil => exact .inl ⟨rfl, rfl⟩
  | both scope _ ih =>
    rw [List.findIdx?_cons, List.findIdx?_cons]
    split
    · exact .inr ⟨0, 0, rfl, rfl, .here⟩
    · rcases ih with ⟨hnone, hnone'⟩ | ⟨d, d', hd, hd', hjoins⟩
      · exact .inl ⟨by rw [hnone]; rfl, by rw [hnone']; rfl⟩
      · exact .inr ⟨d + 1, d' + 1, by rw [hd]; rfl, by rw [hd']; rfl, .both hjoins⟩
  | left _ ih =>
    rw [List.findIdx?_cons, hempty, if_neg Bool.false_ne_true]
    rcases ih with ⟨hnone, hnone'⟩ | ⟨d, d', hd, hd', hjoins⟩
    · exact .inl ⟨by rw [hnone]; rfl, hnone'⟩
    · exact .inr ⟨d + 1, d', by rw [hd]; rfl, hd', .left hjoins⟩
  | right _ ih =>
    rw [List.findIdx?_cons, hempty, if_neg Bool.false_ne_true]
    rcases ih with ⟨hnone, hnone'⟩ | ⟨d, d', hd, hd', hjoins⟩
    · exact .inl ⟨hnone, by rw [hnone']; rfl⟩
    · exact .inr ⟨d, d' + 1, hd, by rw [hd']; rfl, .right hjoins⟩

/-- Before the first scope that is joined, a way leads through scopes of its own. -/
theorem own_left (h : Beside links scopes scopes') (hjoins : Link.Joins links (d + 1) 0)
    {scope : Scope} (hscope : scopes[d]? = some scope) : scope = .empty := by
  induction h generalizing d with
  | nil => cases hjoins
  | both _ _ => cases hjoins
  | left _ ih =>
    cases hjoins with
    | left hjoins =>
      cases d with
      | zero => exact (Option.some.inj hscope).symm
      | succ d => exact ih hjoins hscope
  | right _ _ => cases hjoins

theorem own_right (h : Beside links scopes scopes') (hjoins : Link.Joins links 0 (d' + 1))
    {scope : Scope} (hscope : scopes'[d']? = some scope) : scope = .empty := by
  induction h generalizing d' with
  | nil => cases hjoins
  | both _ _ => cases hjoins
  | left _ _ => cases hjoins
  | right _ ih =>
    cases hjoins with
    | right hjoins =>
      cases d' with
      | zero => exact (Option.some.inj hscope).symm
      | succ d' => exact ih hjoins hscope

/-- If the scopes just inside of a joined one have a name, they are joined too. -/
theorem joins_inside (h : Beside links scopes scopes') (hjoins : Link.Joins links (d + 1) (d' + 1))
    {name : String} {scope scope' : Scope} (hscope : scopes[d]? = some scope)
    (hname : scope.contains name = true) (hscope' : scopes'[d']? = some scope')
    (hname' : scope'.contains name = true) : Link.Joins links d d' := by
  induction h generalizing d d' with
  | nil => cases hjoins
  | both _ h ih =>
    cases hjoins with
    | both hjoins =>
      cases d with
      | zero =>
        cases d' with
        | zero => exact .here
        | succ d' =>
          rw [h.own_right hjoins hscope'] at hname'
          cases hname'
      | succ d =>
        cases d' with
        | zero =>
          rw [h.own_left hjoins hscope] at hname
          cases hname
        | succ d' => exact .both (ih hjoins hscope hscope')
  | left _ ih =>
    cases hjoins with
    | left hjoins =>
      cases d with
      | zero =>
        cases hscope
        cases hname
      | succ d => exact .left (ih hjoins hscope hscope')
  | right _ ih =>
    cases hjoins with
    | right hjoins =>
      cases d' with
      | zero =>
        cases hscope'
        cases hname'
      | succ d' => exact .right (ih hjoins hscope hscope')

end Beside

end Scope

/-! ## Frames -/

/-- Frames of two stores that belong together. -/
abbrev FramePairs := List (FrameId × FrameId)

namespace Store

theorem ancestor?_outward {s : Store} {f g : FrameId} (hg : s.parent? f = some g) (d : Nat) :
    s.ancestor? f (d + 1) = s.ancestor? g d := by
  rw [ancestor?, hg]

/-- The frames along two ways outward, up to the global ones. -/
def Beside (pairs : FramePairs) (s s' : Store) : List Link → FrameId → FrameId → Prop
  | [], f, f' => f = globals ∧ f' = globals
  | .both :: links, f, f' => (f, f') ∈ pairs ∧
    ∃ g g', s.parent? f = some g ∧ s'.parent? f' = some g' ∧ Beside pairs s s' links g g'
  | .left :: links, f, f' => ∃ g, s.parent? f = some g ∧ Beside pairs s s' links g f'
  | .right :: links, f, f' => ∃ g', s'.parent? f' = some g' ∧ Beside pairs s s' links f g'

namespace Beside

variable {pairs pairs₁ : FramePairs} {s s' t t' : Store} {links : List Link} {f f' : FrameId}

theorem grow (h : Beside pairs s s' links f f') (hpairs : pairs ⊆ pairs₁) (hst : s.Grows t)
    (hst' : s'.Grows t') : Beside pairs₁ t t' links f f' := by
  induction links generalizing f f' with
  | nil => exact h
  | cons link links ih =>
    cases link with
    | both =>
      obtain ⟨hpair, g, g', hg, hg', h⟩ := h
      exact ⟨hpairs hpair, g, g', hst.parent? hg, hst'.parent? hg', ih h⟩
    | left =>
      obtain ⟨g, hg, h⟩ := h
      exact ⟨g, hst.parent? hg, ih h⟩
    | right =>
      obtain ⟨g', hg', h⟩ := h
      exact ⟨g', hst'.parent? hg', ih h⟩

/-- At joined distances the frames make a pair. -/
theorem ancestor? (h : Beside pairs s s' links f f') {d d' : Nat}
    (hjoins : Link.Joins links d d') :
    ∃ g g', s.ancestor? f d = some g ∧ s'.ancestor? f' d' = some g' ∧ (g, g') ∈ pairs := by
  induction hjoins generalizing f f' with
  | here => exact ⟨f, f', rfl, rfl, h.1⟩
  | both _ ih =>
    obtain ⟨_, g, g', hg, hg', h⟩ := h
    rw [ancestor?_outward hg, ancestor?_outward hg']
    exact ih h
  | left _ ih =>
    obtain ⟨g, hg, h⟩ := h
    rw [ancestor?_outward hg]
    exact ih h
  | right _ ih =>
    obtain ⟨g', hg', h⟩ := h
    rw [ancestor?_outward hg']
    exact ih h

/-- Ways that begin in the same scope begin in a pair. -/
theorem pair (h : Beside pairs s s' links f f') (hshared : Link.Shared links)
    (hglobals : (globals, globals) ∈ pairs) : (f, f') ∈ pairs := by
  match links with
  | [] =>
    obtain ⟨rfl, rfl⟩ := h
    exact hglobals
  | .both :: _ => exact h.1
  | .left :: _ => exact hshared.elim
  | .right :: _ => exact hshared.elim

/-- Frames of scopes beside themselves. -/
theorem of_chain {scopes : List Scope} (h : s.Chain f scopes)
    (hpairs : ∀ g, (s.parent? g).isSome → (g, g) ∈ pairs) :
    Beside pairs s s (List.replicate scopes.length .both) f f := by
  induction scopes generalizing f with
  | nil => exact ⟨h, h⟩
  | cons scope outer ih =>
    obtain ⟨_, g, hg, houter⟩ := h
    exact ⟨hpairs f (by rw [hg]; rfl), g, g, hg, hg, ih houter⟩

end Beside

end Store

end Lox
