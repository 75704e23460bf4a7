/-
  Lox.Proofs.Paths

  The frames around a frame, as a list.

    * `Store.LinksDown` — links lead to older frames, as they do in every store that a
      program makes;
    * `Store.Path` — the frames that come up when links are followed from a frame, with
      nothing that would stop at a link to a newer frame;
    * `LinksDown.exists_path` — there is an end to that;
    * `Path.ancestor?`, `Path.owner?` — distances count along the path, and the frame that
      is found for a name is the first one on it that has the name.
-/
import Lox.Proofs.Stores

namespace Lox

namespace Store

/-- Links lead to older frames. -/
def LinksDown (s : Store) : Prop := ∀ ⦃f g : FrameId⦄, s.parent? f = some g → g < f

/-- The frames that are met when links are followed from a frame, up to one without a
    link. -/
inductive Path (s : Store) : FrameId → List FrameId → Prop
  | top {f : FrameId} : s.parent? f = none → Path s f [f]
  | link {f g : FrameId} {path : List FrameId} : s.parent? f = some g → Path s g path →
      Path s f (f :: path)

variable {s : Store} {f g : FrameId} {path : List FrameId}

/-- Where links go down they lead to an end. -/
theorem LinksDown.exists_path (hs : s.LinksDown) (f : FrameId) : ∃ path, s.Path f path := by
  -- Frames are numbered in the order in which they are made.
  induction f using Nat.strongRecOn with
  | ind f ih =>
    cases hlink : s.parent? f with
    | none => exact ⟨[f], .top hlink⟩
    | some g =>
      obtain ⟨path, hpath⟩ := ih g (hs hlink)
      exact ⟨f :: path, .link hlink hpath⟩

namespace Path

/-- No frame has two paths. -/
theorem unique {path' : List FrameId} (h : s.Path f path) (h' : s.Path f path') :
    path' = path := by
  induction h generalizing path' with
  | top hlink =>
    cases h' with
    | top _ => rfl
    | link hlink' _ => cases hlink.symm.trans hlink'
  | link hlink _ ih =>
    cases h' with
    | top hlink' => cases hlink.symm.trans hlink'
    | link hlink' hpath' =>
      cases hlink.symm.trans hlink'
      rw [ih hpath']

/-- The frame so many links out is the one at that place of the path. -/
theorem ancestor? (h : s.Path f path) (d : Nat) : s.ancestor? f d = path[d]? := by
  induction h generalizing d with
  | top hlink =>
    cases d with
    | zero => rfl
    | succ d => rw [Store.ancestor?, hlink, List.getElem?_cons_succ, List.getElem?_nil]
  | link hlink _ ih =>
    cases d with
    | zero => rfl
    | succ d =>
      rw [Store.ancestor?, hlink, List.getElem?_cons_succ]
      exact ih d

variable (hs : s.LinksDown)
include hs

/-- Nothing on the path is newer than its start. -/
theorem le (h : s.Path f path) : ∀ g ∈ path, g ≤ f := by
  induction h with
  | top _ => exact fun g hg => Nat.le_of_eq (List.mem_singleton.mp hg)
  | link hlink _ ih =>
    intro g hg
    rcases List.mem_cons.mp hg with rfl | hrest
    · exact Nat.le_refl _
    · exact Nat.le_of_lt (Nat.lt_of_le_of_lt (ih g hrest) (hs hlink))

/-- Every frame on the path is older than the ones before. -/
theorem older (h : s.Path f path) : path.Pairwise (· > ·) := by
  induction h with
  | top _ => exact List.pairwise_singleton _ _
  | link hlink hpath ih =>
    exact List.pairwise_cons.mpr
      ⟨fun g hg => Nat.lt_of_le_of_lt (hpath.le hs g hg) (hs hlink), ih⟩

/-- The frame that is found for a name is the first one on the path that has it. -/
theorem owner? (h : s.Path f path) (name : String) :
    s.owner? name f = path.find? fun g => (s.own? g name).isSome := by
  induction h with
  | @top f hlink =>
    rw [List.find?_cons]
    cases hown : s.own? f name with
    | none => exact owner?_nowhere hown hlink
    | some _ => exact owner?_here hown
  | @link f g path hlink _ ih =>
    rw [List.find?_cons]
    cases hown : s.own? f name with
    | none => exact (owner?_outward hown hlink (hs hlink)).trans ih
    | some _ => exact owner?_here hown

end Path

end Store

end Lox
