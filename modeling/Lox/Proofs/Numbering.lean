/-
  Lox.Proofs.Numbering

  Occurrences with numbers of their own.  `Fresh uses first next` says that no two
  of the uses have the same number and that all numbers lie from `first` up to
  `next`; stretches of a text that were numbered one after another can be put
  together in any order.
-/
import Lox.Syntax.Use

namespace Lox

/-- The uses have different numbers, from `first` on and below `next`. -/
structure Fresh (uses : List Use) (first next : Nat) : Prop where
  le : first ≤ next
  distinct : (uses.map (·.occurrence.id)).Nodup
  within : ∀ use ∈ uses, first ≤ use.occurrence.id ∧ use.occurrence.id < next

namespace Fresh

variable {us vs : List Use} {first middle next : Nat}

theorem nil (h : first ≤ next) : Fresh [] first next :=
  ⟨h, List.nodup_nil, fun _ huse => absurd huse List.not_mem_nil⟩

theorem single (kind : UseKind) (id : Nat) (name : Lexeme) :
    Fresh [⟨kind, ⟨id, name⟩⟩] id (id + 1) := by
  refine ⟨Nat.le_succ id, by simp, fun use huse => ?_⟩
  rw [List.mem_singleton] at huse
  subst huse
  exact ⟨Nat.le_refl id, Nat.lt_succ_self id⟩

theorem widen {least most : Nat} (h : Fresh us first next) (hleast : least ≤ first)
    (hmost : next ≤ most) : Fresh us least most := by
  refine ⟨by have := h.le; omega, h.distinct, fun use huse => ?_⟩
  have := h.within use huse
  omega

/-- The two lists may stand in either order. -/
theorem perm (h : Fresh us first next) (hperm : us.Perm vs) : Fresh vs first next :=
  ⟨h.le, (hperm.map _).nodup_iff.mp h.distinct,
    fun use huse => h.within use (hperm.mem_iff.mpr huse)⟩

theorem append (hu : Fresh us first middle) (hv : Fresh vs middle next) :
    Fresh (us ++ vs) first next := by
  refine ⟨Nat.le_trans hu.le hv.le, ?_, fun use huse => ?_⟩
  · rw [List.map_append, List.nodup_append]
    refine ⟨hu.distinct, hv.distinct, fun a ha b hb hab => ?_⟩
    obtain ⟨u, hu', rfl⟩ := List.mem_map.mp ha
    obtain ⟨v, hv', rfl⟩ := List.mem_map.mp hb
    have h₁ := hu.within u hu'
    have h₂ := hv.within v hv'
    omega
  · have hu' := hu.le
    have hv' := hv.le
    rcases List.mem_append.mp huse with h | h
    · have := hu.within use h
      omega
    · have := hv.within use h
      omega

/-- The later numbers may stand first. -/
theorem append_swap (hu : Fresh us first middle) (hv : Fresh vs middle next) :
    Fresh (vs ++ us) first next :=
  (hu.append hv).perm List.perm_append_comm

end Fresh

end Lox
