/-
  Lox.Proofs.Lexing.Characters

  Classes of characters, and where a run of characters of one class ends.

    * `isNameStart_iff`, `isNamePart_iff` — the classes in other words;
    * `takeWhile_append_stop`, `length_le_takeWhile` — a run ends at the first character
      that is not of its class, and not before;
    * `fraction_cases` — when a point belongs to a number.
-/
import Lox.Token.Piece
import Mathlib.Data.List.TakeWhile

namespace Lox.Piece

/-! ## Classes -/

theorem isDigit_eq (c : Char) : isDigit c = c.isDigit := rfl

theorem isNameStart_iff {c : Char} : isNameStart c = true ↔ c.isAlpha = true ∨ c = '_' := by
  have halpha : c.isAlpha = (decide ('A'.val ≤ c.val ∧ c.val ≤ 'Z'.val) ||
      (decide ('a'.val ≤ c.val) && decide (c.val ≤ 'z'.val))) := rfl
  simp only [isNameStart, halpha, Char.le_def, Bool.or_eq_true, Bool.and_eq_true,
    decide_eq_true_eq]
  rw [or_comm (a := 'a'.val ≤ c.val ∧ c.val ≤ 'z'.val)]

theorem isNamePart_iff {c : Char} : isNamePart c = true ↔ c.isAlphanum = true ∨ c = '_' := by
  rw [isNamePart, Bool.or_eq_true, isNameStart_iff, isDigit_eq, Char.isAlphanum, Bool.or_eq_true,
    or_right_comm]

theorem not_isDigit_of_isNameStart {c : Char} (h : isNameStart c = true) : isDigit c = false := by
  simp only [isNameStart, isDigit, Bool.or_eq_true, Bool.and_eq_true, decide_eq_true_eq] at h ⊢
  rw [Bool.and_eq_false_iff]
  refine .inr ?_
  rw [decide_eq_false_iff_not, Char.le_def]
  intro hle
  rcases h with (⟨h, -⟩ | ⟨h, -⟩) | rfl
  · exact absurd (UInt32.le_trans (Char.le_def.mp h) hle) (by decide)
  · exact absurd (UInt32.le_trans (Char.le_def.mp h) hle) (by decide)
  · exact absurd hle (by decide)

theorem isNamePart_of_isNameStart {c : Char} (h : isNameStart c = true) : isNamePart c = true := by
  rw [isNamePart, h, Bool.true_or]

/-! ## Runs of characters -/

/-- What is taken while a test holds ends where the test fails. -/
theorem takeWhile_append_stop {P : Char → Bool} (own : List Char) {rest : List Char}
    (hown : ∀ c ∈ own, P c = true)
    (hrest : rest.head?.any P = false) :
    (own ++ rest).takeWhile P = own ∧ (own ++ rest).dropWhile P = rest := by
  have hstop : rest.takeWhile P = [] ∧ rest.dropWhile P = rest := by
    cases rest with
    | nil => exact ⟨rfl, rfl⟩
    | cons c cs =>
      have hc : P c = false := hrest
      simp [hc]
  rw [List.takeWhile_append_of_pos hown, List.dropWhile_append_of_pos hown, hstop.1, hstop.2,
    List.append_nil]
  exact ⟨rfl, rfl⟩

theorem head_dropWhile_any (P : Char → Bool) (cs : List Char) :
    (cs.dropWhile P).head?.any P = false := by
  have hstop := List.head?_dropWhile_not P cs
  revert hstop
  cases (cs.dropWhile P).head? with
  | none => exact fun _ => rfl
  | some c => exact fun hstop => hstop

/-- A run is as long as any of its class at the same place. -/
theorem length_le_takeWhile {P : Char → Bool} {own cs : List Char} (hown : ∀ c ∈ own, P c = true)
    (h : own <+: cs) : own.length ≤ (cs.takeWhile P).length := by
  obtain ⟨rest, rfl⟩ := h
  rw [List.takeWhile_append_of_pos hown, List.length_append]
  exact Nat.le_add_right _ _

/-! ## Fractions -/

theorem fraction_eq_nil_iff (cs : List Char) :
    fraction cs = [] ↔ ¬(cs.head? = some '.' ∧ cs.tail.head?.any isDigit = true) := by
  unfold fraction
  split
  · next d cs =>
    by_cases hd : isDigit d = true
    · simp [hd]
    · simp [hd]
  · next hother =>
    simp only [true_iff]
    rintro ⟨hpoint, hdigit⟩
    cases cs with
    | nil => cases hpoint
    | cons c cs =>
      cases hpoint
      cases cs with
      | nil => cases hdigit
      | cons d cs => exact hother d cs rfl

/-- A fraction is a point and digits. -/
theorem fraction_cases (cs : List Char) :
    fraction cs = [] ∨ ∃ d more, cs = '.' :: d :: more ∧ isDigit d = true ∧
      fraction cs = '.' :: d :: more.takeWhile isDigit := by
  unfold fraction
  split
  · next d more =>
    by_cases hd : isDigit d = true
    · exact .inr ⟨d, more, rfl, hd, if_pos hd⟩
    · exact .inl (if_neg hd)
  · exact .inl rfl

end Lox.Piece
