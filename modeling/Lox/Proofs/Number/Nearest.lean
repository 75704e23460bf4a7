/-
  Lox.Proofs.Number.Nearest

  Numerals are read as the nearest binary64 value.

    * `Nearest x bits` — of all patterns, `bits` stands for the value nearest to `x`
      units, and of two equally near ones it is the even one;
    * `unitsOfBits_strictMono` — greater patterns stand for greater values;
    * `Nearest.unique` — no two patterns are nearest to the same value;
    * `nearest_nearestBits` — what `nearestBits` gives is nearest;
    * `Decimal.nearest_bits` — so is the pattern that a numeral is read as.

  A pattern is `step * binade + digits` for a value of `digits * 2 ^ step` units.  As
  patterns grow with their values, only the two around `x` have to be compared.
-/
import Lox.Number.Decimal
import Mathlib.Algebra.Order.AbsoluteValue.Basic
import Mathlib.Data.Rat.Cast.Order
import Mathlib.Order.Monotone.Basic
import Mathlib.Tactic.FieldSimp
import Mathlib.Tactic.Linarith
import Mathlib.Tactic.Ring

namespace Lox.Number

/-- The pattern of the value nearest to `x` units; halfway between two it is the even one.
    Infinity stands for the power of two that is too great, and for all beyond. -/
structure Nearest (x : ℚ) (bits : Nat) : Prop where
  inRange : bits ≤ infinityBits
  nearest : ∀ other ≤ infinityBits, |x - unitsOfBits bits| ≤ |x - unitsOfBits other|
  even : ∀ other ≤ infinityBits, other ≠ bits →
    |x - unitsOfBits other| = |x - unitsOfBits bits| → bits % 2 = 0

/-! ## Patterns and their values -/

/-- A pattern counts steps: `digits` of them, each of `2 ^ step` units. -/
theorem unitsOfBits_eq {step digits : Nat} (hdigits : digits ≤ 2 * binade)
    (hstep : binade ≤ digits ∨ step = 0) :
    unitsOfBits (step * binade + digits) = digits * 2 ^ step := by
  have hbinade : 0 < binade := by decide
  by_cases hsmall : digits < binade
  · have hzero : step = 0 := by omega
    subst hzero
    simp [unitsOfBits, hsmall]
  have hlarge : ¬step * binade + digits < binade := by
    have := Nat.zero_le (step * binade)
    omega
  rw [unitsOfBits, if_neg hlarge]
  by_cases htop : digits = 2 * binade
  · -- All digits carry: the pattern is the first one of the next step but one.
    subst htop
    have hdiv : (step * binade + 2 * binade) / binade = step + 2 := by
      rw [← Nat.add_mul, Nat.mul_div_cancel _ hbinade]
    have hmod : (step * binade + 2 * binade) % binade = 0 := by
      rw [← Nat.add_mul, Nat.mul_mod_left]
    have hpow : Nat.pow 2 (step + 2 - 1) = 2 * 2 ^ step := by
      show 2 ^ (step + 1) = _
      rw [Nat.pow_succ, Nat.mul_comm]
    rw [hdiv, hmod, hpow]
    ring
  · have hsplit : step * binade + digits = (step + 1) * binade + (digits - binade) := by
      rw [Nat.add_mul]
      omega
    have hdiv : (step * binade + digits) / binade = step + 1 := by
      rw [hsplit, Nat.mul_comm, Nat.mul_add_div hbinade, Nat.div_eq_of_lt (by omega), Nat.add_zero]
    have hmod : (step * binade + digits) % binade = digits - binade := by
      rw [hsplit, Nat.mul_comm, Nat.mul_add_mod, Nat.mod_eq_of_lt (by omega)]
    have hsum : binade + (digits - binade) = digits := by omega
    rw [hdiv, hmod, hsum]
    rfl

/-- Every pattern counts steps. -/
theorem exists_digits (bits : Nat) : ∃ step digits, bits = step * binade + digits ∧
    digits < 2 * binade ∧ (binade ≤ digits ∨ step = 0) := by
  have hbinade : 0 < binade := by decide
  by_cases hsmall : bits < binade
  · exact ⟨0, bits, by omega, by omega, .inr rfl⟩
  · have hmod := Nat.mod_lt bits hbinade
    have hdiv : 1 ≤ bits / binade := (Nat.one_le_div_iff hbinade).mpr (by omega)
    refine ⟨bits / binade - 1, binade + bits % binade, ?_, by omega, .inl (by omega)⟩
    have hsplit := Nat.div_add_mod bits binade
    obtain ⟨k, hk⟩ : ∃ k, bits / binade = k + 1 := ⟨_, (Nat.sub_add_cancel hdiv).symm⟩
    rw [hk, Nat.add_sub_cancel]
    rw [hk, Nat.mul_comm, Nat.add_mul] at hsplit
    omega

/-- Greater patterns stand for greater values. -/
theorem unitsOfBits_strictMono : StrictMono unitsOfBits := by
  refine strictMono_nat_of_lt_succ fun bits => ?_
  obtain ⟨step, digits, rfl, hdigits, hstep⟩ := exists_digits bits
  have hstep' : binade ≤ digits + 1 ∨ step = 0 := hstep.imp_left (by omega)
  rw [unitsOfBits_eq (by omega) hstep, Nat.add_assoc, unitsOfBits_eq (by omega) hstep']
  exact Nat.mul_lt_mul_of_pos_right (Nat.lt_succ_self _) (Nat.two_pow_pos step)

/-! ## Between two patterns -/

section

variable {x : ℚ} {bits : Nat}

/-- A pattern outside of two adjacent ones is farther from what lies between these. -/
theorem around (x : ℚ) (bits other : Nat) :
    other < bits ∧ x - unitsOfBits bits < |x - unitsOfBits other| ∨ other = bits ∨
      other = bits + 1 ∨
      bits + 1 < other ∧ (unitsOfBits (bits + 1) : ℚ) - x < |x - unitsOfBits other| := by
  rcases Nat.lt_trichotomy other bits with hlt | heq | hgt
  · have hmono : (unitsOfBits other : ℚ) < unitsOfBits bits := by
      exact_mod_cast unitsOfBits_strictMono hlt
    refine .inl ⟨hlt, lt_of_lt_of_le ?_ (le_abs_self _)⟩
    linarith
  · exact .inr (.inl heq)
  · by_cases hnext : other = bits + 1
    · exact .inr (.inr (.inl hnext))
    · have hmono : (unitsOfBits (bits + 1) : ℚ) < unitsOfBits other := by
        exact_mod_cast unitsOfBits_strictMono (show bits + 1 < other by omega)
      refine .inr (.inr (.inr ⟨by omega, lt_of_lt_of_le ?_ (neg_le_abs _)⟩))
      linarith

/-- The lower neighbour is nearest in the lower half, and in the middle if it is even. -/
theorem nearest_low (hlow : (unitsOfBits bits : ℚ) ≤ x)
    (hhigh : x ≤ (unitsOfBits (bits + 1) : ℚ)) (hrange : bits ≤ infinityBits)
    (hhalf : x - unitsOfBits bits < unitsOfBits (bits + 1) - x ∨
      x - unitsOfBits bits = unitsOfBits (bits + 1) - x ∧ bits % 2 = 0) : Nearest x bits := by
  have hown : |x - unitsOfBits bits| = x - unitsOfBits bits := abs_of_nonneg (by linarith)
  have hnext : |x - unitsOfBits (bits + 1)| = unitsOfBits (bits + 1) - x := by
    rw [abs_sub_comm, abs_of_nonneg (by linarith)]
  have hle : x - unitsOfBits bits ≤ unitsOfBits (bits + 1) - x := by
    rcases hhalf with h | h
    · exact h.le
    · exact h.1.le
  refine ⟨hrange, fun other _ => ?_, fun other _ hne heq => ?_⟩
  · rw [hown]
    rcases around x bits other with h | rfl | rfl | h
    · exact h.2.le
    · rw [hown]
    · rw [hnext]
      exact hle
    · linarith
  · rw [hown] at heq
    rcases around x bits other with h | rfl | rfl | h
    · linarith
    · exact absurd rfl hne
    · rw [hnext] at heq
      rcases hhalf with h | h
      · linarith
      · exact h.2
    · linarith

/-- The upper neighbour is nearest in the upper half, and in the middle if it is even. -/
theorem nearest_high (hlow : (unitsOfBits bits : ℚ) ≤ x)
    (hhigh : x ≤ (unitsOfBits (bits + 1) : ℚ)) (hrange : bits + 1 ≤ infinityBits)
    (hhalf : unitsOfBits (bits + 1) - x < x - unitsOfBits bits ∨
      unitsOfBits (bits + 1) - x = x - unitsOfBits bits ∧ bits % 2 = 1) :
    Nearest x (bits + 1) := by
  have hown : |x - unitsOfBits (bits + 1)| = unitsOfBits (bits + 1) - x := by
    rw [abs_sub_comm, abs_of_nonneg (by linarith)]
  have hbelow : |x - unitsOfBits bits| = x - unitsOfBits bits := abs_of_nonneg (by linarith)
  have hle : unitsOfBits (bits + 1) - x ≤ x - unitsOfBits bits := by
    rcases hhalf with h | h
    · exact h.le
    · exact h.1.le
  refine ⟨hrange, fun other _ => ?_, fun other _ hne heq => ?_⟩
  · rw [hown]
    rcases around x bits other with h | rfl | rfl | h
    · linarith
    · rw [hbelow]
      exact hle
    · rw [hown]
    · exact h.2.le
  · rw [hown] at heq
    rcases around x bits other with h | rfl | rfl | h
    · linarith
    · rw [hbelow] at heq
      rcases hhalf with h | h
      · linarith
      · omega
    · exact absurd rfl hne
    · linarith

/-- Beyond all finite values infinity is nearest. -/
theorem nearest_infinity (h : (unitsOfBits infinityBits : ℚ) ≤ x) : Nearest x infinityBits := by
  refine ⟨Nat.le_refl _, fun other hother => ?_, fun _ _ _ _ => by decide⟩
  have hmono : (unitsOfBits other : ℚ) ≤ unitsOfBits infinityBits := by
    exact_mod_cast unitsOfBits_strictMono.monotone hother
  rw [abs_of_nonneg (by linarith), abs_of_nonneg (by linarith)]
  linarith

end

/-- Only one pattern is nearest. -/
theorem Nearest.unique {x : ℚ} {bits bits' : Nat} (h : Nearest x bits) (h' : Nearest x bits') :
    bits = bits' := by
  wlog hlt : bits < bits' generalizing bits bits'
  · rcases Nat.lt_trichotomy bits bits' with hlt' | heq | hgt
    · exact absurd hlt' hlt
    · exact heq
    · exact (this h' h hgt).symm
  have hsame : |x - unitsOfBits bits| = |x - unitsOfBits bits'| :=
    le_antisymm (h.nearest bits' h'.inRange) (h'.nearest bits h.inRange)
  -- Both are even, so there is a pattern between them, and it is nearer.
  have heven := h.even bits' h'.inRange hlt.ne' hsame.symm
  have heven' := h'.even bits h.inRange hlt.ne hsame
  have hrange' := h'.inRange
  have hbelow : (unitsOfBits bits : ℚ) < unitsOfBits (bits + 1) := by
    exact_mod_cast unitsOfBits_strictMono (Nat.lt_succ_self bits)
  have habove : (unitsOfBits (bits + 1) : ℚ) < unitsOfBits bits' := by
    exact_mod_cast unitsOfBits_strictMono (show bits + 1 < bits' by omega)
  have hmiddle : x - unitsOfBits bits = unitsOfBits bits' - x := by
    rcases abs_eq_abs.mp hsame with heq | heq
    · linarith
    · linarith
  have hnearer : |x - unitsOfBits (bits + 1)| < |x - unitsOfBits bits| :=
    lt_of_lt_of_le (abs_lt.mpr ⟨by linarith, by linarith⟩) (le_abs_self _)
  exact absurd (h.nearest (bits + 1) (by omega)) (not_le_of_gt hnearer)

/-! ## Rounding -/

/-- The step leaves at most 53 binary digits, and fewer only for the smallest values. -/
theorem digits_of_step (n : Nat) : n / 2 ^ (n.log2 - 52) < 2 * binade ∧
    (binade ≤ n / 2 ^ (n.log2 - 52) ∨ n.log2 - 52 = 0) := by
  have hbinade : binade = 2 ^ 52 := by decide
  have hlt : n < 2 ^ (n.log2 + 1) := Nat.lt_log2_self
  by_cases hsmall : n.log2 ≤ 52
  · have hstep : n.log2 - 52 = 0 := by omega
    have hbound : 2 ^ (n.log2 + 1) ≤ 2 ^ 53 := Nat.pow_le_pow_right (by decide) (by omega)
    rw [hstep, Nat.pow_zero, Nat.div_one, hbinade]
    exact ⟨by omega, .inr rfl⟩
  · obtain ⟨step, hstep⟩ : ∃ step, n.log2 = 52 + step := ⟨n.log2 - 52, by omega⟩
    have hne : n ≠ 0 := by
      rintro rfl
      exact hsmall (by decide)
    have hge : 2 ^ n.log2 ≤ n := Nat.log2_self_le hne
    have hsub : n.log2 - 52 = step := by omega
    rw [hsub, hbinade]
    refine ⟨?_, .inl ?_⟩
    · rw [Nat.div_lt_iff_lt_mul (Nat.two_pow_pos step), ← Nat.pow_succ', ← Nat.pow_add]
      rwa [hstep, show 52 + step + 1 = Nat.succ 52 + step by omega] at hlt
    · rw [Nat.le_div_iff_mul_le (Nat.two_pow_pos step), ← Nat.pow_add]
      rwa [hstep] at hge

/-- A number `rest` of a `whole` above a value, in parts of `den`, is rounded by comparing
    the rest with the half. -/
theorem nearest_of_rest {x : ℚ} {bits den whole rest : Nat} (hden : 0 < den) (hrest : rest < whole)
    (hbelow : x - unitsOfBits bits = rest / den)
    (habove : unitsOfBits (bits + 1) - x = (whole - rest) / den) :
    Nearest x (min (if 2 * rest < whole ∨ (2 * rest = whole ∧ bits % 2 = 0) then bits else bits + 1)
      infinityBits) := by
  have hden' : (0 : ℚ) < den := by exact_mod_cast hden
  have hrest' : (rest : ℚ) < whole := by exact_mod_cast hrest
  have hlow : (unitsOfBits bits : ℚ) ≤ x := by
    have : (0 : ℚ) ≤ rest / den := div_nonneg (Nat.cast_nonneg rest) hden'.le
    linarith
  have hhigh : x ≤ unitsOfBits (bits + 1) := by
    have : (0 : ℚ) ≤ (whole - rest) / den := div_nonneg (by linarith) hden'.le
    linarith
  -- Beyond the finite values the minimum is infinity, whichever way the rest is rounded.
  by_cases hbeyond : infinityBits ≤ bits
  · have hmono : (unitsOfBits infinityBits : ℚ) ≤ unitsOfBits bits := by
      exact_mod_cast unitsOfBits_strictMono.monotone hbeyond
    rw [Nat.min_eq_right (by split <;> omega)]
    exact nearest_infinity (hmono.trans hlow)
  rw [Nat.min_eq_left (by split <;> omega)]
  split
  · next hdown =>
    refine nearest_low hlow hhigh (by omega) ?_
    rw [hbelow, habove, div_lt_div_iff_of_pos_right hden', div_left_inj' hden'.ne']
    rcases hdown with h | ⟨h, heven⟩
    · have : (2 * rest : ℚ) < whole := by exact_mod_cast h
      exact .inl (by linarith)
    · have : (2 * rest : ℚ) = whole := by exact_mod_cast h
      exact .inr ⟨by linarith, heven⟩
  · next hup =>
    refine nearest_high hlow hhigh (by omega) ?_
    rw [hbelow, habove, div_lt_div_iff_of_pos_right hden', div_left_inj' hden'.ne']
    rcases Nat.lt_trichotomy (2 * rest) whole with h | h | h
    · exact absurd (.inl h) hup
    · have : (2 * rest : ℚ) = whole := by exact_mod_cast h
      exact .inr ⟨by linarith, by omega⟩
    · have : (whole : ℚ) < 2 * rest := by exact_mod_cast h
      exact .inl (by linarith)

/-- Rounding to the nearest pattern rounds to the nearest value. -/
theorem nearest_nearestBits (num : Nat) {den : Nat} (hden : 0 < den) :
    Nearest ((num : ℚ) / den) (nearestBits num den) := by
  obtain ⟨hdigits, hleast⟩ := digits_of_step (num / den)
  unfold nearestBits roundHalfEven
  dsimp only
  -- The quotient is cut to whole steps, and the remainder of the cut decides.
  generalize (num / den).log2 - 52 = step at hdigits hleast ⊢
  rw [Nat.div_div_eq_div_mul] at hdigits hleast
  have hpow : Nat.pow 2 step = 2 ^ step := rfl
  have hwhole : 0 < den * 2 ^ step := Nat.mul_pos hden (Nat.two_pow_pos step)
  have hsplit := Nat.div_add_mod num (den * 2 ^ step)
  have hrest := Nat.mod_lt num hwhole
  rw [hpow]
  generalize num / (den * 2 ^ step) = digits at *
  generalize num % (den * 2 ^ step) = rest at *
  have hden' : (den : ℚ) ≠ 0 := by exact_mod_cast hden.ne'
  have hbelow : (num : ℚ) / den - unitsOfBits (step * binade + digits) = rest / den := by
    rw [unitsOfBits_eq hdigits.le hleast, ← hsplit]
    push_cast
    field_simp
    ring
  have habove : (unitsOfBits (step * binade + digits + 1) : ℚ) - num / den =
      ((den * 2 ^ step : Nat) - rest) / den := by
    rw [Nat.add_assoc, unitsOfBits_eq (by omega) (hleast.imp_left (by omega)), ← hsplit]
    push_cast
    field_simp
    ring
  -- The last digit of the pattern is that of the digits.
  have hparity : (step * binade + digits) % 2 = digits % 2 := by
    unfold binade
    omega
  have hnearest := nearest_of_rest hden hrest hbelow habove
  rw [hparity, Nat.add_assoc, ← apply_ite (step * binade + ·)] at hnearest
  exact hnearest

namespace Decimal

/-- The number that a numeral stands for. -/
def value (d : Decimal) : ℚ := d.digits * 10 ^ d.exponent

/-- A numeral is read as the nearest value. -/
theorem nearest_bits (d : Decimal) : Nearest (d.value * one) d.bits := by
  obtain ⟨digits, exponent⟩ := d
  unfold bits value
  cases exponent with
  | ofNat e =>
    have h := nearest_nearestBits (digits * 10 ^ e * one) Nat.one_pos
    have hvalue : (digits * 10 ^ Int.ofNat e * one : ℚ) = (digits * 10 ^ e * one : Nat) := by
      rw [Int.ofNat_eq_natCast, zpow_natCast]
      push_cast
      ring
    rw [Nat.cast_one, div_one, ← hvalue] at h
    exact h
  | negSucc e =>
    have h := nearest_nearestBits (digits * one) (Nat.pow_pos (n := e + 1) (show 0 < 10 by decide))
    have hvalue : (digits * 10 ^ Int.negSucc e * one : ℚ) =
        (digits * one : Nat) / (10 ^ (e + 1) : Nat) := by
      rw [zpow_negSucc]
      push_cast
      ring
    rw [← hvalue] at h
    exact h

end Decimal

end Lox.Number
