/-
  Lox.Proofs.Number.Notations

  The three positional notations of numbers agree.

    * `IsWhole` — the value is a whole number with a sign and a size;
    * `wholeValue?_eq_some_iff` — the integer of a value is that number;
    * `toInt_ofInt` — an integer that is small enough is kept as a machine integer;
    * `notations_agree` — but for minus zero, literals are written as in trees, which is as
      they are printed, with `.0` after a whole number.
-/
import Lox.Proofs.Number.Literals

namespace Lox.Number

/-! ## Whole numbers -/

/-- The value is `size`, or `-size`. -/
def IsWhole (x : Float) (negative : Bool) (size : Nat) : Prop :=
  parts x = .finite negative (size * one)

/-- The integer of a sign and a size. -/
def signed (negative : Bool) (size : Nat) : ℤ := if negative then -size else size

variable {x : Float} {negative : Bool} {size units : Nat}

theorem one_pos : 0 < one := by
  obtain ⟨ones, -, hone⟩ := one_eq_pow
  rw [hone]
  exact Nat.two_pow_pos ones

theorem mod_one_of_whole (size : Nat) : size * one % one = 0 := by
  generalize one = k
  exact Nat.mul_mod_left size k

theorem exists_of_mod_one (h : units % one = 0) : ∃ size, units = size * one := by
  generalize one = k at h ⊢
  exact ⟨units / k, (Nat.div_mul_cancel (Nat.dvd_of_mod_eq_zero h)).symm⟩

theorem positionalText_whole (h : IsWhole x negative size) (whole : Bool → Nat → String) :
    positionalText whole x = whole negative size := by
  unfold positionalText
  rw [h]
  dsimp only
  rw [if_pos (mod_one_of_whole size), Nat.mul_div_cancel size one_pos]

/-- Only whole numbers are written differently. -/
theorem positionalText_congr (h : ¬∃ negative size, IsWhole x negative size)
    (whole whole' : Bool → Nat → String) :
    positionalText whole x = positionalText whole' x := by
  unfold positionalText
  split
  · rfl
  · rfl
  · next negative units hparts =>
    have hrest : ¬units % one = 0 := by
      intro hrest
      obtain ⟨size, hsize⟩ := exists_of_mod_one hrest
      rw [hsize] at hparts
      exact h ⟨negative, size, hparts⟩
    rw [if_neg hrest, if_neg hrest]

/-- The integer of a value is there exactly for whole numbers. -/
theorem wholeValue?_eq_some_iff {n : ℤ} :
    wholeValue? x = some n ↔ ∃ negative size, IsWhole x negative size ∧ n = signed negative size := by
  unfold wholeValue? IsWhole
  constructor
  · intro h
    split at h
    · next negative units hparts =>
      split at h
      · next hrest =>
        obtain ⟨size, hsize⟩ := exists_of_mod_one hrest
        rw [hsize] at hparts h
        rw [← Int.natCast_ediv, Nat.mul_div_cancel size one_pos] at h
        exact ⟨negative, size, hparts, (Option.some.inj h).symm⟩
      · cases h
    · cases h
  · rintro ⟨negative, size, hparts, rfl⟩
    rw [hparts]
    dsimp only
    rw [if_pos (mod_one_of_whole size), ← Int.natCast_ediv, Nat.mul_div_cancel size one_pos]
    rfl

/-! ## Zero -/

/-- Only the zeros have no units. -/
theorem unitsOfBits_eq_zero {bits : Nat} (h : unitsOfBits bits = 0) : bits = 0 :=
  unitsOfBits_strictMono.injective (h.trans (by decide : unitsOfBits 0 = 0).symm)

/-- Minus zero has its sign and nothing else. -/
theorem toBits_of_minusZero (h : IsWhole x true 0) : x.toBits = 0x8000000000000000 := by
  have hlt := x.toBits.toNat_lt
  unfold IsWhole parts at h
  dsimp only at h
  split at h
  · cases h
  · split at h
    · cases h
    · rw [Parts.finite.injEq, Nat.zero_mul] at h
      obtain ⟨hsign, hunits⟩ := h
      have hmagnitude : x.toBits.toNat % signBit = 0 := unitsOfBits_eq_zero hunits
      have hset : signBit ≤ x.toBits.toNat := of_decide_eq_true hsign
      unfold signBit at hmagnitude hset
      apply UInt64.toNat_inj.mp
      show x.toBits.toNat = 9223372036854775808
      omega

/-! ## Integers -/

/-- An integer is written as a size after a sign; zero has no sign. -/
theorem toString_signed (h : negative = true → size ≠ 0) :
    toString (signed negative size) = signText negative ++ toString size := by
  cases negative with
  | false => exact (String.empty_append).symm
  | true =>
    obtain ⟨k, rfl⟩ := Nat.exists_eq_succ_of_ne_zero (h rfl)
    rfl

/-- Below `2 ^ 63` a machine integer is the integer itself. -/
theorem toInt_ofInt {n : ℤ} (h : n.natAbs < signBit) : (Int64.ofInt n).toInt = n := by
  unfold signBit at h
  exact Int64.toInt_ofInt_of_le (by omega) (by omega)

/-- A whole number is written with its exact digits, whether or not it is one of the machine
    integers. -/
theorem literalText_signed {n : ℤ} (h : wholeValue? x = some n) :
    literalText x = toString n ++ ".0" := by
  unfold literalText
  rw [h]
  dsimp only
  split
  · next hfits => rw [toInt_ofInt hfits]
  · rfl

/-! ## Main statement -/

/-- For every value but minus zero, the literal of a token and the text in a tree are the
    same: what is printed, after which `.0` stands if the value is a whole number.  Machine
    integers are used for whole numbers of a size below `2 ^ 63` alone, they lose nothing
    of these, and their digits are the exact ones. -/
theorem notations_agree (hx : x.toBits ≠ 0x8000000000000000) :
    literalText x = treeText x ∧
    (∀ negative size, IsWhole x negative size → treeText x = printed x ++ ".0" ∧
      printed x = signText negative ++ toString size) ∧
    ((¬∃ negative size, IsWhole x negative size) → treeText x = printed x) ∧
    ∀ n, wholeValue? x = some n → (∃ negative size, IsWhole x negative size ∧
        n = signed negative size) ∧
      (n.natAbs < 2 ^ 63 → (Int64.ofInt n).toInt = n ∧
        literalText x = toString (Int64.ofInt n).toInt ++ ".0" ∧
        toString (Int64.ofInt n).toInt = printed x) := by
  have hwhole (negative : Bool) (size : Nat) (h : IsWhole x negative size) :
      treeText x = printed x ++ ".0" ∧ printed x = signText negative ++ toString size := by
    unfold treeText printed
    rw [positionalText_whole h, positionalText_whole h]
    exact ⟨rfl, rfl⟩
  have hdigits (n : ℤ) (h : wholeValue? x = some n) : toString n = printed x := by
    obtain ⟨negative, size, hsize, rfl⟩ := wholeValue?_eq_some_iff.mp h
    rw [(hwhole negative size hsize).2, toString_signed]
    rintro rfl rfl
    exact hx (toBits_of_minusZero hsize)
  have hother : (¬∃ negative size, IsWhole x negative size) → treeText x = printed x := fun h =>
    positionalText_congr h _ _
  refine ⟨?_, hwhole, hother, fun n hn => ⟨wholeValue?_eq_some_iff.mp hn, fun hsmall => ?_⟩⟩
  · cases hn : wholeValue? x with
    | some n =>
      obtain ⟨negative, size, hsize, -⟩ := wholeValue?_eq_some_iff.mp hn
      rw [literalText_signed hn, hdigits n hn, (hwhole negative size hsize).1]
    | none =>
      have hnot : ¬∃ negative size, IsWhole x negative size := by
        rintro ⟨negative, size, hsize⟩
        rw [wholeValue?_eq_some_iff.mpr ⟨negative, size, hsize, rfl⟩] at hn
        cases hn
      rw [hother hnot, literalText, hn]
  · have hsame : (Int64.ofInt n).toInt = n := toInt_ofInt hsmall
    rw [hsame]
    exact ⟨rfl, literalText_signed hn, hdigits n hn⟩

/-- The first whole number that is no machine integer, and the last one before it. -/
theorem notations_agree_bound : ∃ x y : Float,
    x.toBits ≠ 0x8000000000000000 ∧ IsWhole x false (2 ^ 63) ∧
    y.toBits ≠ 0x8000000000000000 ∧ IsWhole y false (2 ^ 63 - 1024) ∧
    literalText x = "9223372036854775808.0" ∧ treeText x = "9223372036854775808.0" ∧
    literalText y = "9223372036854774784.0" ∧ (Int64.ofInt (2 ^ 63 - 1024)).toInt = 2 ^ 63 - 1024 := by
  have hx : IsWhole (ofPattern 0x43e0000000000000) false (2 ^ 63) := by
    unfold IsWhole
    decide +kernel
  have hy : IsWhole (ofPattern 0x43dfffffffffffff) false (2 ^ 63 - 1024) := by
    unfold IsWhole
    decide +kernel
  have hbits : (ofPattern 0x43e0000000000000).toBits ≠ 0x8000000000000000 := by decide +kernel
  have hbits' : (ofPattern 0x43dfffffffffffff).toBits ≠ 0x8000000000000000 := by decide +kernel
  obtain ⟨hsame, hwhole, -⟩ := notations_agree hbits
  obtain ⟨hprinted, hdigits⟩ := hwhole false _ hx
  obtain ⟨-, -, -, hinteger⟩ := notations_agree hbits'
  obtain ⟨-, hsmall⟩ := hinteger (2 ^ 63 - 1024)
    (wholeValue?_eq_some_iff.mpr ⟨false, _, hy, by decide⟩)
  obtain ⟨hkept, hliteral, -⟩ := hsmall (by decide)
  rw [hkept] at hliteral
  have htext : treeText (ofPattern 0x43e0000000000000) = "9223372036854775808.0" := by
    rw [hprinted, hdigits]
    decide
  exact ⟨_, _, hbits, hx, hbits', hy, hsame.trans htext, htext, hliteral, hkept⟩

end Lox.Number
