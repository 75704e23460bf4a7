/-
  Lox.Proofs.Json.Numbers

  The JSON notation of a finite number is a numeral of JSON that is read as the number.

    * `head?_toDigits` — only zero is written with a zero in front;
    * `Decimal.bits_congr` — numerals with one value are read alike;
    * `exists_numeral_point`, `exists_numeral_exponent` — numerals put together from
      digits;
    * `exists_numeral_value` — both notations are numerals with the value of the decimal;
    * `exists_numeral_jsonText` — so is what is written for a number, and its nearest
      binary64 value is the number itself.
-/
import Lox.Proofs.Json.Pieces
import Lox.Proofs.Number.Literals

namespace Lox.Number

/-! ## Digits -/

theorem head?_toDigits {n : Nat} (hn : n ≠ 0) : (Nat.toDigits 10 n).head? ≠ some '0' := by
  induction n using Nat.strong_induction_on with
  | _ n ih =>
    rcases Nat.lt_or_ge n 10 with hsmall | hgreat
    · rw [Nat.toDigits_of_lt_base hsmall]
      interval_cases n <;> first | exact absurd rfl hn | decide
    · rw [Nat.toDigits_of_base_le (by decide) hgreat, List.head?_append]
      have hfirst := ih (n / 10) (by omega) (by omega)
      cases hhead : (Nat.toDigits 10 (n / 10)).head? with
      | none => exact absurd (List.head?_eq_none_iff.mp hhead) Nat.toDigits_ne_nil
      | some d =>
        rw [hhead] at hfirst
        exact hfirst

/-- The decimal digits of a number. -/
def digitsOf (n : Nat) : Digits :=
  ⟨Nat.toDigits 10 n, Nat.toDigits_ne_nil, fun _ => isDigit_of_mem_toDigits⟩

theorem ofDigits_toDigits (n : Nat) : Decimal.ofDigits (Nat.toDigits 10 n) = n :=
  Nat.ofDigitChars_ten_toDigits

/-- A single zero, before a point or behind it. -/
def zeroDigit : Digits :=
  ⟨['0'], List.cons_ne_nil _ _, fun c hc => by rw [List.mem_singleton.mp hc]; rfl⟩

/-- Numerals with one value are read alike. -/
theorem Decimal.bits_congr {d d' : Decimal} (h : d'.value = d.value) : d'.bits = d.bits := by
  have hread := d'.nearest_bits
  rw [h] at hread
  exact hread.unique d.nearest_bits

theorem Decimal.value_eq_zero {d : Decimal} (h : d.digits = 0) : d.value = 0 := by
  rw [value, h, Nat.cast_zero, zero_mul]

/-! ## Numerals from digits -/

section

variable {whole fraction : List Char} (hwhole : whole ≠ [])
  (hdigit : ∀ c ∈ whole ++ fraction, c.isDigit = true)
  (hleading : whole.head? = some '0' → whole = ['0'])
include hwhole hdigit hleading

/-- Digits around a point are a numeral. -/
theorem exists_numeral_point (hfraction : fraction ≠ []) :
    ∃ numeral : Numeral, numeral.text = whole ++ '.' :: fraction ∧
      numeral.decimal = ⟨Decimal.ofDigits (whole ++ fraction), -(fraction.length : ℤ)⟩ := by
  refine ⟨⟨⟨whole, hwhole, fun c hc => hdigit c (List.mem_append_left _ hc)⟩, hleading,
    some ⟨fraction, hfraction, fun c hc => hdigit c (List.mem_append_right _ hc)⟩, none⟩, ?_, ?_⟩
  · simp [Numeral.text, Numeral.fractionText, Numeral.exponentText]
  · simp [Numeral.decimal, Numeral.places, Numeral.power]

/-- With an exponent there need not be digits behind a point. -/
theorem exists_numeral_exponent (place : ℤ) :
    ∃ numeral : Numeral,
      numeral.text = whole ++ ((if fraction = [] then [] else '.' :: fraction) ++
        'e' :: (if place < 0 then '-' else '+') :: Nat.toDigits 10 place.natAbs) ∧
      numeral.decimal = ⟨Decimal.ofDigits (whole ++ fraction), place - fraction.length⟩ := by
  obtain ⟨behind, hbehind, hplaces⟩ : ∃ behind : Option Digits,
      behind.elim [] (fun ds => '.' :: ds.chars) =
          (if fraction = [] then [] else '.' :: fraction) ∧
        behind.elim [] (·.chars) = fraction := by
    by_cases hnone : fraction = []
    · exact ⟨none, (if_pos hnone).symm, hnone.symm⟩
    · exact ⟨some ⟨fraction, hnone, fun c hc => hdigit c (List.mem_append_right _ hc)⟩,
        (if_neg hnone).symm, rfl⟩
  have hpower : (if decide (place < 0) = true then -(place.natAbs : ℤ) else place.natAbs) =
      place := by
    by_cases h : place < 0
    · rw [if_pos (decide_eq_true h)]
      omega
    · rw [if_neg (by simpa using h)]
      omega
  refine ⟨⟨⟨whole, hwhole, fun c hc => hdigit c (List.mem_append_left _ hc)⟩, hleading, behind,
    some (decide (place < 0), digitsOf place.natAbs)⟩, ?_, ?_⟩
  · simp [Numeral.text, Numeral.fractionText, Numeral.exponentText, hbehind, digitsOf]
  · simp only [Numeral.decimal, Numeral.places, Numeral.power, Option.elim_some, hplaces,
      digitsOf, ofDigits_toDigits, hpower]

end

/-! ## Positional notation -/

/-- A numeral without places, with a zero behind a point. -/
theorem exists_numeral_whole {n : Nat} (hn : n ≠ 0) (e : Nat) :
    ∃ numeral : Numeral,
      numeral.text = (Decimal.positional ⟨n, .ofNat e⟩ ++ ".0").toList ∧
        numeral.decimal.value = Decimal.value ⟨n, .ofNat e⟩ := by
  have hzeros : List.replicate e '0' ++ ['0'] = List.replicate (e + 1) '0' :=
    List.replicate_succ'.symm
  have hdigit : ∀ c ∈ Nat.toDigits 10 n ++ List.replicate e '0' ++ ['0'], c.isDigit = true := by
    intro c hc
    rw [List.append_assoc, hzeros] at hc
    rcases List.mem_append.mp hc with hmem | hmem
    · exact isDigit_of_mem_toDigits hmem
    · rw [List.eq_of_mem_replicate hmem]
      rfl
  have hne : Nat.toDigits 10 n ++ List.replicate e '0' ≠ [] :=
    List.append_ne_nil_of_left_ne_nil Nat.toDigits_ne_nil _
  have hleading : (Nat.toDigits 10 n ++ List.replicate e '0').head? ≠ some '0' := by
    have hfirst := head?_toDigits hn
    obtain ⟨d, ds, hcons⟩ := List.exists_cons_of_ne_nil (Nat.toDigits_ne_nil (n := n) (b := 10))
    rw [hcons] at hfirst ⊢
    exact hfirst
  obtain ⟨numeral, htext, hdecimal⟩ := exists_numeral_point hne hdigit
    (fun h => absurd h hleading) (List.cons_ne_nil '0' [])
  refine ⟨numeral, ?_, ?_⟩
  · rw [htext]
    unfold Decimal.positional zeros
    dsimp only
    rw [Nat.toString_eq_ofList_toDigits]
    simp
  · have hvalue : Decimal.ofDigits (Nat.toDigits 10 n ++ List.replicate e '0' ++ ['0']) =
        n * 10 ^ (e + 1) := by
      rw [List.append_assoc, hzeros, Decimal.ofDigits_eq, wholeValue_append, wholeValue_toDigits,
        wholeValue_zeros, List.length_replicate, Nat.add_zero]
    rw [hdecimal, hvalue]
    simp only [Decimal.value, List.length_singleton]
    push_cast
    rw [pow_succ]
    norm_num
    ring

/-- A numeral with places is written with these, and reading it gives it back. -/
theorem exists_numeral_places {n : Nat} (hn : n ≠ 0) (places : Nat) :
    ∃ numeral : Numeral, numeral.text = (Decimal.positional ⟨n, .negSucc places⟩).toList ∧
      numeral.decimal = ⟨n, .negSucc places⟩ := by
  have hread := ofDigits_toDigits n
  have hfirst := head?_toDigits hn
  have hdigit (c : Char) (hc : c ∈ Nat.toDigits 10 n) := isDigit_of_mem_toDigits hc
  unfold Decimal.positional
  dsimp only
  rw [Nat.toString_eq_ofList_toDigits, String.toList_ofList]
  generalize Nat.toDigits 10 n = cs at hread hfirst hdigit
  by_cases hshort : places + 1 < cs.length
  · -- The point stands between the digits.
    obtain ⟨count, hcount⟩ : ∃ count, cs.length - (places + 1) = count := ⟨_, rfl⟩
    have hbehind : (cs.drop count).length = places + 1 := by
      rw [List.length_drop]
      omega
    have hleading : (cs.take count).head? ≠ some '0' := by
      rwa [List.head?_take, if_neg (by omega)]
    have hwhole : cs.take count ≠ [] :=
      List.ne_nil_of_length_pos (by rw [List.length_take]; omega)
    obtain ⟨numeral, htext, hdecimal⟩ := exists_numeral_point hwhole
      (fun c hc => hdigit c (List.take_append_drop count cs ▸ hc)) (fun h => absurd h hleading)
      (List.ne_nil_of_length_pos (by omega : 0 < (cs.drop count).length))
    refine ⟨numeral, ?_, ?_⟩
    · rw [htext, if_pos hshort, hcount]
      simp
    · rw [hdecimal, List.take_append_drop, hread, hbehind]
      rfl
  · -- Zeros come between the point and the digits.
    obtain ⟨count, hcount⟩ : ∃ count, places + 1 - cs.length = count := ⟨_, rfl⟩
    have hbehind : (List.replicate count '0' ++ cs).length = places + 1 := by
      rw [List.length_append, List.length_replicate]
      omega
    have hzeros : ['0'] ++ (List.replicate count '0' ++ cs) =
        List.replicate (count + 1) '0' ++ cs := rfl
    have hdigits : ∀ c ∈ ['0'] ++ (List.replicate count '0' ++ cs), c.isDigit = true := by
      intro c hc
      rw [hzeros] at hc
      rcases List.mem_append.mp hc with hmem | hmem
      · rw [List.eq_of_mem_replicate hmem]
        rfl
      · exact hdigit c hmem
    obtain ⟨numeral, htext, hdecimal⟩ := exists_numeral_point (List.cons_ne_nil '0' []) hdigits
      (fun _ => rfl) (List.ne_nil_of_length_pos (by omega))
    refine ⟨numeral, ?_, ?_⟩
    · rw [htext, if_neg hshort, hcount]
      simp [zeros]
    · rw [Decimal.ofDigits_eq] at hread
      rw [hdecimal, hzeros, Decimal.ofDigits_eq, wholeValue_append, wholeValue_zeros,
        Nat.zero_mul, Nat.zero_add, hread, hbehind]
      rfl

/-! ## Scientific notation -/

/-- A numeral with an exponent is read as what it was written for. -/
theorem exists_numeral_scientific {d : Decimal} (hd : d.digits ≠ 0) :
    ∃ numeral : Numeral, numeral.text = d.scientific.toList ∧ numeral.decimal = d := by
  obtain ⟨n, e⟩ := d
  have hread := ofDigits_toDigits n
  have hfirst := head?_toDigits (show n ≠ 0 from hd)
  have hdigit (c : Char) (hc : c ∈ Nat.toDigits 10 n) := isDigit_of_mem_toDigits hc
  have hne : Nat.toDigits 10 n ≠ [] := Nat.toDigits_ne_nil
  unfold Decimal.scientific
  dsimp only
  rw [Nat.toString_eq_ofList_toDigits, String.toList_ofList]
  generalize Nat.toDigits 10 n = cs at hread hfirst hdigit hne
  obtain ⟨first, more, rfl⟩ := List.exists_cons_of_ne_nil hne
  obtain ⟨numeral, htext, hdecimal⟩ := exists_numeral_exponent (List.cons_ne_nil first []) hdigit
    (fun h => absurd h hfirst) (e + (more.length : ℤ))
  refine ⟨numeral, ?_, ?_⟩
  · have hplace : e + ((first :: more).length - 1 : ℕ) = e + (more.length : ℤ) := rfl
    rw [htext, hplace]
    generalize e + (more.length : ℤ) = place
    by_cases h : place < 0 <;> cases more <;> simp [h]
  · rw [hdecimal, List.singleton_append, hread, Int.add_sub_cancel]

/-! ## Numbers -/

/-- Whatever notation is chosen, a numeral with the value of the decimal is written. -/
theorem exists_numeral_value {d : Decimal} (hd : d.digits ≠ 0) (plain : Prop)
    [Decidable plain] :
    ∃ numeral : Numeral, numeral.text =
        (if plain then if 0 ≤ d.exponent then d.positional ++ ".0" else d.positional
          else d.scientific).toList ∧
      numeral.decimal.value = d.value := by
  obtain ⟨n, e⟩ := d
  by_cases hplain : plain
  · rw [if_pos hplain]
    cases e with
    | ofNat e =>
      rw [if_pos (show 0 ≤ (Decimal.mk n (.ofNat e)).exponent from Int.natCast_nonneg e)]
      exact exists_numeral_whole hd e
    | negSucc places =>
      obtain ⟨numeral, htext, hdecimal⟩ := exists_numeral_places hd places
      rw [if_neg (show ¬0 ≤ (Decimal.mk n (.negSucc places)).exponent from
        (Int.negSucc_not_nonneg places).mp)]
      exact ⟨numeral, htext, congrArg Decimal.value hdecimal⟩
  · obtain ⟨numeral, htext, hdecimal⟩ := exists_numeral_scientific hd
    rw [if_neg hplain]
    exact ⟨numeral, htext, congrArg Decimal.value hdecimal⟩

/-- Only zero is written by zeros. -/
theorem digits_shortest_ne_zero {bits : Nat} (h : bits < infinityBits)
    (hunits : unitsOfBits bits ≠ 0) : (shortest .even bits).digits ≠ 0 := by
  intro hnone
  have hread := (shortest .even bits).nearest_bits
  have hvalue : (shortest .even bits).value * one = unitsOfBits 0 := by
    rw [Decimal.value_eq_zero hnone, zero_mul, show unitsOfBits 0 = 0 from rfl, Nat.cast_zero]
  rw [hvalue, bits_shortest .even h.le] at hread
  have hsame := hread.unique (nearest_self (Nat.zero_le _))
  rw [hsame] at hunits
  exact hunits rfl

/-- The numeral `0.0`. -/
def zeroNumeral : Numeral := ⟨zeroDigit, fun _ => rfl, some zeroDigit, none⟩

/-- What is written for a finite number is a numeral, and the number is nearest to it. -/
theorem exists_numeral_jsonText {bits : Nat} (h : bits < infinityBits) :
    ∃ numeral : Numeral, numeral.text = (jsonText (ofPattern bits)).toList ∧
      numeral.decimal.bits = bits := by
  have hzero : unitsOfBits 0 = 0 := rfl
  have hnosign (text : String) : signText false ++ text = text := String.empty_append
  unfold jsonText
  rw [parts_ofPattern h, magnitudeBits_ofPattern h.le]
  dsimp only
  by_cases hunits : unitsOfBits bits = 0
  · obtain rfl : bits = 0 := unitsOfBits_strictMono.injective (hunits.trans hzero.symm)
    refine ⟨zeroNumeral, ?_, Decimal.bits_eq h.le ?_⟩
    · rw [if_pos hunits]
      rfl
    · rw [Decimal.value_eq_zero (show zeroNumeral.decimal.digits = 0 from rfl), hzero, zero_mul,
        Nat.cast_zero]
  · have hdigits := digits_shortest_ne_zero h hunits
    have hback := bits_shortest .even h.le
    rw [if_neg hunits, hnosign]
    generalize shortest .even bits = d at hdigits hback ⊢
    generalize d.exponent + ((digitCount d.digits - 1 : ℕ) : ℤ) = place
    obtain ⟨numeral, htext, hvalue⟩ := exists_numeral_value hdigits (-5 ≤ place ∧ place ≤ 15)
    exact ⟨numeral, htext, (Decimal.bits_congr hvalue).trans hback⟩

end Lox.Number
