/-
  Lox.Proofs.Number.Literals

  The literal column of a listing can be read again.

    * `toNat_toBits` — a value that is made from a pattern has that pattern;
    * `bits_shortest` — the shortest numeral of a value is read as that value;
    * `one_dvd_nearestBits` — a whole number is read as a whole number, so the numeral of any
      other value has places behind its point;
    * `PointNumeral` — digits, a point and digits, and the number that they write;
    * `literals_rescan` — the literal of a number token is such a numeral, and scanning it
      gives the number again.

  The three ways in which numbers are written, as machine integers, with all digits and
  with the fewest that read back, meet in `pointNumeral_literalText`.
-/
import Lox.Number.Text
import Lox.Proofs.Lexing.Joining
import Lox.Token.Text
import Mathlib

namespace Lox

namespace Number

/-! ## Patterns -/

open Float.Model Float.Model.UnpackedFloat in
/-- Up to infinity no pattern stands for something that is not a number. -/
theorem valid_of_le {b : UInt64} (h : b.toNat ≤ infinityBits) :
    Format.binary64.Valid b.toBitVec := by
  -- With the greatest exponent a pattern is at least infinity, so it is infinity, and that
  -- has no further digits.
  refine ⟨fun hexponent hmantissa => absurd ?_ hmantissa⟩
  have hones : b.toNat / 2 ^ 52 % 2 ^ 11 = 2047 := by
    have htoNat := congrArg BitVec.toNat hexponent
    simpa [unpackExponent, Nat.shiftRight_eq_div_pow] using htoNat
  have hexact : b.toNat % 2 ^ 52 = 0 := by
    unfold infinityBits binade at h
    omega
  rw [unpackMantissa_def]
  apply BitVec.eq_of_toNat_eq
  simpa using hexact

theorem toBits_ofBits {b : UInt64} (h : b.toNat ≤ infinityBits) : (Float.ofBits b).toBits = b := by
  -- A pattern that is valid is kept as it is.
  let x : Float := ⟨⟨b, valid_of_le h⟩⟩
  have hx : x.toBits = b := rfl
  rw [← hx, Float.ofBits_toBits]

/-- The value with an unsigned pattern. -/
def ofPattern (bits : Nat) : Float := Float.ofBits (UInt64.ofNat bits)

section

variable {bits : Nat}

theorem toNat_toBits (h : bits ≤ infinityBits) : (ofPattern bits).toBits.toNat = bits := by
  have hsize : bits < 2 ^ 64 := by
    unfold infinityBits binade at h
    omega
  have htoNat : (UInt64.ofNat bits).toNat = bits := UInt64.toNat_ofNat_of_lt' hsize
  rw [ofPattern, toBits_ofBits (by rwa [htoNat]), htoNat]

theorem magnitudeBits_ofPattern (h : bits ≤ infinityBits) :
    magnitudeBits (ofPattern bits) = bits := by
  have hsign : bits < signBit := by
    unfold infinityBits binade at h
    unfold signBit
    omega
  rw [magnitudeBits, toNat_toBits h, Nat.mod_eq_of_lt hsign]

theorem isNegative_ofPattern (h : bits ≤ infinityBits) : isNegative (ofPattern bits) = false := by
  have hsign : ¬signBit ≤ bits := by
    unfold infinityBits binade at h
    unfold signBit
    omega
  rw [isNegative, toNat_toBits h, decide_eq_false hsign]

theorem parts_ofPattern (h : bits < infinityBits) :
    parts (ofPattern bits) = .finite false (unitsOfBits bits) := by
  unfold parts
  dsimp only
  rw [magnitudeBits_ofPattern h.le, isNegative_ofPattern h.le, if_neg (Nat.not_lt_of_gt h),
    if_neg h.ne]

/-- A pattern of a finite value is below infinity. -/
theorem lt_of_isFinite (hrange : bits ≤ infinityBits) (h : (ofPattern bits).isFinite = true) :
    bits < infinityBits := by
  refine Nat.lt_of_le_of_ne hrange ?_
  rintro rfl
  exact absurd h (by decide)

end

/-! ## Numerals that are exact -/

theorem one_eq_pow : ∃ ones, ones = 1074 ∧ one = 2 ^ ones := by
  obtain ⟨ones, hones⟩ : ∃ ones, ones = 1074 := ⟨_, rfl⟩
  refine ⟨ones, hones, ?_⟩
  unfold one
  rw [← hones, Nat.pow_eq]

/-- A value is nearest to itself. -/
theorem nearest_self {bits : Nat} (hrange : bits ≤ infinityBits) :
    Nearest (unitsOfBits bits) bits := by
  refine ⟨hrange, fun other _ => ?_, fun other _ hne hsame => ?_⟩
  · rw [sub_self, abs_zero]
    exact abs_nonneg _
  · rw [sub_self, abs_zero, abs_eq_zero, sub_eq_zero, Nat.cast_inj] at hsame
    exact absurd (unitsOfBits_strictMono.injective hsame.symm) hne

/-- A numeral that writes a value is read as it. -/
theorem Decimal.bits_eq {d : Decimal} {bits : Nat} (hrange : bits ≤ infinityBits)
    (h : d.value * one = unitsOfBits bits) : d.bits = bits := by
  have hread := d.nearest_bits
  rw [h] at hread
  exact hread.unique (nearest_self hrange)

/-- Halves have as many decimal places as binary ones. -/
theorem places_of_halves (units k : Nat) :
    ((units * 5 ^ k : Nat) : ℚ) * 10 ^ (-(k : ℤ)) * (2 ^ k : Nat) = units := by
  have hten : (10 : ℚ) ^ k = 5 ^ k * 2 ^ k := by
    rw [← mul_pow]
    norm_num
  rw [zpow_neg, zpow_natCast, hten]
  push_cast
  field_simp

/-- All digits of a value write it. -/
theorem value_exactDecimal (units : Nat) : (exactDecimal units).value * one = units := by
  obtain ⟨ones, hones, hone⟩ := one_eq_pow
  have hexponent : (-1074 : ℤ) = -(ones : ℤ) := by omega
  unfold exactDecimal Decimal.value
  rw [hexponent, ← hones, Nat.pow_eq, hone]
  exact places_of_halves units ones

/-- The shortest numeral is read as the value that it is for. -/
theorem bits_shortest (tie : Tie) {bits : Nat} (hrange : bits ≤ infinityBits) :
    (shortest tie bits).bits = bits := by
  unfold shortest
  dsimp only
  cases hfound : ((List.range 17).map (· + 1)).findSome? fun count =>
      (neighbours tie (unitsOfBits bits) count).find? (·.bits = bits) with
  | none => exact Decimal.bits_eq hrange (value_exactDecimal _)
  | some d =>
    -- Only numerals that read back are looked for.
    obtain ⟨count, -, hcount⟩ := List.exists_of_findSome?_eq_some hfound
    have hback := List.find?_some hcount
    exact of_decide_eq_true hback

/-! ## Whole numbers -/

theorem roundHalfEven_of_dvd {num den : Nat} (hden : 0 < den) (h : den ∣ num) :
    roundHalfEven num den = num / den := by
  have hrest : num % den = 0 := Nat.mod_eq_zero_of_dvd h
  unfold roundHalfEven
  dsimp only
  rw [hrest, if_pos (.inl (by omega))]

theorem roundHalfEven_bounds (num den : Nat) :
    num / den ≤ roundHalfEven num den ∧ roundHalfEven num den ≤ num / den + 1 := by
  unfold roundHalfEven
  dsimp only
  split <;> omega

/-- A whole number of ones is read as one: steps beyond one leave a multiple of it, and
    lesser steps leave the number itself. -/
theorem one_dvd_nearestBits {num : Nat} (h : one ∣ num) :
    one ∣ unitsOfBits (nearestBits num 1) := by
  obtain ⟨ones, hones, hone⟩ := one_eq_pow
  rw [hone] at h ⊢
  obtain ⟨hdigits, hleast⟩ := digits_of_step num
  unfold nearestBits
  dsimp only
  rw [Nat.div_one, Nat.one_mul, Nat.pow_eq]
  generalize num.log2 - 52 = step at hdigits hleast ⊢
  obtain ⟨hlow, hhigh⟩ := roundHalfEven_bounds num (2 ^ step)
  rcases Nat.le_total infinityBits (step * binade + roundHalfEven num (2 ^ step)) with hle | hle
  · -- Infinity stands for a power of two beyond one.
    have hinfinity : infinityBits = 2046 * binade + binade := rfl
    have hvalue : unitsOfBits (2046 * binade + binade) = binade * 2 ^ 2046 :=
      unitsOfBits_eq (by omega) (.inl (Nat.le_refl binade))
    rw [Nat.min_eq_right hle, hinfinity, hvalue]
    exact Dvd.dvd.mul_left (pow_dvd_pow 2 (by omega)) binade
  · rw [Nat.min_eq_left hle, unitsOfBits_eq (by omega) (hleast.imp_left hlow.trans')]
    by_cases hstep : ones ≤ step
    · exact Dvd.dvd.mul_left (pow_dvd_pow 2 hstep) _
    · have hle' : step ≤ ones := by omega
      have hdvd : 2 ^ step ∣ num := (pow_dvd_pow 2 hle').trans h
      rwa [roundHalfEven_of_dvd (Nat.two_pow_pos step) hdvd, Nat.div_mul_cancel hdvd]

/-- A numeral without places behind the point is read as a whole number. -/
theorem Decimal.exponent_of_fraction {d : Decimal}
    (h : ¬one ∣ unitsOfBits d.bits) : ∃ places, d.exponent = .negSucc places := by
  obtain ⟨digits, exponent⟩ := d
  cases exponent with
  | ofNat e => exact absurd (one_dvd_nearestBits (Dvd.intro_left _ rfl)) h
  | negSucc e => exact ⟨e, rfl⟩

/-! ## Numerals with a point -/

/-- A numeral with digits on both sides of its point, and the number that it writes. -/
def PointNumeral (text : List Char) (x : ℚ) : Prop :=
  ∃ whole digits, text = whole ++ '.' :: digits ∧
    (whole ≠ [] ∧ ∀ d ∈ whole, d.isDigit) ∧ (digits ≠ [] ∧ ∀ d ∈ digits, d.isDigit) ∧
    decimalValue whole digits = x

/-- Scanned, it is the number whose value is nearest. -/
theorem PointNumeral.spells {text : List Char} {x : ℚ} {bits : Nat} (h : PointNumeral text x)
    (hnearest : Nearest (x * one) bits) : (TokenKind.number (ofPattern bits)).Spells text := by
  obtain ⟨whole, digits, rfl, ⟨hne, hwhole⟩, ⟨hne', hdigits⟩, rfl⟩ := h
  exact .fraction hne hwhole hne' hdigits hnearest

theorem isDigit_of_mem_toDigits {n : Nat} {d : Char} (h : d ∈ Nat.toDigits 10 n) :
    d.isDigit = true :=
  Nat.isDigit_of_mem_toDigits (by decide) (by decide) h

theorem wholeValue_toDigits (n : Nat) : wholeValue (Nat.toDigits 10 n) = n := by
  rw [← Decimal.ofDigits_eq]
  exact Nat.ofDigitChars_ten_toDigits

theorem wholeValue_zeros (count : Nat) : wholeValue (List.replicate count '0') = 0 := by
  induction count with
  | zero => rfl
  | succ count ih =>
    have hzero : wholeValue ['0'] = 0 := rfl
    rw [List.replicate_succ', wholeValue_append, ih, hzero]
    omega

/-- The digits around the point count together, each place behind it a tenth. -/
theorem decimalValue_eq (whole digits : List Char) :
    decimalValue whole digits = wholeValue (whole ++ digits) / 10 ^ digits.length := by
  have hpow : (10 : ℚ) ^ digits.length ≠ 0 := by positivity
  unfold decimalValue
  rw [wholeValue_append]
  push_cast
  field_simp

/-- A numeral with places behind its point is written with these. -/
theorem pointNumeral_of_places {whole digits : List Char} {places : Nat} (hwhole : whole ≠ [])
    (hdigit : ∀ d ∈ whole ++ digits, d.isDigit = true) (hplaces : digits.length = places + 1) :
    PointNumeral (whole ++ '.' :: digits)
      (Decimal.value ⟨wholeValue (whole ++ digits), .negSucc places⟩) := by
  have hne : digits ≠ [] := List.ne_nil_of_length_pos (by omega)
  refine ⟨whole, digits, rfl, ⟨hwhole, fun d hd => hdigit d (List.mem_append_left _ hd)⟩,
    ⟨hne, fun d hd => hdigit d (List.mem_append_right _ hd)⟩, ?_⟩
  rw [decimalValue_eq, hplaces, Decimal.value, zpow_negSucc, div_eq_mul_inv]

/-- A numeral with places has the digits that fit behind the point, or zeros before them. -/
theorem Decimal.pointNumeral_positional (n places : Nat) :
    PointNumeral (Decimal.positional ⟨n, .negSucc places⟩).toList
      (Decimal.value ⟨n, .negSucc places⟩) := by
  have hdigit (d : Char) (hd : d ∈ Nat.toDigits 10 n) := isDigit_of_mem_toDigits hd
  have hread := wholeValue_toDigits n
  unfold positional
  dsimp only
  rw [Nat.toString_eq_ofList_toDigits, String.toList_ofList]
  generalize Nat.toDigits 10 n = cs at hdigit hread ⊢
  by_cases hshort : places + 1 < cs.length
  · obtain ⟨count, hcount⟩ : ∃ count, cs.length - (places + 1) = count := ⟨_, rfl⟩
    have hsplit : cs.take count ++ cs.drop count = cs := List.take_append_drop count cs
    have hfront : (cs.take count).length = count := List.length_take_of_le (by omega)
    have hne : cs.take count ≠ [] := List.ne_nil_of_length_pos (by omega)
    have hbehind : (cs.drop count).length = places + 1 := by
      rw [List.length_drop]
      omega
    have hpoint := pointNumeral_of_places hne (by rwa [hsplit]) hbehind
    rw [hsplit, hread] at hpoint
    rw [if_pos hshort, hcount]
    simpa using hpoint
  · obtain ⟨count, hcount⟩ : ∃ count, places + 1 - cs.length = count := ⟨_, rfl⟩
    have hzero (d : Char) (hd : d ∈ List.replicate (count + 1) '0') : d.isDigit = true := by
      rw [List.eq_of_mem_replicate hd]
      rfl
    have hbehind : (List.replicate count '0' ++ cs).length = places + 1 := by
      rw [List.length_append, List.length_replicate]
      omega
    have hpad : ['0'] ++ (List.replicate count '0' ++ cs) = List.replicate (count + 1) '0' ++ cs :=
      rfl
    have hpoint := pointNumeral_of_places (List.cons_ne_nil '0' []) (by
      rw [hpad]
      exact fun d hd => (List.mem_append.mp hd).elim (hzero d) (hdigit d)) hbehind
    -- Zeros in front do not count.
    rw [hpad, wholeValue_append, wholeValue_zeros, hread, Nat.zero_mul, Nat.zero_add] at hpoint
    rw [if_neg hshort, hcount]
    simpa [zeros] using hpoint

/-- A whole number is written with a zero behind its point. -/
theorem pointNumeral_whole (n : Nat) : PointNumeral (toString n ++ ".0").toList n := by
  have hzero : wholeValue ['0'] = 0 := rfl
  refine ⟨Nat.toDigits 10 n, ['0'], ?_,
    ⟨Nat.toDigits_ne_nil, fun _ => isDigit_of_mem_toDigits⟩, ⟨by simp, by simp⟩, ?_⟩
  · rw [Nat.toString_eq_ofList_toDigits]
    simp
  · unfold decimalValue
    rw [wholeValue_toDigits, hzero]
    simp

/-! ## Literals -/

/-- A whole number is written alike below and beyond the machine integers. -/
theorem literalText_whole {bits : Nat} (h : bits < infinityBits) (hwhole : one ∣ unitsOfBits bits) :
    literalText (ofPattern bits) = toString (unitsOfBits bits / one) ++ ".0" := by
  have hsize : wholeValue? (ofPattern bits) = some ((unitsOfBits bits / one : Nat) : ℤ) := by
    unfold wholeValue?
    rw [parts_ofPattern h]
    dsimp only
    rw [if_pos (Nat.mod_eq_zero_of_dvd hwhole), if_neg Bool.false_ne_true]
    rfl
  unfold literalText
  rw [hsize]
  generalize unitsOfBits bits / one = size
  dsimp only
  split
  · next hfits =>
    -- A machine integer that fits is the integer itself.
    rw [Int.natAbs_natCast] at hfits
    unfold signBit at hfits
    rw [Int64.toInt_ofInt_of_le (by omega) (by omega)]
    rfl
  · rfl

/-- Other numbers are written with the fewest digits that read back. -/
theorem literalText_fraction {bits : Nat} (h : bits < infinityBits)
    (hfraction : ¬one ∣ unitsOfBits bits) :
    literalText (ofPattern bits) = (shortest .up bits).positional := by
  have hrest : unitsOfBits bits % one ≠ 0 := fun hzero => hfraction (Nat.dvd_of_mod_eq_zero hzero)
  unfold literalText printed positionalText wholeValue?
  rw [parts_ofPattern h, magnitudeBits_ofPattern h.le]
  dsimp only
  rw [if_neg hrest]
  dsimp only
  rw [if_neg hrest, signText]
  simp

/-- A finite value is written as a numeral with a point, and is the one nearest to it. -/
theorem pointNumeral_literalText {bits : Nat} (h : bits < infinityBits) :
    ∃ x, PointNumeral (literalText (ofPattern bits)).toList x ∧ Nearest (x * one) bits := by
  by_cases hwhole : one ∣ unitsOfBits bits
  · refine ⟨(unitsOfBits bits / one : Nat), ?_, ?_⟩
    · rw [literalText_whole h hwhole]
      exact pointNumeral_whole _
    · have hexact : ((unitsOfBits bits / one : Nat) : ℚ) * one = unitsOfBits bits := by
        exact_mod_cast Nat.div_mul_cancel hwhole
      rw [hexact]
      exact nearest_self h.le
  · -- The shortest numeral is read as the value, which is no whole number, so it has places
    -- behind its point.
    have hback := bits_shortest .up h.le
    rw [literalText_fraction h hwhole]
    rw [← hback] at hwhole
    obtain ⟨places, hplaces⟩ := Decimal.exponent_of_fraction hwhole
    have hnearest := (shortest .up bits).nearest_bits
    rw [hback] at hnearest
    generalize shortest .up bits = d at hplaces hnearest ⊢
    obtain ⟨n, exponent⟩ := d
    cases hplaces
    exact ⟨_, Decimal.pointNumeral_positional n places, hnearest⟩

end Number

/-- A numeral with a point is all on one line. -/
theorem Number.PointNumeral.newlines_eq_zero {text : List Char} {x : ℚ} (h : PointNumeral text x) :
    newlines text = 0 := by
  obtain ⟨whole, digits, rfl, ⟨-, hwhole⟩, ⟨-, hdigits⟩, -⟩ := h
  have hnone (cs : List Char) (hcs : ∀ d ∈ cs, d.isDigit = true) : '\n' ∉ cs := fun hmem =>
    absurd (hcs _ hmem) (by decide)
  refine List.count_eq_zero.mpr fun hmem => ?_
  rcases List.mem_append.mp hmem with hmem | hmem
  · exact hnone whole hwhole hmem
  · exact hnone digits hdigits (List.mem_of_ne_of_mem (by decide) hmem)

/-- The value of a number token is one of a pattern. -/
theorem TokenKind.Spells.exists_pattern {x : Float} {lexeme : List Char}
    (h : (TokenKind.number x).Spells lexeme) :
    ∃ bits ≤ Number.infinityBits, x = Number.ofPattern bits := by
  cases h with
  | whole _ _ hnearest => exact ⟨_, hnearest.inRange, rfl⟩
  | fraction _ _ _ _ hnearest => exact ⟨_, hnearest.inRange, rfl⟩

/-- The literal of a number token is a numeral with a point and digits around it, and
    nothing else.  Scanning it gives a token with the same value, and the end mark. -/
theorem literals_rescan {source : String} {t : Token} {x : Float}
    (ht : t ∈ tokensOf (scan source)) (hkind : t.kind = .number x) (hfinite : x.isFinite = true) :
    t.text = "NUMBER " ++ t.lexeme ++ " " ++ t.kind.literalText ∧
      (∃ whole digits, t.kind.literalText.toList = whole ++ '.' :: digits ∧
        (whole ≠ [] ∧ ∀ d ∈ whole, d.isDigit) ∧ (digits ≠ [] ∧ ∀ d ∈ digits, d.isDigit)) ∧
      scan t.kind.literalText =
        [.ok ⟨.number x, t.kind.literalText, 1⟩, .ok (Token.endMark 1)] := by
  have hspells : t.kind.Spells t.lexeme.toList := by
    refine (spells_of_mem_scan ht).resolve_left fun hend => ?_
    rw [hkind] at hend
    cases hend.1
  rw [hkind] at hspells
  obtain ⟨bits, hrange, rfl⟩ := hspells.exists_pattern
  have hliteral : t.kind.literalText = Number.literalText (Number.ofPattern bits) := by
    rw [hkind]
    rfl
  have hbits := Number.lt_of_isFinite hrange hfinite
  obtain ⟨y, hpoint, hnearest⟩ := Number.pointNumeral_literalText hbits
  rw [← hliteral] at hpoint
  refine ⟨?_, ?_, ?_⟩
  · rw [Token.text, hkind]
    rfl
  · obtain ⟨whole, digits, htext, hwhole, hdigits, -⟩ := hpoint
    exact ⟨whole, digits, htext, hwhole, hdigits⟩
  · rw [scan_lexeme (hpoint.spells hnearest), hpoint.newlines_eq_zero]

/-- A last zero does not count: `0.10` is written as `0.1`, which is the same number. -/
theorem literals_rescan_tenth :
    ∃ x : Float, x.isFinite = true ∧
      scan "0.10" = [.ok ⟨.number x, "0.10", 1⟩, .ok (Token.endMark 1)] ∧
      scan "0.1" = [.ok ⟨.number x, "0.1", 1⟩, .ok (Token.endMark 1)] := by
  obtain ⟨x, hx⟩ : ∃ x, (Number.Decimal.ofLexeme (['0'] ++ '.' :: ['1', '0'])).toFloat = x :=
    ⟨_, rfl⟩
  have hspells : (TokenKind.number x).Spells "0.10".toList := by
    rw [← hx]
    exact Piece.spells_fraction (by simp) (by simp [Piece.isDigit]) (by simp)
      (by simp [Piece.isDigit])
  have hscan : scan "0.10" = [.ok ⟨.number x, "0.10", 1⟩, .ok (Token.endMark 1)] :=
    scan_lexeme hspells
  have hmem : ⟨.number x, "0.10", 1⟩ ∈ tokensOf (scan "0.10") := by
    rw [mem_tokensOf, hscan]
    exact List.mem_cons_self
  have hfinite : x.isFinite = true := by
    rw [← hx]
    decide +kernel
  have hliteral : Number.literalText x = "0.1" := by
    rw [← hx]
    decide +kernel
  obtain ⟨-, -, hagain⟩ := literals_rescan hmem rfl hfinite
  refine ⟨x, hfinite, hscan, ?_⟩
  rw [← hliteral]
  exact hagain

end Lox
