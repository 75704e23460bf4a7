/-
  Lox.Number.Binary64

  The numbers of the language are IEEE-754 binary64 values.  Every finite one is
  a whole number of *units*, the smallest positive step `2 ^ -1074`, with a sign:
  reading and writing numbers is arithmetic on these counts, in `Nat`.

    * `Parts` — what a binary64 value is: not a number, an infinity, or a sign
      and a count of units.
    * `unitsOfBits` — the count that a bit pattern without its sign stands for.
    * `nearestBits` — the pattern whose value is nearest to a given fraction of
      units, a half going to the even neighbour.
-/

namespace Lox.Number

/-- The number of units in one. -/
def one : Nat := Nat.pow 2 1074

/-- What a binary64 value is. -/
inductive Parts where
  | nan
  | infinite (negative : Bool)
  | finite (negative : Bool) (units : Nat)
deriving DecidableEq, Repr

/-! ## Bit patterns -/

/-- The number of patterns for each exponent, `2 ^ 52`. -/
def binade : Nat := 0x10000000000000

/-- The place of the sign in a pattern, `2 ^ 63`. -/
def signBit : Nat := 0x8000000000000000

/-- The pattern of positive infinity: the first one past the finite values. -/
def infinityBits : Nat := 2047 * binade

/-- The pattern of `x` without its sign. -/
def magnitudeBits (x : Float) : Nat := x.toBits.toNat % signBit

/-- Whether the sign of `x` is set, also for a zero. -/
def isNegative (x : Float) : Bool := signBit ≤ x.toBits.toNat

/-- The units of the value with the unsigned pattern `bits`: with the first exponent
    the pattern counts them itself, and each further exponent but the second doubles
    the step. -/
def unitsOfBits (bits : Nat) : Nat :=
  if bits < binade then bits
  else (binade + bits % binade) * Nat.pow 2 (bits / binade - 1)

/-- Takes a value apart. -/
def parts (x : Float) : Parts :=
  let bits := magnitudeBits x
  if infinityBits < bits then .nan
  else if bits = infinityBits then .infinite (isNegative x)
  else .finite (isNegative x) (unitsOfBits bits)

/-! ## Rounding -/

/-- The quotient of `num` by `den` rounded to a whole number, a half going to
    the even neighbour. -/
def roundHalfEven (num den : Nat) : Nat :=
  let low := num / den
  let twice := 2 * (num % den)
  if twice < den ∨ (twice = den ∧ low % 2 = 0) then low else low + 1

/-- The pattern of the value nearest to `num / den` units.  The step is the power
    of two that leaves 53 binary digits; counting steps past `2 ^ 53` carries into
    the exponent, and past the largest finite value the answer is infinity. -/
def nearestBits (num den : Nat) : Nat :=
  let step := (num / den).log2 - 52
  min (step * binade + roundHalfEven num (den * Nat.pow 2 step)) infinityBits

/-- The value of `x` as an integer, when it has one; both zeros are `0`. -/
def wholeValue? (x : Float) : Option Int :=
  match parts x with
  | .finite negative units =>
    if units % one = 0 then
      let size : Int := units / one
      some (if negative then -size else size)
    else none
  | _ => none

end Lox.Number
