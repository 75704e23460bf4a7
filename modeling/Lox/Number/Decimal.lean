/-
  Lox.Number.Decimal

  Decimal numerals, and the shortest one that reads back to a given value.

    * `Decimal` — digits and a power of ten; `Decimal.bits` reads it, rounded to
      nearest.
    * `shortest` — the fewest digits that read back; of two such numerals the
      nearer one, an exact tie going as the caller says.
-/
import Lox.Number.Binary64

namespace Lox.Number

/-- The numeral `digits * 10 ^ exponent`. -/
structure Decimal where
  digits : Nat
  exponent : Int
deriving DecidableEq, Repr

namespace Decimal

/-- The pattern of the value nearest to the numeral. -/
def bits (d : Decimal) : Nat :=
  match d.exponent with
  | .ofNat e => nearestBits (d.digits * Nat.pow 10 e * one) 1
  | .negSucc e => nearestBits (d.digits * one) (Nat.pow 10 (e + 1))

/-- The value nearest to the numeral. -/
def toFloat (d : Decimal) : Float := Float.ofBits (UInt64.ofNat d.bits)

/-- The digit of a character, `0` to `9`. -/
def digitValue (c : Char) : Nat := c.toNat - '0'.toNat

/-- The number that a list of decimal digits writes. -/
def ofDigits (cs : List Char) : Nat := cs.foldl (fun n c => 10 * n + digitValue c) 0

/-- Reads `123` or `123.45`: the digits without their point, and one tenth for
    each digit after it. -/
def ofLexeme (cs : List Char) : Decimal :=
  let whole := cs.takeWhile (· != '.')
  let fraction := (cs.dropWhile (· != '.')).drop 1
  ⟨ofDigits (whole ++ fraction), -(fraction.length : Int)⟩

end Decimal

/-! ## Shortest numerals -/

/-- Which of two equally near numerals is written. -/
inductive Tie where
  | up
  | even
deriving DecidableEq, Repr

/-- The number of decimal digits of `n`, one for zero. -/
def digitCount (n : Nat) : Nat := (Nat.toDigits 10 n).length

/-- The exponent of the first decimal digit of `units / one`. -/
def firstPlace (units : Nat) : Int :=
  if one ≤ units then digitCount (units / one) - 1
  else -(digitCount (one / units) : Int)

/-- The two neighbours of `units / one` among the numerals of `count` digits, the
    nearer one first. -/
def neighbours (tie : Tie) (units count : Nat) : List Decimal :=
  let place := firstPlace units - (count - 1 : Nat)
  let num := units * Nat.pow 10 (-place).toNat
  let den := one * Nat.pow 10 place.toNat
  let low := num / den
  let twice := 2 * (num % den)
  -- A neighbour that carries past its last place is a power of ten: one digit.
  let numeral (digits : Nat) : Decimal :=
    if digits = Nat.pow 10 count then ⟨1, place + count⟩ else ⟨digits, place⟩
  let upFirst := den < twice ∨ (twice = den ∧ (tie = .up ∨ low % 2 = 1))
  if upFirst then [numeral (low + 1), numeral low] else [numeral low, numeral (low + 1)]

/-- All digits of `units / one`. -/
def exactDecimal (units : Nat) : Decimal := ⟨units * Nat.pow 5 1074, -1074⟩

/-- The numeral with the fewest digits, at most seventeen, that reads back to the
    positive value with the pattern `bits`. -/
def shortest (tie : Tie) (bits : Nat) : Decimal :=
  let units := unitsOfBits bits
  -- Seventeen digits tell any two values apart, so the search ends with a hit.
  let tries := (List.range 17).map (· + 1)
  (tries.findSome? fun count => (neighbours tie units count).find? (·.bits = bits)).getD
    (exactDecimal units)

end Lox.Number
