/-
  Lox.Number.Numeral

  Texts that are numbers.

    * `Numeral.decimal?` — digits, perhaps with a point among them, before or after them,
      and perhaps an exponent;
    * `Numeral.value?` — a number with its sign, also an infinity and a value that is not a
      number; other texts have no value.

  Of these, source texts have digits with a point among them at most.
-/
import Lox.Number.Decimal

namespace Lox.Number.Numeral

/-- Takes the sign off the start of a text: whether it is a minus, and the rest. -/
def signed : List Char → Bool × List Char
  | '-' :: cs => (true, cs)
  | '+' :: cs => (false, cs)
  | cs => (false, cs)

/-- Reads an exponent of ten, zero where there is none. -/
def exponent? : List Char → Option Int
  | [] => some 0
  | mark :: cs =>
    let (negative, digits) := signed cs
    if mark.toLower = 'e' ∧ digits ≠ [] ∧ digits.all Char.isDigit = true then
      some (if negative then -Decimal.ofDigits digits else Decimal.ofDigits digits)
    else none

/-- Reads digits before and after a point, of which either may be missing, and an
    exponent. -/
def decimal? (cs : List Char) : Option Decimal :=
  let whole := cs.takeWhile Char.isDigit
  let rest := cs.dropWhile Char.isDigit
  let (fraction, rest) : List Char × List Char := match rest with
    | '.' :: more => (more.takeWhile Char.isDigit, more.dropWhile Char.isDigit)
    | _ => ([], rest)
  if whole = [] ∧ fraction = [] then none
  else (exponent? rest).map fun e => ⟨Decimal.ofDigits (whole ++ fraction), e - fraction.length⟩

/-- The pattern of a number without its sign. -/
def bits? (cs : List Char) : Option Nat :=
  let word := String.ofList (cs.map Char.toLower)
  if word = "inf" ∨ word = "infinity" then some infinityBits
  else if word = "nan" then some (infinityBits + binade / 2)
  else (decimal? cs).map Decimal.bits

/-- The value of a text that is a number. -/
def value? (text : String) : Option Float :=
  let (negative, cs) := signed text.toList
  (bits? cs).map fun bits => Float.ofBits (UInt64.ofNat (if negative then signBit + bits else bits))

end Lox.Number.Numeral
