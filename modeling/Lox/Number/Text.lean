/-
  Lox.Number.Text

  How numbers are written.  Three notations are positional and differ in what
  stands after a whole number and in the sign of zero:

    * `printed` — what `print` shows: `3`, `-0`, `0.5`;
    * `treeText` — inside a syntax tree: `3.0`, `-0.0`, `0.5`;
    * `literalText` — the literal column of a token listing: `3.0`, `0.0`, `0.5`.

  Whole numbers have all their exact digits and other numbers the fewest digits
  that read back, never with an exponent.  The fourth, `jsonText`, is the number
  notation of JSON, with an exponent for very large and very small values.
-/
import Lox.Number.Decimal

namespace Lox.Number

/-! ## Pieces of a numeral -/

/-- A run of zeros. -/
def zeros (count : Nat) : String := String.ofList (List.replicate count '0')

/-- The minus sign of a negative number. -/
def signText (negative : Bool) : String := if negative then "-" else ""

/-- The numeral without an exponent, with a point only before a fraction. -/
def Decimal.positional (d : Decimal) : String :=
  let digits := toString d.digits
  match d.exponent with
  | .ofNat e => digits ++ zeros e
  | .negSucc e =>
    let cs := digits.toList
    let places := e + 1
    if places < cs.length then
      String.ofList (cs.take (cs.length - places)) ++ "."
        ++ String.ofList (cs.drop (cs.length - places))
    else "0." ++ zeros (places - cs.length) ++ digits

/-- The numeral with one digit before the point and a signed exponent. -/
def Decimal.scientific (d : Decimal) : String :=
  let cs := (toString d.digits).toList
  let place := d.exponent + (cs.length - 1 : Nat)
  let fraction := if cs.length ≤ 1 then "" else "." ++ String.ofList (cs.drop 1)
  let sign := if place < 0 then "-" else "+"
  String.ofList (cs.take 1) ++ fraction ++ "e" ++ sign ++ toString place.natAbs

/-! ## Positional notations -/

/-- Writes infinities and fractions alike in all positional notations, and lets
    `whole` write the whole numbers from their sign and exact size. -/
def positionalText (whole : Bool → Nat → String) (x : Float) : String :=
  match parts x with
  | .nan => "NaN"
  | .infinite negative => signText negative ++ "inf"
  | .finite negative units =>
    if units % one = 0 then whole negative (units / one)
    else signText negative ++ (shortest .up (magnitudeBits x)).positional

/-- A number as the language prints it. -/
def printed (x : Float) : String :=
  positionalText (fun negative size => signText negative ++ toString size) x

/-- A number inside the text of a syntax tree: whole numbers end in `.0`. -/
def treeText (x : Float) : String :=
  positionalText (fun negative size => signText negative ++ toString size ++ ".0") x

/-- A number in the literal column of a token: whole numbers end in `.0` and are
    written as integers, machine integers while they fit, so that zero has no
    sign. -/
def literalText (x : Float) : String :=
  match wholeValue? x with
  | some n =>
    if n.natAbs < signBit then toString (Int64.ofInt n).toInt ++ ".0" else toString n ++ ".0"
  | none => printed x

/-! ## JSON -/

/-- A number in JSON: `null` unless finite, exponents of the first digit from -5
    to 15 written without exponent and with a digit after the point, all others
    with one. -/
def jsonText (x : Float) : String :=
  match parts x with
  | .nan | .infinite _ => "null"
  | .finite negative units =>
    if units = 0 then signText negative ++ "0.0"
    else
      let d := shortest .even (magnitudeBits x)
      let place := d.exponent + (digitCount d.digits - 1 : Nat)
      let body :=
        if -5 ≤ place ∧ place ≤ 15 then
          if 0 ≤ d.exponent then d.positional ++ ".0" else d.positional
        else d.scientific
      signText negative ++ body

end Lox.Number
