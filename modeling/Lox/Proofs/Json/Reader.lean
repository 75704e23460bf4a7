/-
  Lox.Proofs.Json.Reader

  A reader for JSON.

    * `Json` — the values of JSON; a number keeps its decimal numeral, so that nothing is
      rounded while reading;
    * `Json.string?`, `Json.number?`, `Json.value?` — a piece at the beginning of a text,
      and the text behind it;
    * `Json.read?` — a whole text as one value.

  This is the whole grammar, with blanks, all escapes, surrogate pairs and exponents, and
  not only the part of it in which listings are written.
-/
import Lox.Number.Decimal

namespace Lox

/-- The values of JSON. -/
inductive Json where
  | null
  | bool (value : Bool)
  | number (negative : Bool) (size : Number.Decimal)
  | string (content : String)
  | array (items : List Json)
  /-- The members in the order in which they are written. -/
  | object (members : List (String × Json))

namespace Json

/-! ## Strings -/

/-- A part of a string: a character, or the UTF-16 unit that an escape stands for. -/
inductive Part where
  | char (c : Char)
  | unit (n : Nat)
deriving DecidableEq, Repr

/-- The character that a backslash and a letter stand for. -/
def escaped? (letter : Char) : Option Char :=
  match letter with
  | '"' => some '"'
  | '\\' => some '\\'
  | '/' => some '/'
  | 'b' => some '\x08'
  | 'f' => some '\x0c'
  | 'n' => some '\n'
  | 'r' => some '\r'
  | 't' => some '\t'
  | _ => none

/-- The value of a hexadecimal digit. -/
def hexValue? (c : Char) : Option Nat :=
  if c.isDigit then some (c.toNat - '0'.toNat)
  else if 'a' ≤ c ∧ c ≤ 'f' then some (c.toNat - 'a'.toNat + 10)
  else if 'A' ≤ c ∧ c ≤ 'F' then some (c.toNat - 'A'.toNat + 10)
  else none

/-- The unit that four hexadecimal digits write. -/
def unit? (a b c d : Char) : Option Nat := do
  let a ← hexValue? a
  let b ← hexValue? b
  let c ← hexValue? c
  let d ← hexValue? d
  return ((a * 16 + b) * 16 + c) * 16 + d

/-- Puts a part before those of the rest. -/
def prepend (part : Part) (rest : Option (List Part × List Char)) :
    Option (List Part × List Char) :=
  rest.map fun found => (part :: found.1, found.2)

/-- The parts of a string, up to its closing quote.  Control characters are not allowed. -/
def parts? : List Char → Option (List Part × List Char)
  | [] => none
  | '\\' :: 'u' :: a :: b :: c :: d :: rest =>
    (unit? a b c d).bind fun n => prepend (.unit n) (parts? rest)
  | '\\' :: letter :: rest => (escaped? letter).bind fun c => prepend (.char c) (parts? rest)
  | c :: rest =>
    if c = '"' then some ([], rest)
    else if c = '\\' ∨ c.toNat < 0x20 then none
    else prepend (.char c) (parts? rest)

/-- A unit that stands for a character only with one behind it. -/
def IsHigh (n : Nat) : Prop := 0xD800 ≤ n ∧ n < 0xDC00

/-- A unit that stands for a character only with one before it. -/
def IsLow (n : Nat) : Prop := 0xDC00 ≤ n ∧ n < 0xE000

instance (n : Nat) : Decidable (IsHigh n) := inferInstanceAs (Decidable (_ ∧ _))

instance (n : Nat) : Decidable (IsLow n) := inferInstanceAs (Decidable (_ ∧ _))

/-- The characters of a string.  Surrogates have to come in pairs. -/
def characters? : List Part → Option (List Char)
  | [] => some []
  | .char c :: parts => (characters? parts).map (c :: ·)
  | .unit high :: .unit low :: parts =>
    if IsHigh high then
      if IsLow low then
        (characters? parts).map
          (Char.ofNat (0x10000 + (high - 0xD800) * 0x400 + (low - 0xDC00)) :: ·)
      else none
    else if IsLow high then none
    else (characters? (.unit low :: parts)).map (Char.ofNat high :: ·)
  | .unit n :: parts =>
    if IsHigh n ∨ IsLow n then none else (characters? parts).map (Char.ofNat n :: ·)

/-- A string, behind its opening quote. -/
def string? (cs : List Char) : Option (String × List Char) := do
  let (parts, rest) ← parts? cs
  let content ← characters? parts
  return (String.ofList content, rest)

/-! ## Numbers -/

/-- One digit or more. -/
def digits? (cs : List Char) : Option (List Char × List Char) :=
  if cs.takeWhile Char.isDigit = [] then none
  else some (cs.takeWhile Char.isDigit, cs.dropWhile Char.isDigit)

/-- The digits before the point.  Only a single zero may stand first. -/
def whole? (cs : List Char) : Option (List Char × List Char) := do
  let (digits, rest) ← digits? cs
  if digits.head? = some '0' ∧ digits ≠ ['0'] then none else some (digits, rest)

/-- The digits behind the point, if there is one. -/
def fraction? : List Char → Option (List Char × List Char)
  | [] => some ([], [])
  | c :: cs => if c = '.' then digits? cs else some ([], c :: cs)

/-- The exponent, if there is one. -/
def exponent? : List Char → Option (Int × List Char)
  | [] => some (0, [])
  | c :: cs =>
    if c = 'e' ∨ c = 'E' then do
      let (digits, rest) ←
        digits? (if cs.head? = some '-' ∨ cs.head? = some '+' then cs.tail else cs)
      let size := Number.Decimal.ofDigits digits
      return (if cs.head? = some '-' then -size else size, rest)
    else some (0, c :: cs)

/-- A number, behind its sign. -/
def number? (negative : Bool) (cs : List Char) : Option (Json × List Char) := do
  let (whole, cs) ← whole? cs
  let (fraction, cs) ← fraction? cs
  let (exponent, cs) ← exponent? cs
  let size := Number.Decimal.ofDigits (whole ++ fraction)
  return (.number negative ⟨size, exponent - fraction.length⟩, cs)

/-! ## Values -/

/-- The characters that may stand between the pieces. -/
def isBlank (c : Char) : Bool := c = ' ' || c = '\t' || c = '\n' || c = '\r'

/-- A text without the blanks before it. -/
def skip (cs : List Char) : List Char := cs.dropWhile isBlank

/-- A value that is written as a word. -/
def word? (word : String) (value : Json) (cs : List Char) : Option (Json × List Char) :=
  if word.toList <+: cs then some (value, cs.drop word.length) else none

mutual

/-- A value.  Every step takes a character of the text, so its length is fuel enough. -/
def value? : Nat → List Char → Option (Json × List Char)
  | 0, _ => none
  | fuel + 1, cs =>
    match skip cs with
    | [] => none
    | c :: cs =>
      if c = '"' then (string? cs).map fun found => (.string found.1, found.2)
      else if c = '\x7b' then
        if (skip cs).head? = some '\x7d' then some (.object [], (skip cs).tail)
        else (members? fuel cs).map fun found => (.object found.1, found.2)
      else if c = '[' then
        if (skip cs).head? = some ']' then some (.array [], (skip cs).tail)
        else (items? fuel cs).map fun found => (.array found.1, found.2)
      else if c = '-' then number? true cs
      else if c.isDigit then number? false (c :: cs)
      else (word? "null" .null (c :: cs)).or
        ((word? "true" (.bool true) (c :: cs)).or (word? "false" (.bool false) (c :: cs)))

/-- The members of an object, up to its end. -/
def members? : Nat → List Char → Option (List (String × Json) × List Char)
  | 0, _ => none
  | fuel + 1, cs =>
    match skip cs with
    | [] => none
    | c :: cs =>
      if c = '"' then do
        let (name, cs) ← string? cs
        if (skip cs).head? = some ':' then do
          let (value, cs) ← value? fuel (skip cs).tail
          if (skip cs).head? = some ',' then do
            let (members, cs) ← members? fuel (skip cs).tail
            return ((name, value) :: members, cs)
          else if (skip cs).head? = some '\x7d' then some ([(name, value)], (skip cs).tail)
          else none
        else none
      else none

/-- The items of an array, up to its end. -/
def items? : Nat → List Char → Option (List Json × List Char)
  | 0, _ => none
  | fuel + 1, cs => do
    let (value, cs) ← value? fuel cs
    if (skip cs).head? = some ',' then do
      let (items, cs) ← items? fuel (skip cs).tail
      return (value :: items, cs)
    else if (skip cs).head? = some ']' then some ([value], (skip cs).tail)
    else none

end

/-- A whole text as one value. -/
def read? (cs : List Char) : Option Json :=
  match value? (cs.length + 1) cs with
  | some (value, rest) => if skip rest = [] then some value else none
  | none => none

example : read? "[ \"\\u00e9\\ud83d\\ude00\\/\" , -1.50e+2 ]".toList =
    some (.array [.string "é😀/", .number true ⟨150, 0⟩]) := by cbv

end Json

end Lox
