/-
  Lox.Text.Utf8

  Texts as bytes.

    * `Utf8.firstFault?` — where a list of bytes stops being UTF-8, and whether
      bytes are wrong there or only missing.
    * `Utf8.decodeCut` — a text of which only some first bytes are there.
-/

namespace Lox.Text.Utf8

/-- Where bytes stop being UTF-8. -/
structure Fault where
  /-- The number of bytes before it that are UTF-8. -/
  index : Nat
  /-- The number of bytes that cannot begin any character, or `none` when the
      bytes end inside a character. -/
  length : Option Nat
deriving DecidableEq, Repr

/-- The second bytes that may follow a first byte of a character with several:
    overlong forms, surrogates and values past U+10FFFF have none. -/
def secondRange (first : UInt8) : Nat × Nat :=
  if first = 0xE0 then (0xA0, 0xBF)
  else if first = 0xED then (0x80, 0x9F)
  else if first = 0xF0 then (0x90, 0xBF)
  else if first = 0xF4 then (0x80, 0x8F)
  else (0x80, 0xBF)

/-- The number of bytes of the character that begins with `first`. -/
def width? (first : UInt8) : Option Nat :=
  let n := first.toNat
  if n < 0x80 then some 1
  else if 0xC2 ≤ n ∧ n ≤ 0xDF then some 2
  else if 0xE0 ≤ n ∧ n ≤ 0xEF then some 3
  else if 0xF0 ≤ n ∧ n ≤ 0xF4 then some 4
  else none

/-- Reads the `wanted` bytes after the first `taken` of a character, each in the
    range that `low` and `high` give for the next one.  The answer is the bytes
    after the character, or how many bytes of it were good (`none` where the
    bytes ended). -/
def continuation (taken low high : Nat) : Nat → List UInt8 → Except (Option Nat) (List UInt8)
  | 0, bytes => .ok bytes
  | _ + 1, [] => .error none
  | wanted + 1, b :: bytes =>
    if low ≤ b.toNat ∧ b.toNat ≤ high then continuation (taken + 1) 0x80 0xBF wanted bytes
    else .error (some taken)

/-- Checks characters one after another, at most `fuel` of them. -/
def faultFrom : (fuel index : Nat) → List UInt8 → Option Fault
  | 0, _, _ => none
  | _ + 1, _, [] => none
  | fuel + 1, index, b :: bytes =>
    match width? b with
    | none => some ⟨index, some 1⟩
    | some width =>
      match continuation 1 (secondRange b).1 (secondRange b).2 (width - 1) bytes with
      | .ok rest => faultFrom fuel (index + width) rest
      | .error length => some ⟨index, length⟩

/-- Where `bytes` stop being UTF-8, if they do: there are no more characters than
    bytes. -/
def firstFault? (bytes : List UInt8) : Option Fault := faultFrom bytes.length 0 bytes

/-- The text whose first bytes are `bytes`.  When they end inside a character, the
    bytes of that character, at most three, are shown as U+FFFD. -/
def decodeCut (bytes : ByteArray) : String :=
  let upTo (missing : Nat) : Option String :=
    String.fromUTF8? (bytes.extract 0 (bytes.size - missing))
  match upTo 0 with
  | some text => text
  | none => (((upTo 1).or (upTo 2)).or (upTo 3)).getD "" ++ "\ufffd"

end Lox.Text.Utf8
