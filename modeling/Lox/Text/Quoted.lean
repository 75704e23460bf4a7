/-
  Lox.Text.Quoted

  Two ways to put a text between double quotes.

    * `Quoted.json` — the string notation of JSON: quotes, backslashes and the
      control characters below U+0020 are escaped, everything else stands as it is.
    * `Quoted.debug` — the notation for showing a value to a programmer: characters
      that cannot be seen and have no letter of their own are written `\u{hex}`.
-/
import Lox.Text.Visible

namespace Lox.Text.Quoted

/-- A number in lower-case hexadecimal digits. -/
def hex (n : Nat) : List Char := Nat.toDigits 16 n

/-- One character inside a JSON string. -/
def jsonChar (c : Char) : List Char :=
  if c = '"' then ['\\', '"']
  else if c = '\\' then ['\\', '\\']
  else if c = '\n' then ['\\', 'n']
  else if c = '\r' then ['\\', 'r']
  else if c = '\t' then ['\\', 't']
  else if c.toNat = 8 then ['\\', 'b']
  else if c.toNat = 12 then ['\\', 'f']
  else if c.toNat < 16 then '\\' :: 'u' :: '0' :: '0' :: '0' :: hex c.toNat
  else if c.toNat < 32 then '\\' :: 'u' :: '0' :: '0' :: hex c.toNat
  else [c]

/-- A text as a JSON string. -/
def json (text : String) : String :=
  String.ofList ('"' :: text.toList.flatMap jsonChar ++ ['"'])

/-- One character inside a quoted value. -/
def debugChar (c : Char) : List Char :=
  if c = '"' then ['\\', '"']
  else if c = '\\' then ['\\', '\\']
  else if c = '\n' then ['\\', 'n']
  else if c = '\r' then ['\\', 'r']
  else if c = '\t' then ['\\', 't']
  else if c.toNat = 0 then ['\\', '0']
  else if isHidden c then '\\' :: 'u' :: '\x7b' :: hex c.toNat ++ ['\x7d']
  else [c]

/-- A text as a quoted value. -/
def debug (text : String) : String :=
  String.ofList ('"' :: text.toList.flatMap debugChar ++ ['"'])

end Lox.Text.Quoted
