/-
  Lox.Sink

  A place that takes text, perhaps only so many bytes of it.  A sink keeps the
  bytes up to its limit, also of the text that goes past it, and then refuses;
  writing nothing is never refused.
-/
import Lox.Text.Utf8

namespace Lox

/-- The bytes written so far, and how many there may be. -/
structure Sink where
  limit : Option Nat
  bytes : ByteArray

namespace Sink

/-- A sink to which nothing was written yet. -/
def ofLimit (limit : Option Nat) : Sink := ⟨limit, .empty⟩

/-- A sink that takes everything. -/
def unlimited : Sink := ofLimit none

/-- Writes a text.  The answer says whether all of it was taken. -/
def write (s : Sink) (text : String) : Bool × Sink :=
  let added := text.toUTF8
  match s with
  | ⟨none, bytes⟩ => (true, ⟨none, bytes ++ added⟩)
  | ⟨some limit, bytes⟩ =>
    let room := limit - bytes.size
    if added.size ≤ room then (true, ⟨some limit, bytes ++ added⟩)
    else (false, ⟨some limit, bytes ++ added.extract 0 room⟩)

/-- What was written. -/
def text (s : Sink) : String := Text.Utf8.decodeCut s.bytes

/-- What was written after the first `start` bytes. -/
def textFrom (s : Sink) (start : Nat) : String :=
  Text.Utf8.decodeCut (s.bytes.extract start s.bytes.size)

end Sink

end Lox
