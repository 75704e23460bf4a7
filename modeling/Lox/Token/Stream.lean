/-
  Lox.Token.Stream

  Scanning on demand: a `Scanner` gives one item at a time, and after the end
  mark nothing any more.
-/
import Lox.Token.Piece

namespace Lox

/-- A position in a source text. -/
structure Scanner where
  rest : List Char
  line : Nat
  /-- Whether the end mark was given. -/
  ended : Bool

namespace Scanner

/-- The start of a source text. -/
def ofSource (source : String) : Scanner := ⟨source.toList, 1, false⟩

/-- The next item, and the position after it. -/
def next (s : Scanner) : Option Item × Scanner :=
  match s with
  | ⟨[], line, ended⟩ =>
    if ended then (none, s) else (some (.ok (Token.endMark line)), ⟨[], line, true⟩)
  | ⟨c :: cs, line, ended⟩ =>
    let piece := (Piece.first c cs).1
    let after : Scanner := ⟨(Piece.first c cs).2, line + newlines piece.text, ended⟩
    match piece.item? after.line with
    | some item => (some item, after)
    | none => next after
termination_by s.rest.length
decreasing_by exact Piece.length_first_lt c cs

/-- How many items there can still be. -/
def remaining (s : Scanner) : Nat := s.rest.length + (if s.ended then 0 else 1)

/-- An item uses up some of the rest. -/
theorem remaining_next_lt {s : Scanner} {item : Item} (h : s.next.1 = some item) :
    s.next.2.remaining < s.remaining := by
  fun_induction next s with
  | case1 line => simp at h
  | case2 line ended hended => simp [remaining, hended]
  | case3 c cs line ended piece after it hit =>
    have := Piece.length_first_lt c cs
    simp only [remaining, after]
    omega
  | case4 c cs line ended piece after hit ih =>
    have := Piece.length_first_lt c cs
    have := ih h
    simp only [remaining, after] at this ⊢
    omega

/-- All items from a position on, and the position after the last. -/
def drain (s : Scanner) : List Item × Scanner :=
  match _given : s.next.1 with
  | none => ([], s.next.2)
  | some item =>
    let rest := drain s.next.2
    (item :: rest.1, rest.2)
termination_by s.remaining
decreasing_by exact remaining_next_lt _given

end Scanner

end Lox
