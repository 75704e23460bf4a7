/-
  Lox.Proofs.Lexing.LineEnds

  A source text up to the end of a line.

    * `Piece.first_lineEnd` — a piece before the end of a line is the same whatever the
      next lines are, unless it is a string that is still open;
    * `pieces_lineEnd` — so two texts with a line end between them are cut into the
      pieces of the one and those of the other;
    * `itemsOf_append` — the items of pieces in a row;
    * `scan_eq` — the end mark stands behind all items, on the last line.
-/
import Lox.Proofs.Lexing.Characters
import Lox.Proofs.Lexing.Segments

namespace Lox

namespace Piece

/-! ## Runs of characters -/

section

variable {P : Char → Bool} (hP : P '\n' = false) (cs below : List Char)
include hP

/-- A run of characters that a line end is none of does not go on behind it. -/
theorem takeWhile_lineEnd : (cs ++ '\n' :: below).takeWhile P = cs.takeWhile P := by
  induction cs with
  | nil => simp [hP]
  | cons c cs ih =>
    rw [List.cons_append, List.takeWhile_cons, List.takeWhile_cons, ih]

theorem dropWhile_lineEnd :
    (cs ++ '\n' :: below).dropWhile P = cs.dropWhile P ++ '\n' :: below := by
  induction cs with
  | nil => simp [hP]
  | cons c cs ih =>
    rw [List.cons_append, List.dropWhile_cons, List.dropWhile_cons, ih]
    split <;> rfl

end

/-- What comes next is the same where it is no line end. -/
theorem head?_lineEnd {c : Char} (hc : c ≠ '\n') (cs below : List Char) :
    (cs ++ '\n' :: below).head? = some c ↔ cs.head? = some c := by
  cases cs with
  | nil => simpa using hc.symm
  | cons d cs => exact Iff.rfl

/-! ## One piece -/

theorem fraction_lineEnd (cs below : List Char) : fraction (cs ++ '\n' :: below) = fraction cs := by
  match cs with
  | [] => rfl
  | [c] =>
    -- A point at the end of a line has no digit behind it.
    by_cases hc : c = '.'
    · subst hc
      rfl
    · simp [fraction, hc]
  | c :: d :: cs =>
    by_cases hc : c = '.'
    · subst hc
      simp only [List.cons_append, fraction, takeWhile_lineEnd (P := isDigit) (by decide)]
    · simp [fraction, hc]

theorem ofDigits_lineEnd (cs below : List Char) :
    ofDigits (cs ++ '\n' :: below) = ((ofDigits cs).1, (ofDigits cs).2 ++ '\n' :: below) := by
  have hdigit : isDigit '\n' = false := by decide
  have hlength := congrArg List.length (fraction_append (cs.dropWhile isDigit))
  rw [List.length_append] at hlength
  simp only [ofDigits, takeWhile_lineEnd hdigit, dropWhile_lineEnd hdigit, fraction_lineEnd]
  rw [List.drop_append_of_le_length (by omega)]

theorem ofWord_lineEnd (cs below : List Char) :
    ofWord (cs ++ '\n' :: below) = ((ofWord cs).1, (ofWord cs).2 ++ '\n' :: below) := by
  have hpart : isNamePart '\n' = false := by decide
  simp only [ofWord, takeWhile_lineEnd hpart, dropWhile_lineEnd hpart]

theorem ofComment_lineEnd (cs below : List Char) :
    ofComment (cs ++ '\n' :: below) = ((ofComment cs).1, (ofComment cs).2 ++ '\n' :: below) := by
  have hend : decide ('\n' ≠ '\n') = false := by decide
  simp only [ofComment, takeWhile_lineEnd (P := fun c => decide (c ≠ '\n')) hend,
    dropWhile_lineEnd (P := fun c => decide (c ≠ '\n')) hend]

/-- A string that is closed ends at its quote. -/
theorem ofQuote_lineEnd {cs : List Char}
    (hclosed : ∀ text, (ofQuote cs).1 ≠ .fault .unterminatedString text) (below : List Char) :
    ofQuote (cs ++ '\n' :: below) = ((ofQuote cs).1, (ofQuote cs).2 ++ '\n' :: below) := by
  unfold ofQuote at hclosed ⊢
  dsimp only at hclosed ⊢
  cases hrest : cs.dropWhile (· ≠ '"') with
  | nil =>
    simp only [hrest] at hclosed
    exact absurd rfl (hclosed _)
  | cons close rest =>
    have hown (c : Char) (hc : c ∈ cs.takeWhile (· ≠ '"')) : decide (c ≠ '"') = true :=
      List.mem_takeWhile_imp (p := (· ≠ '"')) hc
    -- The text up to the quote is followed by the quote in both texts.
    have hstop :
        (close :: rest ++ '\n' :: below).head?.any (fun c => decide (c ≠ '"')) = false := by
      have hend := head_dropWhile_any (fun c => decide (c ≠ '"')) cs
      rw [hrest] at hend
      exact hend
    obtain ⟨htake, hdrop⟩ := takeWhile_append_stop _ hown hstop
    have hsplit : cs ++ '\n' :: below =
        cs.takeWhile (· ≠ '"') ++ (close :: rest ++ '\n' :: below) := by
      rw [← hrest, ← List.append_assoc, List.takeWhile_append_dropWhile]
    rw [hsplit, htake, hdrop]
    rfl

theorem ofSymbol_lineEnd (s : Symbol) (c : Char) (cs below : List Char) :
    ofSymbol s c (cs ++ '\n' :: below) =
      ((ofSymbol s c cs).1, (ofSymbol s c cs).2 ++ '\n' :: below) := by
  cases cs with
  | nil => cases s <;> rfl
  | cons d cs =>
    unfold ofSymbol
    by_cases hd : d = '='
    · subst hd
      cases s <;> rfl
    · cases s.withEqual? with
      | none => rfl
      | some both => simp [hd]

/-- Unless it is a string that is still open, a piece before the end of a line is the same
    whatever the lines below are. -/
theorem first_lineEnd {c : Char} {cs : List Char}
    (hclosed : ∀ text, (first c cs).1 ≠ .fault .unterminatedString text) (below : List Char) :
    first c (cs ++ '\n' :: below) = ((first c cs).1, (first c cs).2 ++ '\n' :: below) := by
  -- A slash at the end of a line begins no comment, whatever the next line begins with.
  have hslash := head?_lineEnd (by decide : '/' ≠ '\n') cs below
  unfold first at hclosed ⊢
  simp only [hslash]
  split_ifs at hclosed ⊢ with hblank hquote hcomment hdigit hname
  · rfl
  · exact ofQuote_lineEnd hclosed below
  · exact ofComment_lineEnd (c :: cs) below
  · exact ofDigits_lineEnd (c :: cs) below
  · exact ofWord_lineEnd (c :: cs) below
  · cases Symbol.ofChar? c with
    | none => rfl
    | some s => exact ofSymbol_lineEnd s c cs below

end Piece

/-! ## All pieces -/

/-- Texts with a line end between them are cut one after the other, if no string is open at
    the end of the first one. -/
theorem pieces_lineEnd {cs : List Char}
    (hclosed : ∀ text, Piece.fault .unterminatedString text ∉ pieces cs) (below : List Char) :
    pieces (cs ++ '\n' :: below) = pieces cs ++ .blank ['\n'] :: pieces below := by
  have hbelow : pieces ('\n' :: below) = .blank ['\n'] :: pieces below := by
    rw [pieces]
    rfl
  fun_induction pieces cs with
  | case1 => exact hbelow
  | case2 c cs ih =>
    have hopen : ∀ text, (Piece.first c cs).1 ≠ .fault .unterminatedString text :=
      fun text heq => hclosed text (heq ▸ List.mem_cons_self)
    have hfirst := Piece.first_lineEnd hopen below
    rw [List.cons_append, pieces, hfirst, List.cons_append,
      ih fun text hmem => hclosed text (List.mem_cons_of_mem _ hmem)]

/-! ## Items in a row -/

/-- The items of pieces in a row: those of the first ones without their end mark, and those
    of the others on the lines behind. -/
theorem itemsOf_append (line : Nat) (ps qs : List Piece) :
    itemsOf line (ps ++ qs) =
      (itemsOf line ps).dropLast ++ itemsOf (line + newlines (ps.flatMap Piece.text)) qs := by
  induction ps generalizing line with
  | nil => rfl
  | cons p ps ih =>
    have hline : line + newlines p.text + newlines (ps.flatMap Piece.text) =
        line + newlines ((p :: ps).flatMap Piece.text) := by
      simp only [newlines, List.flatMap_cons, List.count_append]
      omega
    -- There is always an end mark, which is what gives way to the items behind.
    have hne : itemsOf (line + newlines p.text) ps ≠ [] := by
      rw [itemsOf_eq]
      simp
    rw [List.cons_append, itemsOf, itemsOf, ih, hline, List.dropLast_append_of_ne_nil hne,
      List.append_assoc]

/-- The line on which a text ends. -/
def lastLine (source : String) : Nat := 1 + newlines source.toList

/-- The end mark is on the last line. -/
theorem scan_eq (source : String) :
    scan source = (scan source).dropLast ++ [.ok (Token.endMark (lastLine source))] := by
  rw [scan, itemsOf_eq, List.dropLast_concat, flatMap_text_pieces, lastLine]

end Lox
