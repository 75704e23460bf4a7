/-
  Lox.Proofs.Lexing.Segments

  Scanning loses nothing of a source text and makes nothing up, and its lines are
  right.

    * `Gap` — text without tokens: blank characters and comments;
    * `LexicalFault.Covers` — the text that a fault stands for;
    * `Segment` — a gap, or an item with its text; `Segment.Right` says what it has
      to be at its place;
    * `Scanner.items` — what a scanner still has to give, one item for each call.

  The pieces into which a text is cut become segments one by one.  What has to be
  known of a piece is `Piece.right_first`, by cases on how it begins.
-/
import Lox.Token.Stream
import Mathlib.Data.List.Basic
import Mathlib.Data.List.TakeWhile
import Mathlib.Logic.Function.Iterate

namespace Lox

/-! ## What a source text consists of -/

/-- Text without tokens before `after`: blank characters, and comments that run up to a
    line end or to the end of the source. -/
inductive Gap : List Char → List Char → Prop
  | nil {after} : Gap [] after
  | blank {c text after} :
      c = ' ' ∨ c = '\t' ∨ c = '\r' ∨ c = '\n' → Gap text after → Gap (c :: text) after
  | comment {line text after} :
      '\n' ∉ line → text ++ after = [] ∨ (text ++ after).head? = some '\n' → Gap text after →
      Gap ('/' :: '/' :: (line ++ text)) after

/-- The text of a fault before `after`: one character, or everything from an opening
    quote to the end of the source. -/
inductive LexicalFault.Covers : LexicalFault → List Char → List Char → Prop
  | character {c after} : Covers (.unexpectedCharacter c) [c] after
  | string {content} : '"' ∉ content → Covers .unterminatedString ('"' :: content) []

/-- A stretch of source text. -/
inductive Segment where
  | gap (text : List Char)
  | item (text : List Char) (found : Item)

namespace Segment

/-- The characters of a segment. -/
def text : Segment → List Char
  | gap text => text
  | item text _ => text

/-- The item that a segment gives. -/
def item? : Segment → Option Item
  | gap _ => none
  | item _ found => some found

/-- What a segment between `before` and `after` has to be: an item has the line on which
    its text ends. -/
def Right (before after : List Char) : Segment → Prop
  | gap text => Gap text after
  | item text (.ok t) =>
    text ≠ [] ∧ t.kind ≠ .eof ∧ t.lexeme = String.ofList text ∧
      t.line = 1 + (before ++ text).count '\n'
  | item text (.error d) =>
    ∃ cause, d = .lexical (1 + (before ++ text).count '\n') cause ∧ cause.Covers text after

end Segment

/-! ## Single pieces -/

namespace Piece

/-- What a piece before `after` has to be. -/
def Right (after : List Char) : Piece → Prop
  | blank text => Gap text after
  | token kind _ => kind ≠ .eof
  | fault cause text => cause.Covers text after

theorem right_ofQuote (cs : List Char) : (ofQuote cs).1.Right (ofQuote cs).2 := by
  have hcontent : '"' ∉ cs.takeWhile (· ≠ '"') := fun hmem => by
    have := List.mem_takeWhile_imp hmem
    simp at this
  unfold ofQuote
  split
  · exact .string hcontent
  · intro hkind
    cases hkind

/-- A comment leaves the line end behind it. -/
theorem right_ofComment (cs : List Char) :
    (ofComment ('/' :: '/' :: cs)).1.Right (ofComment ('/' :: '/' :: cs)).2 := by
  have hline : '\n' ∉ cs.takeWhile (· ≠ '\n') := fun hmem => by
    have := List.mem_takeWhile_imp hmem
    simp at this
  have hend : cs.dropWhile (· ≠ '\n') = [] ∨ (cs.dropWhile (· ≠ '\n')).head? = some '\n' := by
    have hstop := List.head?_dropWhile_not (· ≠ '\n') cs
    cases h : cs.dropWhile (· ≠ '\n') with
    | nil => exact .inl rfl
    | cons c rest =>
      rw [h] at hstop
      exact .inr (by simpa using hstop)
  have hgap : Gap ('/' :: '/' :: (cs.takeWhile (· ≠ '\n') ++ [])) (cs.dropWhile (· ≠ '\n')) :=
    .comment hline (by simpa using hend) .nil
  simpa [ofComment, Right] using hgap

theorem right_ofWord (cs : List Char) : (ofWord cs).1.Right (ofWord cs).2 := by
  unfold ofWord wordKind
  dsimp only [Right]
  split <;> exact nofun

theorem right_ofSymbol (s : Symbol) (c : Char) (cs : List Char) :
    (ofSymbol s c cs).1.Right (ofSymbol s c cs).2 := by
  unfold ofSymbol
  split <;> exact nofun

/-- The first piece of a text is a gap, a token or a fault as it should be. -/
theorem right_first (c : Char) (cs : List Char) : (first c cs).1.Right (first c cs).2 := by
  unfold first
  split
  · next h =>
    have hblank : c = ' ' ∨ c = '\t' ∨ c = '\r' ∨ c = '\n' := by
      simp only [isBlank, Bool.or_eq_true, decide_eq_true_eq] at h
      grind
    exact .blank hblank .nil
  split
  · exact right_ofQuote cs
  split
  · next h =>
    obtain ⟨rfl, hslash⟩ := h
    obtain ⟨rest, rfl⟩ := List.head?_eq_some_iff.mp hslash
    exact right_ofComment rest
  split
  · exact nofun
  split
  · exact right_ofWord (c :: cs)
  split
  · exact right_ofSymbol _ c cs
  · exact .character

/-- The segment that a piece ending on `line` is. -/
def segment (line : Nat) (p : Piece) : Segment :=
  match p.item? line with
  | none => .gap p.text
  | some item => .item p.text item

@[simp] theorem text_segment (line : Nat) (p : Piece) : (p.segment line).text = p.text := by
  cases p <;> rfl

@[simp] theorem item?_segment (line : Nat) (p : Piece) :
    (p.segment line).item? = p.item? line := by
  unfold segment
  split <;> exact Eq.symm ‹_›

/-- A piece makes a right segment where the line is counted right. -/
theorem right_segment {p : Piece} {before after : List Char} (h : p.Right after)
    (hne : p.text ≠ []) :
    (p.segment (1 + (before ++ p.text).count '\n')).Right before after := by
  cases p with
  | blank text => exact h
  | token kind text => exact ⟨hne, h, rfl, rfl⟩
  | fault cause text => exact ⟨cause, rfl, h⟩

end Piece

/-! ## All pieces -/

/-- The segments of pieces of which the first begins on `line`. -/
def segmentsOf (line : Nat) : List Piece → List Segment
  | [] => []
  | p :: ps => p.segment (line + newlines p.text) :: segmentsOf (line + newlines p.text) ps

theorem flatMap_text_segmentsOf (line : Nat) (ps : List Piece) :
    (segmentsOf line ps).flatMap Segment.text = ps.flatMap Piece.text := by
  induction ps generalizing line with
  | nil => rfl
  | cons p ps ih => rw [segmentsOf, List.flatMap_cons, List.flatMap_cons, ih, Piece.text_segment]

/-- The items of pieces are those of their segments, and the end mark. -/
theorem itemsOf_eq (line : Nat) (ps : List Piece) :
    itemsOf line ps = (segmentsOf line ps).filterMap Segment.item? ++
      [.ok (Token.endMark (line + newlines (ps.flatMap Piece.text)))] := by
  induction ps generalizing line with
  | nil => rfl
  | cons p ps ih =>
    have hline : line + newlines ((p :: ps).flatMap Piece.text) =
        line + newlines p.text + newlines (ps.flatMap Piece.text) := by
      simp only [newlines, List.flatMap_cons, List.count_append]
      omega
    rw [itemsOf, segmentsOf, hline, ih]
    cases h : p.item? (line + newlines p.text) with
    | none => rw [List.filterMap_cons_none (by simpa using h)]; rfl
    | some item => rw [List.filterMap_cons_some (by simpa using h)]; rfl

/-- Every segment of a text is right at its place, behind what stands before the text. -/
theorem right_segmentsOf (cs read : List Char) {before after : List Segment} {s : Segment}
    (h : segmentsOf (1 + newlines read) (pieces cs) = before ++ s :: after) :
    s.Right (read ++ before.flatMap Segment.text) (after.flatMap Segment.text) := by
  -- By induction on the pieces, as each one moves on what was read and the line with it.
  fun_induction pieces cs generalizing read before with
  | case1 => exact absurd h (by simp [segmentsOf])
  | case2 c cs ih =>
    have hline : 1 + newlines read + newlines (Piece.first c cs).1.text =
        1 + newlines (read ++ (Piece.first c cs).1.text) := by
      simp only [newlines, List.count_append]
      omega
    rw [segmentsOf, hline] at h
    cases before with
    | nil =>
      obtain ⟨rfl, rfl⟩ := List.cons.inj h
      rw [flatMap_text_segmentsOf, flatMap_text_pieces, List.flatMap_nil, List.append_nil]
      exact Piece.right_segment (Piece.right_first c cs) (Piece.first_text_ne_nil c cs)
    | cons first before =>
      obtain ⟨rfl, htail⟩ := List.cons.inj h
      have hright := ih (read ++ (Piece.first c cs).1.text) htail
      rwa [List.flatMap_cons, Piece.text_segment, ← List.append_assoc]

/-! ## Calls -/

namespace Scanner

/-- What a scanner still gives, one item for each call. -/
def items (s : Scanner) : List Item :=
  if s.ended then [] else itemsOf s.line (pieces s.rest)

/-- The end mark was given only at the end. -/
def Sound (s : Scanner) : Prop := s.ended = true → s.rest = []

/-- A call gives the first of the items, and leaves the others. -/
theorem next_items {s : Scanner} (h : s.Sound) :
    s.next.1 = s.items.head? ∧ s.next.2.items = s.items.tail ∧ s.next.2.Sound := by
  fun_induction next s with
  | case1 line => exact ⟨rfl, rfl, fun _ => rfl⟩
  | case2 line ended hended =>
    have hitems : items ⟨[], line, ended⟩ = [.ok (Token.endMark line)] := by
      rw [items, if_neg hended, pieces]
      rfl
    rw [hitems]
    exact ⟨rfl, rfl, fun _ => rfl⟩
  | case3 c cs line ended piece after item hitem =>
    -- Characters are left, so the end mark was not given yet.
    have hended : ended = false := Bool.eq_false_iff.mpr fun hended => nomatch h hended
    subst hended
    have hitems : items ⟨c :: cs, line, false⟩ = item :: after.items := by
      rw [items, pieces, itemsOf, hitem]
      rfl
    rw [hitems]
    exact ⟨rfl, rfl, nofun⟩
  | case4 c cs line ended piece after hitem ih =>
    have hended : ended = false := Bool.eq_false_iff.mpr fun hended => nomatch h hended
    subst hended
    have hitems : items ⟨c :: cs, line, false⟩ = after.items := by
      rw [items, pieces, itemsOf, hitem]
      rfl
    rw [hitems]
    exact ih nofun

/-- The state of a scanner after a number of calls. -/
def after (s : Scanner) (n : Nat) : Scanner := (fun s : Scanner => s.next.2)^[n] s

/-- What a scanner gives is given call by call, and then nothing any more. -/
theorem next_after {s : Scanner} (h : s.Sound) (n : Nat) :
    (s.after n).next.1 = s.items[n]? := by
  induction n generalizing s with
  | zero => exact (next_items h).1.trans List.head?_eq_getElem?
  | succ n ih =>
    obtain ⟨-, hitems, hsound⟩ := next_items h
    have hlater := ih hsound
    rwa [hitems, List.getElem?_tail] at hlater

/-- Running to exhaustion collects all items. -/
theorem drain_eq {s : Scanner} (h : s.Sound) : s.drain.1 = s.items := by
  fun_induction drain s with
  | case1 s hnone =>
    obtain ⟨hhead, -, -⟩ := next_items h
    rw [hnone] at hhead
    exact (List.head?_eq_none_iff.mp hhead.symm).symm
  | case2 s item hsome rest ih =>
    obtain ⟨hhead, htail, hsound⟩ := next_items h
    rw [hsome] at hhead
    have hrest : rest.1 = s.items.tail := (ih hsound).trans htail
    rw [hrest]
    exact List.cons_head?_tail hhead.symm

end Scanner

/-! ## Whole sources -/

/-- A source is cut into gaps and items; calling a scanner gives the items in order, the
    end mark after them, and then nothing. -/
theorem scanner_splits_source (source : String) :
    ∃ segments : List Segment,
      segments.flatMap Segment.text = source.toList ∧
      (∀ before s after, segments = before ++ s :: after →
        s.Right (before.flatMap Segment.text) (after.flatMap Segment.text)) ∧
      let items : List Item := segments.filterMap Segment.item? ++
        [.ok ⟨.eof, "", 1 + source.toList.count '\n'⟩]
      (Scanner.ofSource source).drain.1 = items ∧
        ∀ n, ((Scanner.ofSource source).after n).next.1 = items[n]? := by
  have hitems : (Scanner.ofSource source).items =
      (segmentsOf 1 (pieces source.toList)).filterMap Segment.item? ++
        [.ok ⟨.eof, "", 1 + source.toList.count '\n'⟩] := by
    have h := itemsOf_eq 1 (pieces source.toList)
    rwa [flatMap_text_pieces] at h
  have hsound : (Scanner.ofSource source).Sound := nofun
  refine ⟨segmentsOf 1 (pieces source.toList), ?_, ?_, ?_, ?_⟩
  · rw [flatMap_text_segmentsOf, flatMap_text_pieces]
  · intro before s after h
    exact right_segmentsOf source.toList [] h
  · rw [Scanner.drain_eq hsound, hitems]
  · intro n
    rw [Scanner.next_after hsound, hitems]

end Lox
