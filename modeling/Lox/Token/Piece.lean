/-
  Lox.Token.Piece

  A source text is cut, from left to right and without loss, into pieces: blanks
  and comments, tokens, and stretches that are no token.

    * `Piece.first` — the longest piece at the start of a text, with the rest;
    * `pieces` — all pieces of a text;
    * `itemsOf`, `scan` — the tokens and faults among them with their lines, and
      the end mark.

  `first_append` says that nothing is lost, `length_first_lt` that a piece is
  never empty.
-/
import Lox.Diagnostic
import Lox.Number.Decimal

namespace Lox

/-- A stretch of source text. -/
inductive Piece where
  | blank (text : List Char)
  | token (kind : TokenKind) (text : List Char)
  | fault (cause : LexicalFault) (text : List Char)

namespace Piece

/-- The characters of a piece. -/
def text : Piece → List Char
  | blank text => text
  | token _ text => text
  | fault _ text => text

/-! ## Character classes -/

/-- Characters that separate tokens. -/
def isBlank (c : Char) : Bool := c = ' ' || c = '\r' || c = '\t' || c = '\n'

/-- The decimal digits, ASCII only. -/
def isDigit (c : Char) : Bool := '0' ≤ c && c ≤ '9'

/-- The characters that can begin a name: ASCII letters and the underscore. -/
def isNameStart (c : Char) : Bool :=
  ('a' ≤ c && c ≤ 'z') || ('A' ≤ c && c ≤ 'Z') || c = '_'

/-- The characters that can continue a name. -/
def isNamePart (c : Char) : Bool := isNameStart c || isDigit c

/-! ## One piece -/

/-- What follows an opening quote: the text up to the next quote, or a fault when
    there is none. -/
def ofQuote (cs : List Char) : Piece × List Char :=
  let content := cs.takeWhile (· ≠ '"')
  match cs.dropWhile (· ≠ '"') with
  | [] => (.fault .unterminatedString ('"' :: content), [])
  | close :: rest =>
    (.token (.string (String.ofList content)) ('"' :: content ++ [close]), rest)

/-- A comment: everything up to the end of the line. -/
def ofComment (cs : List Char) : Piece × List Char :=
  (.blank (cs.takeWhile (· ≠ '\n')), cs.dropWhile (· ≠ '\n'))

/-- The fraction at the start of a text: a point and at least one digit. -/
def fraction : List Char → List Char
  | '.' :: d :: cs => if isDigit d then '.' :: d :: cs.takeWhile isDigit else []
  | _ => []

/-- A number: digits and perhaps a fraction. -/
def ofDigits (cs : List Char) : Piece × List Char :=
  let whole := cs.takeWhile isDigit
  let rest := cs.dropWhile isDigit
  let lexeme := whole ++ fraction rest
  (.token (.number (Number.Decimal.ofLexeme lexeme).toFloat) lexeme,
    rest.drop (fraction rest).length)

/-- The kind of a word: reserved, or a name. -/
def wordKind (word : String) : TokenKind :=
  match Keyword.ofText? word with
  | some k => .keyword k
  | none => .identifier

/-- A word. -/
def ofWord (cs : List Char) : Piece × List Char :=
  let word := cs.takeWhile isNamePart
  (.token (wordKind (String.ofList word)) word, cs.dropWhile isNamePart)

/-- A symbol `s` that is written `c`, with `=` after it when the two together are
    a symbol. -/
def ofSymbol (s : Symbol) (c : Char) (cs : List Char) : Piece × List Char :=
  match s.withEqual?, cs with
  | some both, '=' :: rest => (.token (.symbol both) [c, '='], rest)
  | _, _ => (.token (.symbol s) [c], cs)

/-- The piece at the start of the text `c :: cs`, and the rest of it. -/
def first (c : Char) (cs : List Char) : Piece × List Char :=
  if isBlank c then (.blank [c], cs)
  else if c = '"' then ofQuote cs
  else if c = '/' ∧ cs.head? = some '/' then ofComment (c :: cs)
  else if isDigit c then ofDigits (c :: cs)
  else if isNameStart c then ofWord (c :: cs)
  else match Symbol.ofChar? c with
    | some s => ofSymbol s c cs
    | none => (.fault (.unexpectedCharacter c) [c], cs)

/-! ## Nothing is lost -/

theorem ofQuote_append (cs : List Char) :
    (ofQuote cs).1.text ++ (ofQuote cs).2 = '"' :: cs := by
  have h := List.takeWhile_append_dropWhile (p := (· ≠ '"')) (l := cs)
  have stop : ∀ d rest, cs.dropWhile (· ≠ '"') = d :: rest → d = '"' := by
    intro d rest hd
    have := List.head?_dropWhile_not (· ≠ '"') cs
    rw [hd] at this
    simpa using this
  unfold ofQuote
  split
  · next hd =>
    rw [hd] at h
    simpa [text] using h
  · next d rest hd =>
    rw [hd] at h
    simpa [text] using h

theorem ofComment_append (cs : List Char) :
    (ofComment cs).1.text ++ (ofComment cs).2 = cs := by
  simp [ofComment, text]

/-- Dropping as many elements as `takeWhile` takes is `dropWhile`. -/
theorem drop_length_takeWhile (p : Char → Bool) (cs : List Char) :
    cs.drop (cs.takeWhile p).length = cs.dropWhile p := by
  induction cs with
  | nil => rfl
  | cons c cs ih =>
    rw [List.takeWhile_cons, List.dropWhile_cons]
    split
    · simpa using ih
    · rfl

theorem fraction_append (cs : List Char) :
    fraction cs ++ cs.drop (fraction cs).length = cs := by
  unfold fraction
  split
  · split
    · simp [drop_length_takeWhile]
    · rfl
  · rfl

theorem ofDigits_append (cs : List Char) :
    (ofDigits cs).1.text ++ (ofDigits cs).2 = cs := by
  simp only [ofDigits, text, List.append_assoc, fraction_append,
    List.takeWhile_append_dropWhile]

theorem ofWord_append (cs : List Char) : (ofWord cs).1.text ++ (ofWord cs).2 = cs := by
  simp [ofWord, text]

theorem ofSymbol_append (s : Symbol) (c : Char) (cs : List Char) :
    (ofSymbol s c cs).1.text ++ (ofSymbol s c cs).2 = c :: cs := by
  unfold ofSymbol
  split <;> simp [text]

/-- The first piece and the rest are the whole text. -/
theorem first_append (c : Char) (cs : List Char) :
    (first c cs).1.text ++ (first c cs).2 = c :: cs := by
  unfold first
  split
  · simp [text]
  split
  · next hc => rw [hc, ofQuote_append]
  split
  · rw [ofComment_append]
  split
  · rw [ofDigits_append]
  split
  · rw [ofWord_append]
  split
  · rw [ofSymbol_append]
  · simp [text]

/-- A piece has at least one character. -/
theorem first_text_ne_nil (c : Char) (cs : List Char) : (first c cs).1.text ≠ [] := by
  unfold first
  split
  · simp [text]
  split
  · unfold ofQuote; split <;> simp [text]
  split
  · next h => simp [ofComment, text, h.1]
  split
  · next h => simp [ofDigits, text, h]
  split
  · next h => simp [ofWord, text, isNamePart, h]
  split
  · unfold ofSymbol; split <;> simp [text]
  · simp [text]

/-- The rest is shorter than the text. -/
theorem length_first_lt (c : Char) (cs : List Char) :
    (first c cs).2.length < (c :: cs).length := by
  have happend := congrArg List.length (first_append c cs)
  have hpos := List.length_pos_iff.mpr (first_text_ne_nil c cs)
  rw [List.length_append] at happend
  omega

end Piece

/-! ## All pieces -/

/-- Cuts a text into pieces. -/
def pieces : List Char → List Piece
  | [] => []
  | c :: cs => (Piece.first c cs).1 :: pieces (Piece.first c cs).2
termination_by cs => cs.length
decreasing_by exact Piece.length_first_lt c cs

/-- The pieces of a text, one after another, are the text. -/
theorem flatMap_text_pieces (cs : List Char) : (pieces cs).flatMap Piece.text = cs := by
  fun_induction pieces cs with
  | case1 => rfl
  | case2 c cs ih => rw [List.flatMap_cons, ih, Piece.first_append]

/-! ## Tokens and faults -/

/-- What scanning finds: a token, or a stretch that is none. -/
abbrev Item := Except Diagnostic Token

/-- The number of line ends in a text. -/
def newlines (cs : List Char) : Nat := cs.count '\n'

/-- The mark after the last token. -/
def Token.endMark (line : Nat) : Token := ⟨.eof, "", line⟩

/-- What a piece that ends on `line` contributes. -/
def Piece.item? (line : Nat) : Piece → Option Item
  | .blank _ => none
  | .token kind text => some (.ok ⟨kind, String.ofList text, line⟩)
  | .fault cause _ => some (.error (.lexical line cause))

/-- The items of pieces of which the first begins on `line`, and the end mark.
    Each item has the line on which its text ends. -/
def itemsOf (line : Nat) : List Piece → List Item
  | [] => [.ok (Token.endMark line)]
  | p :: ps =>
    -- A string may hold line ends: they count before its line is taken.
    let ending := line + newlines p.text
    (p.item? ending).toList ++ itemsOf ending ps

/-- Scans a source text. -/
def scan (source : String) : List Item := itemsOf 1 (pieces source.toList)

/-- The tokens among the items. -/
def tokensOf (items : List Item) : List Token := items.filterMap Except.toOption

/-- The faults among the items. -/
def faultsOf (items : List Item) : List Diagnostic :=
  items.filterMap fun
    | .error d => some d
    | .ok _ => none

end Lox
