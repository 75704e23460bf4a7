/-
  Lox.Proofs.Lexing.Grammar

  The lexical grammar of the language, apart from any way of scanning.

    * `Symbol.text` — how symbols are written;
    * `decimalValue` — the number that digits before and behind a point write;
    * `TokenKind.Spells` — which texts are lexemes, and of which kind;
    * `Longest` — the longest lexeme at the start of a text.

  A lexeme is known by its first character: `TokenKind.Spells.shape` says what it can
  be.
-/
import Lox.Proofs.Lexing.Characters
import Lox.Proofs.Number.Nearest
import Mathlib.Data.List.Induction
import Mathlib.Data.Nat.Digits.Defs

namespace Lox

/-- How a symbol is written. -/
def Symbol.text : Symbol → String
  | leftParen => "("
  | rightParen => ")"
  | leftBrace => "\x7b"
  | rightBrace => "\x7d"
  | comma => ","
  | dot => "."
  | minus => "-"
  | plus => "+"
  | semicolon => ";"
  | slash => "/"
  | star => "*"
  | bang => "!"
  | bangEqual => "!="
  | equal => "="
  | equalEqual => "=="
  | greater => ">"
  | greaterEqual => ">="
  | less => "<"
  | lessEqual => "<="

/-- The whole number that decimal digits write. -/
def wholeValue (digits : List Char) : Nat :=
  Nat.ofDigits 10 (digits.map fun d => d.toNat - '0'.toNat).reverse

/-- The number that the digits before and behind a point write. -/
def decimalValue (whole fraction : List Char) : ℚ :=
  wholeValue whole + wholeValue fraction / 10 ^ fraction.length

/-- The lexemes and their kinds.  A number carries the binary64 value nearest to the one
    that is written, and a string the text between its quotes. -/
inductive TokenKind.Spells : TokenKind → List Char → Prop
  | symbol (s : Symbol) : Spells (.symbol s) s.text.toList
  | string {content} :
      '"' ∉ content → Spells (.string (String.ofList content)) ('"' :: (content ++ ['"']))
  | whole {digits bits} :
      digits ≠ [] → (∀ d ∈ digits, d.isDigit) →
      Number.Nearest (decimalValue digits [] * Number.one) bits →
      Spells (.number (Float.ofBits (UInt64.ofNat bits))) digits
  | fraction {whole digits bits} :
      whole ≠ [] → (∀ d ∈ whole, d.isDigit) → digits ≠ [] → (∀ d ∈ digits, d.isDigit) →
      Number.Nearest (decimalValue whole digits * Number.one) bits →
      Spells (.number (Float.ofBits (UInt64.ofNat bits))) (whole ++ '.' :: digits)
  | keyword (k : Keyword) : Spells (.keyword k) k.text.toList
  | name {c cs} :
      c.isAlpha ∨ c = '_' → (∀ d ∈ cs, d.isAlphanum ∨ d = '_') →
      (∀ k : Keyword, k.text.toList ≠ c :: cs) → Spells .identifier (c :: cs)

/-- The longest lexeme at the start of a text, its kind, and what comes behind it. -/
structure Longest (text : List Char) (kind : TokenKind) (lexeme rest : List Char) : Prop where
  split : text = lexeme ++ rest
  spells : kind.Spells lexeme
  longest : ∀ kind' lexeme', TokenKind.Spells kind' lexeme' → lexeme' <+: text →
    lexeme'.length ≤ lexeme.length

/-! ## Symbols and reserved words -/

theorem Symbol.text_of_ofChar? {c : Char} {s : Symbol} (h : Symbol.ofChar? c = some s) :
    s.text.toList = [c] := by
  unfold Symbol.ofChar? at h
  split at h <;> cases h <;> rfl

theorem Symbol.text_of_withEqual? {s both : Symbol} {c : Char} (h : s.withEqual? = some both)
    (hs : s.text.toList = [c]) : both.text.toList = [c, '='] := by
  cases s <;> cases h <;> cases hs <;> rfl

/-- A symbol is one character, or one with `=` behind it. -/
theorem Symbol.text_cases (s : Symbol) : ∃ c first, Symbol.ofChar? c = some first ∧
    (s.text.toList = [c] ∧ first = s ∨ s.text.toList = [c, '='] ∧ first.withEqual? = some s) := by
  cases s
  case bangEqual => exact ⟨'!', .bang, rfl, .inr ⟨rfl, rfl⟩⟩
  case equalEqual => exact ⟨'=', .equal, rfl, .inr ⟨rfl, rfl⟩⟩
  case greaterEqual => exact ⟨'>', .greater, rfl, .inr ⟨rfl, rfl⟩⟩
  case lessEqual => exact ⟨'<', .less, rfl, .inr ⟨rfl, rfl⟩⟩
  all_goals exact ⟨_, _, rfl, .inl ⟨rfl, rfl⟩⟩

/-- The characters of symbols are in no other class. -/
theorem Symbol.ofChar?_other {c : Char}
    (h : c = '"' ∨ Piece.isDigit c = true ∨ Piece.isNameStart c = true) :
    Symbol.ofChar? c = none := by
  unfold Symbol.ofChar?
  split <;> first | rfl | exact absurd h (by decide)

/-- A reserved word is a word. -/
theorem Keyword.text_cases (k : Keyword) : ∃ c cs, k.text.toList = c :: cs ∧
    Piece.isNameStart c = true ∧ ∀ d ∈ cs, Piece.isNamePart d = true := by
  cases k <;> exact ⟨_, _, rfl, by decide, List.all_eq_true.mp (by decide)⟩

theorem Keyword.mem_all (k : Keyword) : k ∈ Keyword.all := by
  cases k <;> decide

theorem Keyword.ofText?_eq_some {text : String} {k : Keyword} (h : Keyword.ofText? text = some k) :
    k.text = text := by
  have hfound := List.find?_some h
  simpa using hfound

theorem Keyword.ofText?_eq_none {text : String} (h : Keyword.ofText? text = none) (k : Keyword) :
    k.text ≠ text := by
  have hfound := List.find?_eq_none.mp h k k.mem_all
  simpa using hfound

/-! ## Numerals -/

/-- Digits in front count more, by as many places as there are behind them. -/
theorem wholeValue_append (front behind : List Char) :
    wholeValue (front ++ behind) = wholeValue front * 10 ^ behind.length + wholeValue behind := by
  unfold wholeValue
  rw [List.map_append, List.reverse_append, Nat.ofDigits_append, List.length_reverse,
    List.length_map, Nat.add_comm, Nat.mul_comm]

theorem Number.Decimal.ofDigits_eq (digits : List Char) :
    Number.Decimal.ofDigits digits = wholeValue digits := by
  induction digits using List.reverseRecOn with
  | nil => rfl
  | append_singleton digits d ih =>
    have hlast : wholeValue [d] = digitValue d := Nat.ofDigits_singleton
    rw [wholeValue_append, hlast, ← ih, ofDigits, List.foldl_append, Nat.mul_comm]
    rfl

/-- A numeral without a point is the whole number that it writes. -/
theorem Number.Decimal.value_whole {digits : List Char}
    (hdigits : ∀ d ∈ digits, Piece.isDigit d = true) :
    (ofLexeme digits).value = decimalValue digits [] := by
  have hpoint (d : Char) (hd : d ∈ digits) : (d != '.') = true := by
    rw [bne_iff_ne]
    rintro rfl
    exact absurd (hdigits _ hd) (by decide)
  have hend : ([] : List Char).head?.any (· != '.') = false := rfl
  obtain ⟨htake, hdrop⟩ := Piece.takeWhile_append_stop digits hpoint hend
  rw [List.append_nil] at htake hdrop
  simp [ofLexeme, value, decimalValue, htake, hdrop, ofDigits_eq, wholeValue]

/-- A numeral with a point is the number that its two parts write. -/
theorem Number.Decimal.value_fraction {whole digits : List Char}
    (hwhole : ∀ d ∈ whole, Piece.isDigit d = true) :
    (ofLexeme (whole ++ '.' :: digits)).value = decimalValue whole digits := by
  have hpoint (d : Char) (hd : d ∈ whole) : (d != '.') = true := by
    rw [bne_iff_ne]
    rintro rfl
    exact absurd (hwhole _ hd) (by decide)
  have hend : ('.' :: digits).head?.any (· != '.') = false := rfl
  obtain ⟨htake, hdrop⟩ := Piece.takeWhile_append_stop whole hpoint hend
  unfold ofLexeme
  rw [htake, hdrop, List.drop_succ_cons, List.drop_zero]
  unfold value decimalValue
  dsimp only
  rw [ofDigits_eq, wholeValue_append, zpow_neg, zpow_natCast]
  push_cast
  field_simp

/-! ## Shapes -/

/-- What a lexeme can be, by its first character: a symbol, a string, a number or a word. -/
def LexemeShape (c : Char) (cs : List Char) : Prop :=
  (∃ s, Symbol.ofChar? c = some s ∧ (cs = [] ∨ cs = ['='] ∧ s.withEqual?.isSome)) ∨
    (c = '"' ∧ ∃ content, '"' ∉ content ∧ cs = content ++ ['"']) ∨
    (Piece.isDigit c = true ∧ ∃ whole fraction, c :: cs = whole ++ fraction ∧
      (∀ d ∈ whole, Piece.isDigit d = true) ∧
      (fraction = [] ∨ ∃ digits, fraction = '.' :: digits ∧ digits ≠ [] ∧
        ∀ d ∈ digits, Piece.isDigit d = true)) ∨
    (Piece.isNameStart c = true ∧ ∀ d ∈ cs, Piece.isNamePart d = true)

theorem TokenKind.Spells.shape {kind : TokenKind} {lexeme : List Char} (h : kind.Spells lexeme) :
    ∃ c cs, lexeme = c :: cs ∧ LexemeShape c cs := by
  cases h with
  | symbol s =>
    obtain ⟨c, first, hfirst, ⟨htext, -⟩ | ⟨htext, hboth⟩⟩ := s.text_cases
    · exact ⟨c, [], htext, .inl ⟨first, hfirst, .inl rfl⟩⟩
    · exact ⟨c, ['='], htext, .inl ⟨first, hfirst, .inr ⟨rfl, by rw [hboth]; rfl⟩⟩⟩
  | string hcontent => exact ⟨_, _, rfl, .inr (.inl ⟨rfl, _, hcontent, rfl⟩)⟩
  | whole hne hdigits _ =>
    obtain ⟨c, cs, rfl⟩ := List.exists_cons_of_ne_nil hne
    refine ⟨c, cs, rfl, .inr (.inr (.inl ⟨hdigits c List.mem_cons_self, c :: cs, [], ?_⟩))⟩
    exact ⟨(List.append_nil _).symm, hdigits, .inl rfl⟩
  | fraction hne hwhole hne' hdigits _ =>
    obtain ⟨c, cs, rfl⟩ := List.exists_cons_of_ne_nil hne
    refine ⟨c, _, rfl, .inr (.inr (.inl ⟨hwhole c List.mem_cons_self, c :: cs, _, rfl, ?_⟩))⟩
    exact ⟨hwhole, .inr ⟨_, rfl, hne', hdigits⟩⟩
  | keyword k =>
    obtain ⟨c, cs, htext, hstart, hparts⟩ := k.text_cases
    exact ⟨c, cs, htext, .inr (.inr (.inr ⟨hstart, hparts⟩))⟩
  | name hstart hparts _ =>
    refine ⟨_, _, rfl, .inr (.inr (.inr ⟨Piece.isNameStart_iff.mpr hstart, fun d hd => ?_⟩))⟩
    exact Piece.isNamePart_iff.mpr (hparts d hd)

/-- A lexeme at the start of a text begins with the first character of the text. -/
theorem TokenKind.Spells.shape_of_front {kind : TokenKind} {lexeme : List Char} {c : Char}
    {cs : List Char} (h : kind.Spells lexeme) (hfront : lexeme <+: c :: cs) :
    ∃ more rest, lexeme = c :: more ∧ cs = more ++ rest ∧ LexemeShape c more := by
  obtain ⟨first, more, rfl, hshape⟩ := h.shape
  obtain ⟨rest, hrest⟩ := hfront
  rw [List.cons_append] at hrest
  obtain ⟨rfl, rfl⟩ := List.cons.inj hrest
  exact ⟨more, rest, rfl, rfl, hshape⟩

end Lox
