/-
  Lox.Proofs.Lexing.Joining

  Texts that are put together, and what is found in them.

    * `scan_lineEnd` — two sources with a line end between them have the items of the
      one and those of the other, on later lines;
    * `Piece.first_spells` — a lexeme before a blank, or at the end, is found again;
    * `TokenKind.Spells.unique` — so a lexeme is of one kind only;
    * `lexemes_rescan` — the lexemes of a source with blanks between them have the same
      tokens again.

  A line end stops every piece but a string that is open; a blank stops every lexeme,
  as all blanks that a lexeme can hold stand between its quotes.
-/
import Lox.Proofs.Lexing.LineEnds
import Lox.Proofs.Lexing.LongestMatch
import Lox.Proofs.Relabelling.Lines
import Lox.Proofs.Renaming.Rewording

namespace Lox

/-! ## A line end between two sources -/

theorem Scanner.drain_ofSource (source : String) : (ofSource source).drain.1 = scan source := by
  have hsound : (ofSource source).Sound := nofun
  rw [drain_eq hsound]
  rfl

/-- A string that is open is reported. -/
theorem exists_unterminated {text : List Char} {ps : List Piece} (line : Nat)
    (hmem : Piece.fault .unterminatedString text ∈ ps) :
    ∃ ending, .error (.lexical ending .unterminatedString) ∈ itemsOf line ps := by
  induction ps generalizing line with
  | nil => exact absurd hmem List.not_mem_nil
  | cons p ps ih =>
    rw [itemsOf]
    rcases List.mem_cons.mp hmem with rfl | hmem
    · exact ⟨_, List.mem_append_left _ List.mem_cons_self⟩
    · obtain ⟨ending, hfound⟩ := ih _ hmem
      exact ⟨ending, List.mem_append_right _ hfound⟩

/-- Where no string is open at the end of the first source, a line end between two sources
    keeps them apart: the items are those of the first one without its end mark, and those of
    the second one on as many lines further down as the first one has. -/
theorem scan_lineEnd {u : String}
    (hclosed : ∀ line, .error (.lexical line .unterminatedString) ∉ (Scanner.ofSource u).drain.1)
    (v : String) :
    let below := 1 + newlines u.toList
    ∃ items, (Scanner.ofSource u).drain.1 = items ++ [.ok (Token.endMark below)] ∧
      (Scanner.ofSource (u ++ "\n" ++ v)).drain.1 =
        items ++ (Scanner.ofSource v).drain.1.map (Item.relabel (.onward below)) := by
  intro below
  simp only [Scanner.drain_ofSource] at hclosed ⊢
  have hpieces : pieces (u ++ "\n" ++ v).toList =
      pieces u.toList ++ .blank ['\n'] :: pieces v.toList := by
    have htext : (u ++ "\n" ++ v).toList = u.toList ++ '\n' :: v.toList := by simp
    rw [htext]
    refine pieces_lineEnd (fun text hmem => ?_) v.toList
    obtain ⟨line, hfound⟩ := exists_unterminated 1 hmem
    exact hclosed line hfound
  -- The line end itself gives no item, and moves the second source to the next line.
  have hbelow : itemsOf (1 + newlines u.toList) (.blank ['\n'] :: pieces v.toList) =
      (scan v).map (Item.relabel (.onward below)) := by
    have hline : 1 + newlines u.toList + newlines ['\n'] = 1 + below := by
      have hone : newlines ['\n'] = 1 := rfl
      omega
    rw [scan, ← itemsOf_onward, ← hline]
    rfl
  refine ⟨(scan u).dropLast, scan_eq u, ?_⟩
  rw [scan, hpieces, itemsOf_append, flatMap_text_pieces, hbelow]
  rfl

/-- A slash at the end of the first source begins no comment with the second one. -/
theorem scan_lineEnd_slash :
    (∀ line, .error (.lexical line .unterminatedString) ∉ (Scanner.ofSource "x /").drain.1) ∧
      ∃ items, (Scanner.ofSource "x /").drain.1 = items ++ [.ok (Token.endMark 1)] ∧
        (Scanner.ofSource ("x /" ++ "\n" ++ "/")).drain.1 =
          items ++ [.ok ⟨.symbol .slash, "/", 2⟩, .ok ⟨.eof, "", 2⟩] := by
  have hfirst : (Scanner.ofSource "x /").drain.1 =
      [.ok ⟨.identifier, "x", 1⟩, .ok ⟨.symbol .slash, "/", 1⟩, .ok ⟨.eof, "", 1⟩] := by
    rw [Scanner.drain_ofSource]
    cbv
  have hsecond : (Scanner.ofSource "/").drain.1 =
      [.ok ⟨.symbol .slash, "/", 1⟩, .ok ⟨.eof, "", 1⟩] := by
    rw [Scanner.drain_ofSource]
    cbv
  have hclosed (line : Nat) :
      .error (.lexical line .unterminatedString) ∉ (Scanner.ofSource "x /").drain.1 := by
    rw [hfirst]
    simp
  have hjoined := scan_lineEnd hclosed "/"
  rw [hsecond] at hjoined
  exact ⟨hclosed, hjoined⟩

/-! ## Lexemes before a blank -/

/-- The end of a text, or a blank. -/
def AtBlank (rest : List Char) : Prop := rest.head?.all Piece.isBlank = true

namespace Piece

variable {rest : List Char}

/-- A class without blanks ends before a blank. -/
theorem stop_atBlank (hrest : AtBlank rest) {P : Char → Bool}
    (hP : ∀ c, isBlank c = true → P c = false) : rest.head?.any P = false := by
  cases rest with
  | nil => rfl
  | cons c cs => exact hP c hrest

theorem isBlank_cases {c : Char} (h : isBlank c = true) :
    c = ' ' ∨ c = '\r' ∨ c = '\t' ∨ c = '\n' := by
  simpa [isBlank, or_assoc] using h

theorem not_isNamePart_of_isBlank {c : Char} (h : isBlank c = true) : isNamePart c = false := by
  rcases isBlank_cases h with rfl | rfl | rfl | rfl <;> decide

theorem not_isDigit_of_isBlank {c : Char} (h : isBlank c = true) : isDigit c = false := by
  rcases isBlank_cases h with rfl | rfl | rfl | rfl <;> decide

/-- What is no blank does not come next. -/
theorem head_atBlank (hrest : AtBlank rest) {c : Char} (hc : isBlank c = false) :
    rest.head? ≠ some c := by
  intro hhead
  have hblank : isBlank c = true := by
    have hall : rest.head?.all isBlank = true := hrest
    rwa [hhead] at hall
  rw [hc] at hblank
  cases hblank

/-! ### Numbers and words -/

/-- A character of a word or a number begins one. -/
theorem first_of_isNamePart {c : Char} (hc : isNamePart c = true) (cs : List Char) :
    first c cs = if isDigit c then ofDigits (c :: cs) else ofWord (c :: cs) := by
  have hblank : isBlank c ≠ true := fun h => by simp [not_isNamePart_of_isBlank h] at hc
  have hquote : c ≠ '"' := by
    rintro rfl
    exact absurd hc (by decide)
  have hslash : c ≠ '/' := by
    rintro rfl
    exact absurd hc (by decide)
  unfold first
  rw [if_neg hblank, if_neg hquote, if_neg fun h => hslash h.1]
  split
  · rfl
  · next hdigit =>
    have hstart : isNameStart c = true := by simpa [isNamePart, hdigit] using hc
    rw [if_pos hstart]

theorem first_of_isDigit {c : Char} (hc : isDigit c = true) (cs : List Char) :
    first c cs = ofDigits (c :: cs) := by
  rw [first_of_isNamePart (by simp [isNamePart, hc]), if_pos hc]

/-- Digits end before a blank. -/
theorem ofDigits_whole {digits : List Char} (hdigits : ∀ d ∈ digits, isDigit d = true)
    (hrest : AtBlank rest) :
    ofDigits (digits ++ rest) =
      (.token (.number (Number.Decimal.ofLexeme digits).toFloat) digits, rest) := by
  obtain ⟨htake, hdrop⟩ :=
    takeWhile_append_stop digits hdigits (stop_atBlank hrest fun _ => not_isDigit_of_isBlank)
  have hnone : fraction rest = [] :=
    (fraction_eq_nil_iff rest).mpr fun h => head_atBlank hrest (by decide) h.1
  simp [ofDigits, htake, hdrop, hnone]

/-- So do digits behind a point. -/
theorem ofDigits_fraction {whole digits : List Char} (hwhole : ∀ d ∈ whole, isDigit d = true)
    (hne : digits ≠ []) (hdigits : ∀ d ∈ digits, isDigit d = true) (hrest : AtBlank rest) :
    ofDigits (whole ++ '.' :: digits ++ rest) =
      (.token (.number (Number.Decimal.ofLexeme (whole ++ '.' :: digits)).toFloat)
        (whole ++ '.' :: digits), rest) := by
  obtain ⟨d, ds, rfl⟩ := List.exists_cons_of_ne_nil hne
  obtain ⟨hd, hds⟩ := List.forall_mem_cons.mp hdigits
  have hpoint : ('.' :: d :: (ds ++ rest)).head?.any isDigit = false := rfl
  obtain ⟨htake, hdrop⟩ := takeWhile_append_stop whole hwhole hpoint
  obtain ⟨htake', -⟩ :=
    takeWhile_append_stop ds hds (stop_atBlank hrest fun _ => not_isDigit_of_isBlank)
  have hfraction : fraction ('.' :: d :: (ds ++ rest)) = '.' :: d :: ds := by
    simp [fraction, hd, htake']
  simp [ofDigits, htake, hdrop, hfraction]

/-- A word ends before a blank. -/
theorem first_word {c : Char} {cs : List Char} (hc : isNameStart c = true)
    (hcs : ∀ d ∈ cs, isNamePart d = true) (hrest : AtBlank rest) :
    first c (cs ++ rest) = (.token (wordKind (String.ofList (c :: cs))) (c :: cs), rest) := by
  have hparts : ∀ d ∈ c :: cs, isNamePart d = true :=
    List.forall_mem_cons.mpr ⟨isNamePart_of_isNameStart hc, hcs⟩
  have hword := ofWord_before (c :: cs) hparts
    (stop_atBlank hrest fun _ => not_isNamePart_of_isBlank)
  rw [first_of_isNamePart (isNamePart_of_isNameStart hc),
    if_neg (by simp [not_isDigit_of_isNameStart hc])]
  exact hword

/-! ### Symbols and strings -/

/-- A symbol begins with its first character, unless that begins a comment. -/
theorem first_of_ofChar? {c : Char} {s : Symbol} (hs : Symbol.ofChar? c = some s)
    {cs : List Char} (hslash : cs.head? ≠ some '/') : first c cs = ofSymbol s c cs := by
  have hblank : isBlank c ≠ true := fun h => by
    rcases isBlank_cases h with rfl | rfl | rfl | rfl <;> cases hs
  have hother (h : c = '"' ∨ isDigit c = true ∨ isNameStart c = true) : False := by
    rw [Symbol.ofChar?_other h] at hs
    cases hs
  unfold first
  rw [if_neg hblank, if_neg fun h => hother (.inl h), if_neg fun h => hslash h.2,
    if_neg fun h => hother (.inr (.inl h)), if_neg fun h => hother (.inr (.inr h)), hs]

/-- A symbol of one character ends where no `=` follows. -/
theorem ofSymbol_one (s : Symbol) (c : Char) {cs : List Char} (hequal : cs.head? ≠ some '=') :
    ofSymbol s c cs = (.token (.symbol s) [c], cs) := by
  unfold ofSymbol
  split
  · exact absurd rfl hequal
  · rfl

/-- A string ends at its second quote. -/
theorem first_string {content : List Char} (hcontent : '"' ∉ content) (rest : List Char) :
    first '"' (content ++ '"' :: rest) =
      (.token (.string (String.ofList content)) ('"' :: (content ++ ['"'])), rest) := by
  have hinside (d : Char) (hd : d ∈ content) : decide (d ≠ '"') = true := by
    rw [decide_eq_true_eq]
    rintro rfl
    exact hcontent hd
  have hend : ('"' :: rest).head?.any (fun d => decide (d ≠ '"')) = false := by simp
  obtain ⟨htake, hdrop⟩ := takeWhile_append_stop content hinside hend
  show ofQuote (content ++ '"' :: rest) = _
  unfold ofQuote
  dsimp only
  rw [htake, hdrop]
  rfl

/-! ### Lexemes -/

theorem wordKind_keyword (k : Keyword) : wordKind (String.ofList k.text.toList) = .keyword k := by
  cases k <;> rfl

/-- A word that is not reserved is a name. -/
theorem wordKind_name {word : List Char} (hfree : ∀ k : Keyword, k.text.toList ≠ word) :
    wordKind (String.ofList word) = .identifier := by
  have hnone : Keyword.ofText? (String.ofList word) = none := by
    refine List.find?_eq_none.mpr fun k _ hk => hfree k ?_
    have htext : k.text = String.ofList word := of_decide_eq_true hk
    rw [htext, String.toList_ofList]
  rw [wordKind, hnone]

/-- A lexeme before a blank, or at the end of a text, is found as what it spells. -/
theorem first_spells {kind : TokenKind} {lexeme : List Char} (h : kind.Spells lexeme)
    (hrest : AtBlank rest) :
    ∃ c cs, lexeme = c :: cs ∧ first c (cs ++ rest) = (.token kind lexeme, rest) := by
  cases h with
  | symbol s =>
    have hslash := head_atBlank hrest (c := '/') (by decide)
    have hequal := head_atBlank hrest (c := '=') (by decide)
    obtain ⟨c, first, hfirst, ⟨htext, rfl⟩ | ⟨htext, hboth⟩⟩ := s.text_cases
    · refine ⟨c, [], htext, ?_⟩
      rw [htext, List.nil_append, first_of_ofChar? hfirst hslash, ofSymbol_one _ c hequal]
    · refine ⟨c, ['='], htext, ?_⟩
      rw [htext, first_of_ofChar? hfirst (by simp)]
      simp [ofSymbol, hboth]
  | string hcontent =>
    refine ⟨_, _, rfl, ?_⟩
    rw [List.append_assoc, List.singleton_append]
    exact first_string hcontent rest
  | @whole _ bits hne hdigits hnearest =>
    obtain ⟨c, cs, rfl⟩ := List.exists_cons_of_ne_nil hne
    have hvalue : (Number.Decimal.ofLexeme (c :: cs)).bits = bits := by
      refine (Number.Decimal.nearest_bits _).unique ?_
      rwa [Number.Decimal.value_whole hdigits]
    refine ⟨c, cs, rfl, ?_⟩
    rw [first_of_isDigit (hdigits c List.mem_cons_self), ← List.cons_append,
      ofDigits_whole hdigits hrest, Number.Decimal.toFloat, hvalue]
  | @fraction whole digits bits hne hwhole hne' hdigits hnearest =>
    obtain ⟨c, cs, rfl⟩ := List.exists_cons_of_ne_nil hne
    have hvalue : (Number.Decimal.ofLexeme (c :: cs ++ '.' :: digits)).bits = bits := by
      refine (Number.Decimal.nearest_bits _).unique ?_
      rwa [Number.Decimal.value_fraction hwhole]
    refine ⟨c, cs ++ '.' :: digits, rfl, ?_⟩
    rw [first_of_isDigit (hwhole c List.mem_cons_self), ← List.cons_append, ← List.cons_append,
      ofDigits_fraction hwhole hne' hdigits hrest, Number.Decimal.toFloat, hvalue]
  | keyword k =>
    obtain ⟨c, cs, htext, hstart, hparts⟩ := k.text_cases
    refine ⟨c, cs, htext, ?_⟩
    rw [first_word hstart hparts hrest, ← htext, wordKind_keyword]
  | @name c cs hstart hparts hfree =>
    refine ⟨c, cs, rfl, ?_⟩
    have hparts' (d : Char) (hd : d ∈ cs) : isNamePart d = true := isNamePart_iff.mpr (hparts d hd)
    rw [first_word (isNameStart_iff.mpr hstart) hparts' hrest,
      wordKind_name hfree]

end Piece

/-- Such a lexeme is a piece of its own. -/
theorem pieces_spells {kind : TokenKind} {lexeme rest : List Char} (h : kind.Spells lexeme)
    (hrest : AtBlank rest) : pieces (lexeme ++ rest) = .token kind lexeme :: pieces rest := by
  obtain ⟨c, cs, rfl, hfirst⟩ := Piece.first_spells h hrest
  rw [List.cons_append, pieces, hfirst]

/-- A lexeme alone is one piece. -/
theorem pieces_lexeme {kind : TokenKind} {lexeme : List Char} (h : kind.Spells lexeme) :
    pieces lexeme = [.token kind lexeme] := by
  have hend : AtBlank [] := rfl
  have hpieces := pieces_spells h hend
  rwa [List.append_nil, pieces] at hpieces

/-- A lexeme alone is scanned as one token, on the line on which it ends. -/
theorem scan_lexeme {kind : TokenKind} {lexeme : String} (h : kind.Spells lexeme.toList) :
    scan lexeme = [.ok ⟨kind, lexeme, 1 + newlines lexeme.toList⟩,
      .ok (Token.endMark (1 + newlines lexeme.toList))] := by
  rw [scan, pieces_lexeme h, itemsOf, itemsOf, Piece.item?, String.ofList_toList]
  rfl

/-- A text is the lexeme of one kind only. -/
theorem TokenKind.Spells.unique {kind kind' : TokenKind} {lexeme : List Char}
    (h : kind.Spells lexeme) (h' : kind'.Spells lexeme) : kind = kind' := by
  have hfound := (pieces_lexeme h).symm.trans (pieces_lexeme h')
  exact (Piece.token.inj (List.cons.inj hfound).1).1

/-! ## Tokens of a source -/

/-- What is cut as a token spells it. -/
theorem spells_of_mem_pieces {cs : List Char} {kind : TokenKind} {text : List Char}
    (h : .token kind text ∈ pieces cs) : kind.Spells text := by
  fun_induction pieces cs with
  | case1 => exact absurd h List.not_mem_nil
  | case2 c cs ih =>
    rcases List.mem_cons.mp h with hfirst | hmem
    · have hblank : Piece.isBlank c ≠ true := fun hblank => by
        simp [Piece.first, hblank] at hfirst
      have hcomment : ¬(c = '/' ∧ cs.head? = some '/') := fun hcomment => by
        obtain ⟨rfl, hslash⟩ := hcomment
        simp [Piece.first, hslash, Piece.isBlank, Piece.ofComment] at hfirst
      have hexact := Piece.exact_first hblank hcomment
      generalize Piece.first c cs = cut at hfirst hexact
      obtain ⟨p, rest⟩ := cut
      cases hfirst
      exact hexact.spells
    · exact ih hmem

theorem mem_tokensOf {t : Token} {items : List Item} : t ∈ tokensOf items ↔ .ok t ∈ items := by
  rw [tokensOf, List.mem_filterMap]
  constructor
  · rintro ⟨item, hitem, ht⟩
    cases item with
    | error d => cases ht
    | ok u =>
      cases ht
      exact hitem
  · exact fun ht => ⟨.ok t, ht, rfl⟩

/-- A token of pieces is one of them, or the end mark. -/
theorem mem_itemsOf {t : Token} {line : Nat} {ps : List Piece} (h : .ok t ∈ itemsOf line ps) :
    (t.kind = .eof ∧ t.lexeme = "") ∨ .token t.kind t.lexeme.toList ∈ ps := by
  induction ps generalizing line with
  | nil =>
    cases List.mem_singleton.mp h
    exact .inl ⟨rfl, rfl⟩
  | cons p ps ih =>
    rw [itemsOf] at h
    rcases List.mem_append.mp h with hown | hlater
    · cases p with
      | blank text => cases hown
      | fault cause text => cases List.mem_singleton.mp hown
      | token kind text =>
        cases List.mem_singleton.mp hown
        rw [String.toList_ofList]
        exact .inr List.mem_cons_self
    · exact (ih hlater).imp id (List.mem_cons_of_mem p)

/-- A token of a source spells its kind, unless it is the end mark. -/
theorem spells_of_mem_scan {source : String} {t : Token} (h : t ∈ tokensOf (scan source)) :
    (t.kind = .eof ∧ t.lexeme = "") ∨ t.kind.Spells t.lexeme.toList :=
  (mem_itemsOf (mem_tokensOf.mp h)).imp id spells_of_mem_pieces

/-- Tokens with the same lexeme are of the same kind, and carry the same value. -/
theorem kind_of_lexeme {source source' : String} {t u : Token}
    (ht : t ∈ tokensOf (scan source)) (hu : u ∈ tokensOf (scan source'))
    (hsame : t.lexeme = u.lexeme) : t.kind = u.kind := by
  -- The end mark is the only token without characters.
  have hempty {kind : TokenKind} (h : kind.Spells "".toList) : False := by
    obtain ⟨c, cs, hcons, -⟩ := h.shape
    cases hcons
  rcases spells_of_mem_scan ht with ⟨hkind, hlexeme⟩ | hspells <;>
    rcases spells_of_mem_scan hu with ⟨hkind', hlexeme'⟩ | hspells'
  · rw [hkind, hkind']
  · rw [← hsame, hlexeme] at hspells'
    exact (hempty hspells').elim
  · rw [hsame, hlexeme'] at hspells
    exact (hempty hspells).elim
  · rw [hsame] at hspells
    exact hspells.unique hspells'

/-! ## Lexemes with blanks between them -/

/-- The kind and the lexeme of a token, whatever its line. -/
def Token.reading (t : Token) : TokenKind × String := (t.kind, t.lexeme)

/-- The lexemes of tokens with a blank between any two. -/
def Token.spaced (ts : List Token) : String := " ".intercalate (ts.map Token.lexeme)

/-- The kind and the lexeme of a piece that is a token. -/
def Piece.reading? : Piece → Option (TokenKind × String)
  | .token kind text => some (kind, String.ofList text)
  | _ => none

theorem map_reading_itemsOf (line : Nat) (ps : List Piece) :
    (tokensOf (itemsOf line ps)).map Token.reading =
      ps.filterMap Piece.reading? ++ [(.eof, "")] := by
  induction ps generalizing line with
  | nil => rfl
  | cons p ps ih =>
    have hsplit : tokensOf (itemsOf line (p :: ps)) =
        tokensOf (p.item? (line + newlines p.text)).toList ++
          tokensOf (itemsOf (line + newlines p.text) ps) := by
      rw [itemsOf, tokensOf, List.filterMap_append]
      rfl
    rw [hsplit, List.map_append, ih]
    cases p <;> rfl

theorem faultsOf_itemsOf {ps : List Piece} (hclean : ∀ cause text, .fault cause text ∉ ps)
    (line : Nat) : faultsOf (itemsOf line ps) = [] := by
  induction ps generalizing line with
  | nil => rfl
  | cons p ps ih =>
    have hlater := ih (fun cause text hmem => hclean cause text (List.mem_cons_of_mem p hmem))
      (line + newlines p.text)
    rw [itemsOf, faultsOf, List.filterMap_append]
    cases p with
    | fault cause text => exact absurd List.mem_cons_self (hclean cause text)
    | _ => exact hlater

/-- The lexemes are cut where they were joined: the pieces are the tokens, and blanks. -/
theorem pieces_spaced {ts : List Token} (hts : ∀ t ∈ ts, t.kind.Spells t.lexeme.toList) :
    (pieces (Token.spaced ts).toList).filterMap Piece.reading? = ts.map Token.reading ∧
      ∀ cause text, .fault cause text ∉ pieces (Token.spaced ts).toList := by
  induction ts with
  | nil =>
    have hnone : pieces (Token.spaced []).toList = [] := by
      rw [show (Token.spaced []).toList = [] from rfl, pieces]
    rw [hnone]
    exact ⟨rfl, fun _ _ => List.not_mem_nil⟩
  | cons t ts ih =>
    obtain ⟨ht, hlater⟩ := List.forall_mem_cons.mp hts
    have hreading : (.token t.kind t.lexeme.toList : Piece).reading? = some t.reading := by
      rw [Piece.reading?, String.ofList_toList, Token.reading]
    cases ts with
    | nil =>
      have hone : pieces (Token.spaced [t]).toList = [.token t.kind t.lexeme.toList] :=
        pieces_lexeme ht
      rw [hone, List.filterMap_cons_some hreading]
      exact ⟨rfl, fun _ _ => by simp⟩
    | cons u us =>
      have hmore : pieces (Token.spaced (t :: u :: us)).toList =
          .token t.kind t.lexeme.toList :: .blank [' '] ::
            pieces (Token.spaced (u :: us)).toList := by
        have htext : (Token.spaced (t :: u :: us)).toList =
            t.lexeme.toList ++ ' ' :: (Token.spaced (u :: us)).toList := by
          simp [Token.spaced]
        have hblank (cs : List Char) : pieces (' ' :: cs) = .blank [' '] :: pieces cs := by
          rw [pieces]
          rfl
        have hstop : AtBlank (' ' :: (Token.spaced (u :: us)).toList) := rfl
        rw [htext, pieces_spells ht hstop, hblank]
      obtain ⟨hreadings, hclean⟩ := ih hlater
      rw [hmore, List.filterMap_cons_some hreading, List.filterMap_cons_none rfl, hreadings]
      refine ⟨rfl, fun cause text hmem => ?_⟩
      exact hclean cause text (by simpa using hmem)

/-- The tokens of a source but for its end mark. -/
def properTokens (source : String) : List Token :=
  (tokensOf (scan source)).filter (·.kind ≠ .eof)

/-- The lexemes of a source with blanks between them, faults and end mark left out, have the
    same tokens again, and no faults.  The kind of a token and the value that it carries are
    told by its lexeme: tokens that agree in type, lexeme and line are the same. -/
theorem lexemes_rescan (source : String) :
    (faultsOf (scan (Token.spaced (properTokens source))) = [] ∧
      (tokensOf (scan (Token.spaced (properTokens source)))).map Token.reading =
        (properTokens source).map Token.reading ++ [(.eof, "")]) ∧
    ∀ source', ∀ t ∈ tokensOf (scan source), ∀ u ∈ tokensOf (scan source'),
      (t.lexeme = u.lexeme → t.kind = u.kind) ∧ (t.agrees u = true → t = u) := by
  refine ⟨?_, fun source' t ht u hu => ⟨kind_of_lexeme ht hu, fun hagrees => ?_⟩⟩
  · have hown : ∀ t ∈ properTokens source, t.kind.Spells t.lexeme.toList := by
      intro t ht
      obtain ⟨hmem, hkind⟩ := List.mem_filter.mp ht
      exact (spells_of_mem_scan hmem).resolve_left fun hend => of_decide_eq_true hkind hend.1
    obtain ⟨hreadings, hclean⟩ := pieces_spaced hown
    refine ⟨faultsOf_itemsOf hclean 1, ?_⟩
    rw [scan, map_reading_itemsOf, hreadings]
  · -- Type and value are told by the lexeme, and the line is compared.
    obtain ⟨⟨-, hlexeme⟩, hline⟩ : (_ ∧ t.lexeme = u.lexeme) ∧ t.line = u.line := by
      simpa [Token.agrees] using hagrees
    have hkind := kind_of_lexeme ht hu hlexeme
    obtain ⟨kind, lexeme, line⟩ := t
    obtain ⟨kind', lexeme', line'⟩ := u
    cases hkind
    cases hlexeme
    cases hline
    rfl

/-- A string with a line end in it, in two sources with other tokens around it. -/
theorem lexemes_rescan_string :
    ∃ t ∈ tokensOf (scan "\"a\nb\"@/ /"), ∃ u ∈ tokensOf (scan "x = \"a\nb\""),
      t.lexeme = u.lexeme ∧ t.agrees u = true ∧ t.kind = u.kind ∧ t = u := by
  let t : Token := ⟨.string "a\nb", "\"a\nb\"", 2⟩
  have hfirst : tokensOf (scan "\"a\nb\"@/ /") =
      [t, ⟨.symbol .slash, "/", 2⟩, ⟨.symbol .slash, "/", 2⟩, ⟨.eof, "", 2⟩] := by cbv
  have hsecond : tokensOf (scan "x = \"a\nb\"") =
      [⟨.identifier, "x", 1⟩, ⟨.symbol .equal, "=", 1⟩, t, ⟨.eof, "", 2⟩] := by cbv
  have ht : t ∈ tokensOf (scan "\"a\nb\"@/ /") := by
    rw [hfirst]
    exact List.mem_cons_self
  have hu : t ∈ tokensOf (scan "x = \"a\nb\"") := by
    rw [hsecond]
    exact List.mem_cons_of_mem _ (List.mem_cons_of_mem _ List.mem_cons_self)
  have hagrees : t.agrees t = true := by decide
  obtain ⟨-, htold⟩ := lexemes_rescan "\"a\nb\"@/ /"
  obtain ⟨hkind, hsame⟩ := htold _ t ht t hu
  exact ⟨t, ht, t, hu, rfl, hagrees, hkind rfl, hsame hagrees⟩

end Lox
