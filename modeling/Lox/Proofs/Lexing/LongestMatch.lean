/-
  Lox.Proofs.Lexing.LongestMatch

  A scanner gives the longest lexeme at its place, and a fault where there is none.

    * `Piece.Exact` — what the first piece of a text has to be: the longest lexeme, or
      a fault for a text that begins with no lexeme;
    * `Piece.exact_first` — the first piece is that, by cases on how it begins;
    * `Scanner.next_gap` — a call passes over blanks and comments;
    * `scanner_longest_match` — what a call gives at the start of a lexeme.
-/
import Lox.Proofs.Lexing.Grammar
import Lox.Proofs.Lexing.Segments

namespace Lox

/-- No lexeme stands at the start of a text. -/
def Unspelled (text : List Char) : Prop :=
  ∀ kind lexeme, TokenKind.Spells kind lexeme → ¬lexeme <+: text

/-- What is reported where a text begins with no lexeme, and for how much of it: an opening
    quote takes everything, any other character only itself. -/
inductive Reported : List Char → String → List Char → Prop
  | quote {content} : Reported ('"' :: content) "Unterminated string." ('"' :: content)
  | character {c cs} :
      c ≠ '"' → Reported (c :: cs) ("Unexpected character: " ++ String.singleton c) [c]

/-- A text that begins with neither a blank nor a comment. -/
def AtLexeme (text : List Char) : Prop :=
  (∃ c cs, text = c :: cs ∧ c ∉ [' ', '\t', '\r', '\n']) ∧ ¬['/', '/'] <+: text

namespace Piece

/-- What the first piece of `text`, with the rest behind it, has to be. -/
def Exact (text : List Char) : Piece × List Char → Prop
  | (.blank _, _) => False
  | (.token kind lexeme, rest) => Longest text kind lexeme rest
  | (.fault cause own, rest) =>
    Unspelled text ∧ Reported text cause.message own ∧ text = own ++ rest

/-! ## Strings -/

/-- A string at the start of a text ends at the first quote. -/
theorem exact_ofQuote (cs : List Char) : Exact ('"' :: cs) (ofQuote cs) := by
  have hcontent : '"' ∉ cs.takeWhile (· ≠ '"') := fun hmem => by
    have := List.mem_takeWhile_imp hmem
    simp at this
  -- A lexeme that begins with a quote is a string, and its content ends where the run ends.
  have hstring {kind lexeme} (hspells : TokenKind.Spells kind lexeme)
      (hfront : lexeme <+: '"' :: cs) :
      ∃ rest, lexeme = '"' :: (cs.takeWhile (· ≠ '"') ++ ['"']) ∧
        cs.dropWhile (· ≠ '"') = '"' :: rest := by
    obtain ⟨more, rest, rfl, rfl, hshape⟩ := hspells.shape_of_front hfront
    obtain ⟨s, hs, -⟩ | ⟨-, content, hfree, rfl⟩ | ⟨hdigit, -⟩ | ⟨hstart, -⟩ := hshape
    · cases hs
    · have hinside (d : Char) (hd : d ∈ content) : decide (d ≠ '"') = true := by
        rw [decide_eq_true_eq]
        rintro rfl
        exact hfree hd
      have hend : ('"' :: rest).head?.any (fun d => decide (d ≠ '"')) = false := by simp
      obtain ⟨htake, hdrop⟩ := takeWhile_append_stop content hinside hend
      rw [List.append_assoc, List.singleton_append, htake, hdrop]
      exact ⟨rest, rfl, rfl⟩
    · exact absurd hdigit (by decide)
    · exact absurd hstart (by decide)
  have hsplit := List.takeWhile_append_dropWhile (p := (· ≠ '"')) (l := cs)
  unfold ofQuote
  split
  · next hnone =>
    rw [hnone, List.append_nil] at hsplit
    rw [hsplit]
    refine ⟨fun kind lexeme hspells hfront => ?_, .quote, (List.append_nil _).symm⟩
    obtain ⟨rest, -, hclose⟩ := hstring hspells hfront
    rw [hnone] at hclose
    cases hclose
  · next close rest hclose =>
    have hquote : close = '"' := by
      have hstop := head_dropWhile_any (· ≠ '"') cs
      rw [hclose] at hstop
      simpa using hstop
    subst hquote
    rw [hclose] at hsplit
    refine ⟨by simpa using hsplit.symm, .string hcontent, fun kind lexeme hspells hfront => ?_⟩
    obtain ⟨_, rfl, -⟩ := hstring hspells hfront
    exact Nat.le_refl _

/-! ## Numbers -/

theorem spells_digits {digits : List Char} (hne : digits ≠ [])
    (hdigits : ∀ d ∈ digits, isDigit d = true) :
    TokenKind.Spells (.number (Number.Decimal.ofLexeme digits).toFloat) digits := by
  refine .whole hne hdigits ?_
  rw [← Number.Decimal.value_whole hdigits]
  exact Number.Decimal.nearest_bits _

theorem spells_fraction {whole digits : List Char} (hne : whole ≠ [])
    (hwhole : ∀ d ∈ whole, isDigit d = true) (hne' : digits ≠ [])
    (hdigits : ∀ d ∈ digits, isDigit d = true) :
    TokenKind.Spells (.number (Number.Decimal.ofLexeme (whole ++ '.' :: digits)).toFloat)
      (whole ++ '.' :: digits) := by
  refine .fraction hne hwhole hne' hdigits ?_
  rw [← Number.Decimal.value_fraction hwhole]
  exact Number.Decimal.nearest_bits _

/-- A fraction is as long as any at the same place. -/
theorem length_le_fraction {digits rest : List Char} (hne : digits ≠ [])
    (hdigits : ∀ d ∈ digits, isDigit d = true) :
    ('.' :: digits).length ≤ (fraction ('.' :: (digits ++ rest))).length := by
  obtain ⟨d, ds, rfl⟩ := List.exists_cons_of_ne_nil hne
  have hd := hdigits d List.mem_cons_self
  have hrun : ds.length ≤ ((ds ++ rest).takeWhile isDigit).length :=
    length_le_takeWhile (fun c hc => hdigits c (List.mem_cons_of_mem d hc)) (List.prefix_append ..)
  simpa [fraction, hd] using hrun

/-- A number takes all digits, and a fraction if there is one. -/
theorem exact_ofDigits {c : Char} (cs : List Char) (hc : isDigit c = true) :
    Exact (c :: cs) (ofDigits (c :: cs)) := by
  have hne : (c :: cs).takeWhile isDigit ≠ [] := by simp [hc]
  have hwhole (d : Char) (hd : d ∈ (c :: cs).takeWhile isDigit) : isDigit d = true :=
    List.mem_takeWhile_imp hd
  refine ⟨(ofDigits_append (c :: cs)).symm, ?_, fun kind lexeme hspells hfront => ?_⟩
  · obtain hnil | ⟨d, more, -, hd, hfraction⟩ := fraction_cases ((c :: cs).dropWhile isDigit)
    · rw [hnil, List.append_nil]
      exact spells_digits hne hwhole
    · rw [hfraction]
      refine spells_fraction hne hwhole (List.cons_ne_nil _ _) fun e he => ?_
      obtain rfl | he := List.mem_cons.mp he
      · exact hd
      · exact List.mem_takeWhile_imp he
  · obtain ⟨more, rest, rfl, rfl, hshape⟩ := hspells.shape_of_front hfront
    obtain ⟨s, hs, -⟩ | ⟨rfl, -⟩ | ⟨-, whole, behind, hsplit, hown, hbehind⟩ | ⟨hstart, -⟩ :=
      hshape
    · rw [Symbol.ofChar?_other (.inr (.inl hc))] at hs
      cases hs
    · exact absurd hc (by decide)
    · -- The whole part is within the run of digits, and is all of it where a point follows.
      rw [← List.cons_append, hsplit, List.length_append, List.length_append]
      obtain rfl | ⟨digits, rfl, hne', hdigits⟩ := hbehind
      · have hfound : whole <+: whole ++ [] ++ rest := by simp
        exact Nat.le_trans (length_le_takeWhile hown hfound) (Nat.le_add_right _ _)
      · have hend : ('.' :: (digits ++ rest)).head?.any isDigit = false := rfl
        obtain ⟨htake, hdrop⟩ := takeWhile_append_stop whole hown hend
        rw [List.append_assoc, List.cons_append, htake, hdrop]
        exact Nat.add_le_add_left (length_le_fraction hne' hdigits) _
    · rw [not_isDigit_of_isNameStart hstart] at hc
      cases hc

/-! ## Words -/

/-- A word is reserved or a name. -/
theorem spells_word {c : Char} {cs : List Char} (hc : isNameStart c = true)
    (hcs : ∀ d ∈ cs, isNamePart d = true) :
    TokenKind.Spells (wordKind (String.ofList (c :: cs))) (c :: cs) := by
  unfold wordKind
  split
  · next k hk =>
    have htext := congrArg String.toList (Keyword.ofText?_eq_some hk)
    rw [String.toList_ofList] at htext
    exact htext ▸ .keyword k
  · next hnone =>
    refine .name (isNameStart_iff.mp hc) (fun d hd => isNamePart_iff.mp (hcs d hd)) fun k hk => ?_
    exact Keyword.ofText?_eq_none hnone k (String.toList_inj.mp (by rw [hk, String.toList_ofList]))

/-- A word takes all characters that can be in one. -/
theorem exact_ofWord {c : Char} (cs : List Char) (hc : isNameStart c = true) :
    Exact (c :: cs) (ofWord (c :: cs)) := by
  have hrun : (c :: cs).takeWhile isNamePart = c :: cs.takeWhile isNamePart := by
    rw [List.takeWhile_cons, if_pos (isNamePart_of_isNameStart hc)]
  refine ⟨(ofWord_append (c :: cs)).symm, ?_, fun kind lexeme hspells hfront => ?_⟩
  · rw [hrun]
    exact spells_word hc fun d hd => List.mem_takeWhile_imp hd
  · refine length_le_takeWhile (fun d hd => ?_) hfront
    obtain ⟨more, rest, rfl, rfl, hshape⟩ := hspells.shape_of_front hfront
    obtain ⟨s, hs, -⟩ | ⟨rfl, -⟩ | ⟨hdigit, -⟩ | ⟨-, hparts⟩ := hshape
    · rw [Symbol.ofChar?_other (.inr (.inr hc))] at hs
      cases hs
    · exact absurd hc (by decide)
    · rw [not_isDigit_of_isNameStart hc] at hdigit
      cases hdigit
    · obtain rfl | hd := List.mem_cons.mp hd
      · exact isNamePart_of_isNameStart hc
      · exact hparts d hd

/-! ## Symbols -/

/-- What a lexeme that begins like no string, number or word can be. -/
theorem spells_symbol {c : Char} {cs lexeme : List Char} {kind : TokenKind}
    (hspells : kind.Spells lexeme) (hfront : lexeme <+: c :: cs) (hquote : c ≠ '"')
    (hdigit : isDigit c ≠ true) (hstart : isNameStart c ≠ true) :
    ∃ s, Symbol.ofChar? c = some s ∧
      (lexeme = [c] ∨ lexeme = [c, '='] ∧ s.withEqual?.isSome ∧ cs.head? = some '=') := by
  obtain ⟨more, rest, rfl, rfl, hshape⟩ := hspells.shape_of_front hfront
  obtain ⟨s, hs, rfl | ⟨rfl, hboth⟩⟩ | ⟨rfl, -⟩ | ⟨hdigit', -⟩ | ⟨hstart', -⟩ := hshape
  · exact ⟨s, hs, .inl rfl⟩
  · exact ⟨s, hs, .inr ⟨rfl, hboth, rfl⟩⟩
  · exact absurd rfl hquote
  · exact absurd hdigit' hdigit
  · exact absurd hstart' hstart

/-- A symbol takes `=` behind it where it can. -/
theorem exact_ofSymbol {s : Symbol} {c : Char} (cs : List Char)
    (hs : Symbol.ofChar? c = some s) (hquote : c ≠ '"') (hdigit : isDigit c ≠ true)
    (hstart : isNameStart c ≠ true) : Exact (c :: cs) (ofSymbol s c cs) := by
  have hshape {kind lexeme} (hspells : TokenKind.Spells kind lexeme)
      (hfront : lexeme <+: c :: cs) := spells_symbol hspells hfront hquote hdigit hstart
  have htext := Symbol.text_of_ofChar? hs
  unfold ofSymbol
  split
  · next both rest hboth =>
    have htwo := Symbol.text_of_withEqual? hboth htext
    refine ⟨rfl, htwo ▸ .symbol both, fun kind lexeme hspells hfront => ?_⟩
    obtain ⟨_, -, rfl | ⟨rfl, -⟩⟩ := hshape hspells hfront
    · exact Nat.le_succ 1
    · exact Nat.le_refl 2
  · next hother =>
    refine ⟨rfl, htext ▸ .symbol s, fun kind lexeme hspells hfront => ?_⟩
    obtain ⟨t, ht, rfl | ⟨rfl, hboth, hequal⟩⟩ := hshape hspells hfront
    · exact Nat.le_refl 1
    · -- A longer lexeme would be a symbol with `=`, which was looked for first.
      obtain rfl : s = t := Option.some.inj (hs.symm.trans ht)
      obtain ⟨both, hboth⟩ := Option.isSome_iff_exists.mp hboth
      obtain ⟨rest, rfl⟩ := List.head?_eq_some_iff.mp hequal
      exact absurd rfl (hother both rest hboth)

/-! ## The first piece -/

/-- Where neither a blank nor a comment stands, the first piece is the longest lexeme or a
    fault. -/
theorem exact_first {c : Char} {cs : List Char} (hblank : isBlank c ≠ true)
    (hcomment : ¬(c = '/' ∧ cs.head? = some '/')) : Exact (c :: cs) (first c cs) := by
  unfold first
  rw [if_neg hblank]
  by_cases hquote : c = '"'
  · rw [if_pos hquote, hquote]
    exact exact_ofQuote cs
  rw [if_neg hquote, if_neg hcomment]
  by_cases hdigit : isDigit c = true
  · rw [if_pos hdigit]
    exact exact_ofDigits cs hdigit
  rw [if_neg hdigit]
  by_cases hstart : isNameStart c = true
  · rw [if_pos hstart]
    exact exact_ofWord cs hstart
  rw [if_neg hstart]
  cases hsymbol : Symbol.ofChar? c with
  | some s => exact exact_ofSymbol cs hsymbol hquote hdigit hstart
  | none =>
    refine ⟨fun kind lexeme hspells hfront => ?_, .character hquote, rfl⟩
    obtain ⟨s, hs, -⟩ := spells_symbol hspells hfront hquote hdigit hstart
    rw [hsymbol] at hs
    cases hs

end Piece

/-! ## Calls -/

namespace Scanner

/-- A call passes over a piece without an item. -/
theorem next_of_blank {c : Char} {cs own rest : List Char}
    (h : Piece.first c cs = (.blank own, rest)) (line : Nat) (ended : Bool) :
    next ⟨c :: cs, line, ended⟩ = next ⟨rest, line + newlines own, ended⟩ := by
  conv_lhs => rw [next]
  dsimp only
  rw [h]
  rfl

/-- A call gives the item of any other piece. -/
theorem next_of_item {c : Char} {cs : List Char} {p : Piece} {rest : List Char}
    (h : Piece.first c cs = (p, rest)) (line : Nat) (ended : Bool) {item : Item}
    (hitem : p.item? (line + newlines p.text) = some item) :
    next ⟨c :: cs, line, ended⟩ = (some item, ⟨rest, line + newlines p.text, ended⟩) := by
  rw [next]
  dsimp only
  rw [h]
  dsimp only
  rw [hitem]

/-- A call passes over blanks and comments. -/
theorem next_gap {gap rest : List Char} (h : Gap gap rest) (line : Nat) (ended : Bool) :
    next ⟨gap ++ rest, line, ended⟩ = next ⟨rest, line + newlines gap, ended⟩ := by
  induction h generalizing line with
  | nil => rfl
  | @blank c text after hc _ ih =>
    have hfirst : Piece.first c (text ++ after) = (.blank [c], text ++ after) := by
      rw [Piece.first, if_pos]
      obtain rfl | rfl | rfl | rfl := hc <;> rfl
    rw [List.cons_append, next_of_blank hfirst, ih, newlines, newlines, newlines, Nat.add_assoc,
      ← List.count_append, List.singleton_append]
  | @comment own text after hown hend _ ih =>
    have hinside (c : Char) (hc : c ∈ '/' :: '/' :: own) : decide (c ≠ '\n') = true := by
      rw [decide_eq_true_eq]
      rintro rfl
      exact hown (by simpa using hc)
    have hstop : (text ++ after).head?.any (fun c => decide (c ≠ '\n')) = false := by
      obtain hnil | hnewline := hend
      · rw [hnil]
        rfl
      · rw [hnewline]
        rfl
    obtain ⟨htake, hdrop⟩ := Piece.takeWhile_append_stop _ hinside hstop
    have hfirst : Piece.first '/' ('/' :: (own ++ (text ++ after))) =
        (.blank ('/' :: '/' :: own), text ++ after) := by
      show Piece.ofComment ('/' :: '/' :: own ++ (text ++ after)) = _
      rw [Piece.ofComment, htake, hdrop]
    rw [List.cons_append, List.cons_append, List.append_assoc, next_of_blank hfirst, ih, newlines,
      newlines, newlines, Nat.add_assoc, ← List.count_append]
    rfl

end Scanner

/-- Behind any gap, a call gives the longest lexeme with its kind, on the line on which it
    ends, and leaves the rest of the text.  Where no lexeme begins, and only there, it
    reports the fault. -/
theorem scanner_longest_match (s : Scanner) {gap text : List Char} (hrest : s.rest = gap ++ text)
    (hgap : Gap gap text) (hstart : AtLexeme text) :
    let line (own : List Char) := s.line + (gap ++ own).count '\n'
    (¬Unspelled text ∧ ∃ kind lexeme rest, Longest text kind lexeme rest ∧
      s.next = (some (.ok ⟨kind, String.ofList lexeme, line lexeme⟩),
        ⟨rest, line lexeme, s.ended⟩)) ∨
    (Unspelled text ∧ ∃ cause own rest, Reported text cause.message own ∧ text = own ++ rest ∧
      s.next = (some (.error (.lexical (line own) cause)), ⟨rest, line own, s.ended⟩)) := by
  intro line
  obtain ⟨⟨c, cs, rfl, hblank⟩, hcomment⟩ := hstart
  have hexact : Piece.Exact (c :: cs) (Piece.first c cs) := by
    refine Piece.exact_first ?_ ?_
    · simpa [Piece.isBlank, or_assoc, or_left_comm, or_comm] using hblank
    · rintro ⟨rfl, hslash⟩
      obtain ⟨more, rfl⟩ := List.head?_eq_some_iff.mp hslash
      exact hcomment ⟨more, rfl⟩
  have hnext : s.next = Scanner.next ⟨c :: cs, s.line + newlines gap, s.ended⟩ := by
    rw [← Scanner.next_gap hgap, ← hrest]
  have hline (own : List Char) : s.line + newlines gap + newlines own = line own := by
    simp only [line, newlines, List.count_append]
    omega
  cases hfirst : Piece.first c cs with
  | mk p rest =>
    rw [hfirst] at hexact
    cases p with
    | blank own => exact hexact.elim
    | token kind lexeme =>
      have hlongest : Longest (c :: cs) kind lexeme rest := hexact
      refine .inl ⟨fun hnone => ?_, kind, lexeme, rest, hlongest, ?_⟩
      · exact hnone kind lexeme hlongest.spells ⟨rest, hlongest.split.symm⟩
      · rw [hnext, Scanner.next_of_item hfirst _ _ rfl, ← hline]
        rfl
    | fault cause own =>
      obtain ⟨hnone, hreported, hsplit⟩ := hexact
      refine .inr ⟨hnone, cause, own, rest, hreported, hsplit, ?_⟩
      rw [hnext, Scanner.next_of_item hfirst _ _ rfl, ← hline]
      rfl

/-- A word is read to its end, though a reserved word stands at its start. -/
theorem scanner_longest_match_word : ∃ kind lexeme rest,
    Longest "or1;".toList kind lexeme rest ∧ 3 ≤ lexeme.length ∧
      (Scanner.ofSource " or1;").next = (some (.ok ⟨kind, String.ofList lexeme,
        1 + ([' '] ++ lexeme).count '\n'⟩), ⟨rest, 1 + ([' '] ++ lexeme).count '\n', false⟩) := by
  have hparts : ∀ d ∈ ['r', '1'], d.isAlphanum = true ∨ d = '_' :=
    List.forall_mem_cons.mpr ⟨by decide, List.forall_mem_cons.mpr ⟨by decide, nofun⟩⟩
  have hword : TokenKind.Spells .identifier ['o', 'r', '1'] :=
    .name (by decide) hparts (by intro k; cases k <;> decide)
  have hfront : ['o', 'r', '1'] <+: "or1;".toList := by decide
  have hatLexeme : AtLexeme "or1;".toList := ⟨⟨'o', ['r', '1', ';'], rfl, by decide⟩, by decide⟩
  obtain ⟨-, kind, lexeme, rest, hlongest, hnext⟩ | ⟨hnone, -⟩ :=
    scanner_longest_match (Scanner.ofSource " or1;") rfl (.blank (.inl rfl) .nil) hatLexeme
  · exact ⟨kind, lexeme, rest, hlongest, hlongest.longest _ _ hword hfront, hnext⟩
  · exact (hnone _ _ hword hfront).elim

end Lox
