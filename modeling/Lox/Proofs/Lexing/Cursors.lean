/-
  Lox.Proofs.Lexing.Cursors

  Scanning byte by byte never looks outside the text, and finds what scanning by characters
  finds.

    * `value?_lexeme` — digits and a fraction have a value;
    * `Cursor.behind` — the place behind a piece, and what is known of it there;
    * `scanFrom_first`, `turn_first` — a turn reads the first piece of what is left;
    * `Cursor.Follows` — a cursor and a scanner that have the same text left;
    * `never_slips` — all turns and calls, from the start on.

  Each step begins between two characters, and so it ends between two.
-/
import Lox.Proofs.Lexing.Bytes
import Lox.Proofs.Lexing.Segments

namespace Lox

/-! ## What a piece begins with -/

/-- Symbols begin with ASCII characters. -/
theorem Symbol.ascii_of_ofChar? {c : Char} {s : Symbol} (h : ofChar? c = some s) :
    c.toNat < 128 ∧ c ≠ '\n' := by
  unfold ofChar? at h
  split at h <;> first | decide | cases h

namespace Piece

theorem ofSymbol_equal {s both : Symbol} {c : Char} {cs : List Char}
    (h : s.withEqual? = some both) :
    ofSymbol s c ('=' :: cs) = (.token (.symbol both) [c, '='], cs) := by
  simp [ofSymbol, h]

theorem ofSymbol_alone {s : Symbol} {c : Char} {cs : List Char}
    (h : s.withEqual? = none ∨ cs.head? ≠ some '=') :
    ofSymbol s c cs = (.token (.symbol s) [c], cs) := by
  unfold ofSymbol
  split
  · next hboth => simp [hboth] at h
  · rfl

/-- The fault that a piece ending on `line` is. -/
def fault? (line : Nat) : Piece → Option Diagnostic
  | fault cause _ => some (.lexical line cause)
  | _ => none

/-- The kind of token that a piece is. -/
def kind? : Piece → Option TokenKind
  | token kind _ => some kind
  | _ => none

theorem first_comment (cs : List Char) :
    first '/' ('/' :: cs) = (.blank (('/' :: '/' :: cs).takeWhile (· ≠ '\n')),
      ('/' :: '/' :: cs).dropWhile (· ≠ '\n')) := rfl

theorem first_slash {cs : List Char} (h : cs.head? ≠ some '/') :
    first '/' cs = (.token (.symbol .slash) ['/'], cs) := by
  unfold first
  rw [if_neg (by decide), if_neg (by decide), if_neg fun hslash => h hslash.2,
    if_neg (by decide), if_neg (by decide)]
  exact ofSymbol_alone (.inl rfl)

theorem fault?_ofSymbol (line : Nat) (s : Symbol) (c : Char) (cs : List Char) :
    (ofSymbol s c cs).1.fault? line = none := by
  unfold ofSymbol
  split <;> rfl

/-- Characters with several bytes are in no class, and nor are such bytes. -/
theorem large_cases {c : Char} (h : 128 ≤ c.toNat) :
    c ≠ '\n' ∧ isBlank c = false ∧ c ≠ '"' ∧ c ≠ '/' ∧ isDigit c = false ∧
      isNameStart c = false ∧ Symbol.ofChar? c = none := by
  have hother (d : Char) (hd : d.toNat < 128) : c ≠ d := fun hc =>
    absurd (hc ▸ hd) (Nat.not_lt.mpr h)
  have hblank : isBlank c = false := by
    simp [isBlank, hother ' ' (by decide), hother '\r' (by decide), hother '\t' (by decide),
      hother '\n' (by decide)]
  have hpart : isNamePart c = false := Bool.eq_false_iff.mpr fun hpart =>
    absurd (ascii_of_isNamePart hpart) (Nat.not_lt.mpr h)
  have hsymbol : Symbol.ofChar? c = none := Option.eq_none_iff_forall_ne_some.mpr fun s hs =>
    absurd (Symbol.ascii_of_ofChar? hs).1 (Nat.not_lt.mpr h)
  rw [isNamePart, Bool.or_eq_false_iff] at hpart
  exact ⟨hother _ (by decide), hblank, hother _ (by decide), hother _ (by decide), hpart.2,
    hpart.1, hsymbol⟩

theorem first_of_large {c : Char} (h : 128 ≤ c.toNat) (cs : List Char) :
    first c cs = (.fault (.unexpectedCharacter c) [c], cs) := by
  obtain ⟨-, hblank, hquote, hslash, hdigit, hstart, hsymbol⟩ := large_cases h
  simp [first, hblank, hquote, hslash, hdigit, hstart, hsymbol]

end Piece

namespace Cursor

/-! ## Numbers -/

theorem toLower_of_isDigit {d : Char} (h : d.isDigit = true) : d.toLower = d := by
  simp only [Char.isDigit, Bool.and_eq_true, decide_eq_true_eq] at h
  unfold Char.toLower
  refine dif_neg fun hupper => ?_
  exact absurd (UInt32.le_trans hupper.1 h.2) (by decide)

section

variable {whole : List Char} (hwhole : ∀ d ∈ whole, d.isDigit = true) (hne : whole ≠ [])
  (rest : List Char)
include hwhole hne

/-- Digits and a fraction are a numeral with no exponent. -/
theorem decimal?_lexeme :
    Number.Numeral.decimal? (whole ++ Piece.fraction rest) =
      some (Number.Decimal.ofLexeme (whole ++ Piece.fraction rest)) := by
  have hpoint : ∀ d ∈ whole, (d != '.') = true := fun d hd => by
    rw [bne_iff_ne]
    rintro rfl
    cases hwhole _ hd
  unfold Number.Numeral.decimal? Number.Decimal.ofLexeme
  obtain hnone | ⟨d, more, -, hd, hsome⟩ := Piece.fraction_cases rest
  · rw [hnone]
    obtain ⟨htake, hdrop⟩ := @Piece.takeWhile_append_stop _ whole [] hwhole rfl
    obtain ⟨htake', hdrop'⟩ := @Piece.takeWhile_append_stop _ whole [] hpoint rfl
    rw [htake, hdrop, htake', hdrop']
    simp [hne, Number.Numeral.exponent?]
  · have hfraction : ∀ e ∈ d :: more.takeWhile Piece.isDigit, e.isDigit = true := by
      rintro e (_ | ⟨_, he⟩)
      · exact hd
      · exact List.mem_takeWhile_imp he
    rw [hsome]
    generalize d :: more.takeWhile Piece.isDigit = digits at hfraction ⊢
    obtain ⟨htake, hdrop⟩ := @Piece.takeWhile_append_stop _ whole ('.' :: digits) hwhole rfl
    obtain ⟨htake', hdrop'⟩ := @Piece.takeWhile_append_stop _ whole ('.' :: digits) hpoint rfl
    obtain ⟨hall, hnone⟩ := @Piece.takeWhile_append_stop _ digits [] hfraction rfl
    rw [List.append_nil] at hall hnone
    rw [htake, hdrop, htake', hdrop']
    simp [hne, hall, hnone, Number.Numeral.exponent?]

/-- Digits and a fraction always have a value. -/
theorem value?_lexeme :
    Number.Numeral.value? (String.ofList (whole ++ Piece.fraction rest)) =
      some (Number.Decimal.ofLexeme (whole ++ Piece.fraction rest)).toFloat := by
  obtain ⟨d, ds, rfl⟩ := List.exists_cons_of_ne_nil hne
  have hd := hwhole d List.mem_cons_self
  have hsign : Number.Numeral.signed (d :: ds ++ Piece.fraction rest) =
      (false, d :: ds ++ Piece.fraction rest) := by
    unfold Number.Numeral.signed
    split
    · next heq =>
      cases heq
      cases hd
    · next heq =>
      cases heq
      cases hd
    · rfl
  -- No name of a special value begins with a digit.
  have hword (e : Char) (es : List Char) (he : e.isDigit = false) :
      String.ofList ((d :: ds ++ Piece.fraction rest).map Char.toLower) ≠
        String.ofList (e :: es) := by
    rw [Ne, String.ofList_inj, List.cons_append, List.map_cons, toLower_of_isDigit hd]
    rintro ⟨⟩
    rw [hd] at he
    cases he
  have hinf := hword 'i' ['n', 'f'] rfl
  have hinfinity := hword 'i' ['n', 'f', 'i', 'n', 'i', 't', 'y'] rfl
  have hnan := hword 'n' ['a', 'n'] rfl
  unfold Number.Numeral.value? Number.Numeral.bits?
  rw [String.toList_ofList, hsign]
  dsimp only
  rw [if_neg (not_or.mpr ⟨hinf, hinfinity⟩), if_neg hnan, decimal?_lexeme hwhole hne]
  rfl

end

section

variable {source : String} {before rest : List Char} {c : Cursor}

theorem scanFraction_between (h : source.toList = before ++ rest) (hc : c.curr = place before) :
    scanFraction source c = .ok () { c with curr := place (before ++ Piece.fraction rest) } := by
  have hsame : { c with curr := place (before ++ []) } = c := by rw [List.append_nil, ← hc]
  obtain ⟨b, hpeek, hpass⟩ := peek_between h hc
  have hpoint := hpass _ (uniform_eq '.' (by decide)) rfl
  unfold scanFraction
  rw [bind_of_ok hpeek]
  by_cases hb : Char.ofUInt8 b = '.'
  · rw [if_pos hb]
    obtain ⟨ds, rfl⟩ : ∃ ds, rest = '.' :: ds := by
      cases rest with
      | nil => simp [hb] at hpoint
      | cons d ds => exact ⟨ds, by simpa [hb, eq_comm] using hpoint⟩
    obtain ⟨b', hnext, hpass'⟩ := peekNext_between (by decide) h hc
    have hdigit := hpass' _ uniform_isDigit rfl
    have hbehind : source.toList = (before ++ ['.']) ++ ds := by simp [h]
    obtain ⟨b'', hadvance⟩ := advance_between (by decide) h hc
    rw [bind_of_ok hnext, hdigit]
    cases hd : ds.head?.any Piece.isDigit with
    | false =>
      have hnone : Piece.fraction ('.' :: ds) = [] := by simp [Piece.fraction_eq_nil_iff, hd]
      rw [hnone, hsame]
      rfl
    | true =>
      have hfraction : Piece.fraction ('.' :: ds) = '.' :: ds.takeWhile Piece.isDigit := by
        cases ds with
        | nil => cases hd
        | cons e es => simp_all [Piece.fraction]
      rw [if_pos rfl, bind_of_ok hadvance, advanceWhile_between uniform_isDigit rfl hbehind rfl,
        hfraction, List.append_assoc, List.singleton_append]
  · rw [if_neg hb]
    have hnone : Piece.fraction rest = [] := by
      rw [Piece.fraction_eq_nil_iff]
      rintro ⟨hhead, -⟩
      simp [hhead, hb] at hpoint
    rw [hnone, hsame]
    rfl

end

/-! ## Pieces -/

/-- Behind a piece that begins on `line` behind `before`. -/
def behind (before : List Char) (line : Nat) (p : Piece) : Cursor :=
  ⟨place before, place (before ++ p.text), line + newlines p.text, p.kind?⟩

/-- What is read of a word or a number has no line ends. -/
theorem newlines_eq_zero {own : List Char} (P : Char → Bool) (hP : P '\n' = false)
    (hown : ∀ c ∈ own, P c = true) : newlines own = 0 := by
  refine List.count_eq_zero.mpr fun hmem => ?_
  rw [hown _ hmem] at hP
  cases hP

theorem mem_fraction {cs : List Char} {c : Char} (hc : c ∈ Piece.fraction cs) :
    c = '.' ∨ Piece.isDigit c = true := by
  obtain hnone | ⟨d, more, -, hd, hsome⟩ := Piece.fraction_cases cs
  · rw [hnone] at hc
    cases hc
  · rw [hsome, List.mem_cons, List.mem_cons] at hc
    obtain rfl | rfl | hc := hc
    · exact .inl rfl
    · exact .inr hd
    · exact .inr (List.mem_takeWhile_imp hc)

section

variable {source : String} {before cs : List Char} {d : Char} (line : Nat)
  (h : source.toList = before ++ d :: cs)
include h

theorem scanNumber_first (hd : Piece.isDigit d = true) :
    scanNumber source ⟨place before, place (before ++ [d]), line, none⟩ =
      .ok () (behind before line (Piece.ofDigits (d :: cs)).1) := by
  have hrest : source.toList = (before ++ [d]) ++ cs := by simp [h]
  have hwhole : (d :: cs).takeWhile Piece.isDigit = d :: cs.takeWhile Piece.isDigit := by
    rw [List.takeWhile_cons, if_pos hd]
  have hown : ∀ e ∈ (d :: cs).takeWhile Piece.isDigit, Piece.isDigit e = true :=
    fun _ => List.mem_takeWhile_imp
  have hdigits : (d :: cs).takeWhile Piece.isDigit ++ (d :: cs).dropWhile Piece.isDigit = d :: cs :=
    List.takeWhile_append_dropWhile
  have hlexeme := Piece.ofDigits_append (d :: cs)
  unfold scanNumber behind
  unfold Piece.ofDigits at hlexeme ⊢
  dsimp only [Piece.text, Piece.kind?] at hlexeme ⊢
  rw [bind_of_ok (advanceWhile_between uniform_isDigit rfl hrest rfl), List.append_assoc,
    List.singleton_append, ← hwhole]
  have hne : (d :: cs).takeWhile Piece.isDigit ≠ [] := by simp [hwhole]
  generalize (d :: cs).takeWhile Piece.isDigit = whole at *
  generalize (d :: cs).dropWhile Piece.isDigit = rest at *
  have hbehind : source.toList = (before ++ whole) ++ rest := by
    rw [List.append_assoc, hdigits, h]
  have hslice := slice_between (whole ++ Piece.fraction rest)
    (rest.drop (Piece.fraction rest).length) (by rw [hlexeme, h])
  have hlines : newlines (whole ++ Piece.fraction rest) = 0 := by
    refine newlines_eq_zero (fun c => decide (c = '.') || Piece.isDigit c) (by decide)
      fun c hc => ?_
    rw [Bool.or_eq_true, decide_eq_true_eq]
    obtain hc | hc := List.mem_append.mp hc
    · exact .inr (hown c hc)
    · exact mem_fraction hc
  rw [bind_of_ok (scanFraction_between hbehind rfl), List.append_assoc, hlines]
  unfold takeNumber
  rw [get_bind, bind_of_ok (hslice _), value?_lexeme hown hne]
  rfl

theorem scanWord_first (hd : Piece.isNameStart d = true) :
    scanWord source ⟨place before, place (before ++ [d]), line, none⟩ =
      .ok () (behind before line (Piece.ofWord (d :: cs)).1) := by
  have hrest : source.toList = (before ++ [d]) ++ cs := by simp [h]
  have hword : (d :: cs).takeWhile Piece.isNamePart = d :: cs.takeWhile Piece.isNamePart := by
    rw [List.takeWhile_cons, if_pos (Piece.isNamePart_of_isNameStart hd)]
  have hslice := slice_between ((d :: cs).takeWhile Piece.isNamePart)
    ((d :: cs).dropWhile Piece.isNamePart) (by rw [List.takeWhile_append_dropWhile, h])
  have hlines : newlines ((d :: cs).takeWhile Piece.isNamePart) = 0 :=
    newlines_eq_zero Piece.isNamePart (by decide) fun _ => List.mem_takeWhile_imp
  unfold scanWord behind Piece.ofWord
  rw [bind_of_ok (advanceWhile_between uniform_isNamePart rfl hrest rfl), get_bind]
  dsimp only [Piece.text, Piece.kind?]
  rw [hlines, List.append_assoc, List.singleton_append, ← hword, bind_of_ok (hslice _)]
  rfl

theorem scanString_first (hd : d = '"') :
    scanString source ⟨place before, place (before ++ [d]), line, none⟩ =
      .ok ((Piece.ofQuote cs).1.fault? (line + newlines (Piece.ofQuote cs).1.text))
        (behind before line (Piece.ofQuote cs).1) := by
  subst hd
  have hrest : source.toList = (before ++ ['"']) ++ cs := by simp [h]
  have hquote := toQuote_between hrest
    (rfl : (⟨place before, place (before ++ ['"']), line, none⟩ : Cursor).curr = _)
  have hcontent : cs.takeWhile (· ≠ '"') ++ cs.dropWhile (· ≠ '"') = cs :=
    List.takeWhile_append_dropWhile
  have hstop := Piece.head_dropWhile_any (· ≠ '"') cs
  have hopen (own : List Char) : newlines ('"' :: own) = newlines own := by simp [newlines]
  unfold scanString behind Piece.ofQuote
  rw [bind_of_ok hquote, bind_of_ok (atEnd_left _)]
  dsimp only
  generalize cs.takeWhile (· ≠ '"') = content at *
  generalize cs.dropWhile (· ≠ '"') = after at *
  have hbehind : source.toList = (before ++ ['"'] ++ content) ++ after := by
    rw [List.append_assoc, hcontent, hrest]
  rw [left_between hbehind rfl]
  cases after with
  | nil =>
    dsimp only [Piece.text, Piece.fault?, Piece.kind?]
    rw [hopen, List.append_assoc, List.singleton_append]
    rfl
  | cons close rest =>
    obtain rfl : close = '"' := by simpa using hstop
    obtain ⟨b, hadvance⟩ := @advance_between source _ _
      ⟨place before, place (before ++ ['"'] ++ content), line + newlines content, none⟩ _
      (by decide) hbehind rfl
    have hmore : (encode ('"' :: rest)).isEmpty = false := rfl
    have hlines : newlines ('"' :: content ++ ['"']) = newlines content := by simp [newlines]
    have hslice := slice_between content ('"' :: rest) (by rw [hbehind, List.append_assoc])
    have hopening : place before + 1 = place (before ++ ['"']) :=
      (place_succ (d := '"') (by decide) before).symm
    have hend : place (before ++ ['"'] ++ content ++ ['"']) - 1 =
        place (before ++ ['"'] ++ content) := by
      rw [place_succ (by decide), Nat.add_sub_cancel]
    have hall : before ++ ['"'] ++ content ++ ['"'] = before ++ ('"' :: content ++ ['"']) := by
      simp
    dsimp only [Piece.text, Piece.fault?, Piece.kind?]
    simp only [hmore, hlines, Bool.false_eq_true, if_false]
    rw [bind_of_ok hadvance, get_bind]
    dsimp only
    rw [hend, hopening, bind_of_ok (hslice _), hall]
    rfl

theorem scanSymbol_first {symbol : Symbol} (hd : Symbol.ofChar? d = some symbol) :
    scanSymbol source symbol ⟨place before, place (before ++ [d]), line, none⟩ =
      .ok () (behind before line (Piece.ofSymbol symbol d cs).1) := by
  have hrest : source.toList = (before ++ [d]) ++ cs := by simp [h]
  have hline : d ≠ '\n' := (Symbol.ascii_of_ofChar? hd).2
  have hone : newlines [d] = 0 := by simp [newlines, hline]
  have htwo : newlines [d, '='] = 0 := by simp [newlines, hline]
  have hmatch := @matchByte_between source _ _
    ⟨place before, place (before ++ [d]), line, none⟩ '=' (by decide) (by decide) hrest rfl
  unfold scanSymbol behind
  cases hboth : symbol.withEqual? with
  | none =>
    rw [Piece.ofSymbol_alone (.inl hboth)]
    dsimp only [Piece.text, Piece.kind?]
    rw [hone]
    rfl
  | some both =>
    by_cases hequal : cs.head? = some '='
    · obtain ⟨rest, rfl⟩ := List.head?_eq_some_iff.mp hequal
      rw [if_pos hequal, List.append_assoc] at hmatch
      rw [Piece.ofSymbol_equal hboth]
      dsimp only [Piece.text, Piece.kind?]
      rw [bind_of_ok hmatch, htwo]
      rfl
    · rw [if_neg hequal] at hmatch
      rw [Piece.ofSymbol_alone (.inr hequal)]
      dsimp only [Piece.text, Piece.kind?]
      rw [bind_of_ok hmatch, hone]
      rfl

theorem scanUnexpected_first (hd : d ≠ '\n') (curr : Nat) :
    scanUnexpected source ⟨place before, curr, line, none⟩ =
      .ok (some (.lexical line (.unexpectedCharacter d)))
        (behind before line (.fault (.unexpectedCharacter d) [d])) := by
  have hslice := slice_between (d :: cs) [] (by rw [h, List.append_nil])
  have hsize : source.utf8ByteSize = place (before ++ d :: cs) := by rw [utf8ByteSize_eq, h]
  have hone : newlines [d] = 0 := by simp [newlines, hd]
  unfold scanUnexpected behind
  rw [get_bind, hsize, bind_of_ok (hslice _), String.toList_ofList]
  dsimp only [List.head?_cons, Piece.text, Piece.kind?]
  rw [hone, place_append, place_singleton]
  rfl

omit h in
theorem scanFrom_of_large {e : Char} (he : 128 ≤ e.toNat) :
    scanFrom source e = scanUnexpected source := by
  obtain ⟨hline, hblank, hquote, hslash, hdigit, hstart, hsymbol⟩ := Piece.large_cases he
  simp [scanFrom, hline, hblank, hquote, hslash, hdigit, hstart, hsymbol]

omit h in
/-- A slash, and perhaps a comment behind another one. -/
theorem scanFrom_slash (h : source.toList = before ++ '/' :: cs) :
    scanFrom source '/' ⟨place before, place (before ++ ['/']), line, none⟩ =
      .ok ((Piece.first '/' cs).1.fault? (line + newlines (Piece.first '/' cs).1.text))
        (behind before line (Piece.first '/' cs).1) := by
  have hrest : source.toList = (before ++ ['/']) ++ cs := by simp [h]
  have hmatch := @matchByte_between source _ _
    ⟨place before, place (before ++ ['/']), line, none⟩ '/' (by decide) (by decide) hrest rfl
  unfold scanFrom
  rw [if_neg (by decide), if_neg (by decide), if_neg (by decide), if_pos rfl]
  by_cases hcomment : cs.head? = some '/'
  · obtain ⟨rest, rfl⟩ := List.head?_eq_some_iff.mp hcomment
    rw [if_pos hcomment] at hmatch
    have hrest' : source.toList = (before ++ ['/'] ++ ['/']) ++ rest := by simp [h]
    have hend := @toLineEnd_between source _ _
      ⟨place before, place (before ++ ['/'] ++ ['/']), line, none⟩ hrest' rfl
    have hlines : newlines (('/' :: '/' :: rest).takeWhile (· ≠ '\n')) = 0 :=
      newlines_eq_zero (· ≠ '\n') (by decide) fun _ => List.mem_takeWhile_imp
    have hown : ('/' :: '/' :: rest).takeWhile (· ≠ '\n') =
        ['/'] ++ (['/'] ++ rest.takeWhile (· ≠ '\n')) := rfl
    rw [Piece.first_comment, bind_of_ok hmatch]
    unfold behind
    dsimp only [Piece.text, Piece.fault?, Piece.kind?]
    rw [if_pos rfl, bind_of_ok hend, hlines, hown, List.append_assoc, List.append_assoc]
    rfl
  · rw [if_neg hcomment] at hmatch
    rw [Piece.first_slash hcomment, bind_of_ok hmatch]
    rfl

theorem scanFrom_ascii :
    scanFrom source d ⟨place before, place (before ++ [d]), line, none⟩ =
      .ok ((Piece.first d cs).1.fault? (line + newlines (Piece.first d cs).1.text))
        (behind before line (Piece.first d cs).1) := by
  by_cases hslash : d = '/'
  · subst hslash
    exact scanFrom_slash line h
  have hnone : ¬(d = '/' ∧ cs.head? = some '/') := fun hboth => hslash hboth.1
  unfold scanFrom Piece.first
  rw [if_neg hslash, if_neg hnone]
  by_cases hline : d = '\n'
  · subst hline
    rfl
  rw [if_neg hline]
  have hone : newlines [d] = 0 := by simp [newlines, hline]
  by_cases hblank : Piece.isBlank d = true
  · rw [if_pos hblank, if_pos hblank]
    unfold behind
    dsimp only [Piece.text, Piece.fault?, Piece.kind?]
    rw [hone]
    rfl
  rw [if_neg hblank, if_neg hblank]
  by_cases hquote : d = '"'
  · rw [if_pos hquote, if_pos hquote]
    exact scanString_first line h hquote
  rw [if_neg hquote, if_neg hquote]
  by_cases hdigit : Piece.isDigit d = true
  · rw [if_pos hdigit, if_pos hdigit, bind_of_ok (scanNumber_first line h hdigit)]
    rfl
  rw [if_neg hdigit, if_neg hdigit]
  by_cases hstart : Piece.isNameStart d = true
  · rw [if_pos hstart, if_pos hstart, bind_of_ok (scanWord_first line h hstart)]
    rfl
  rw [if_neg hstart, if_neg hstart]
  cases hsymbol : Symbol.ofChar? d with
  | some symbol =>
    dsimp only
    rw [bind_of_ok (scanSymbol_first line h hsymbol), Piece.fault?_ofSymbol]
    rfl
  | none =>
    dsimp only [Piece.text, Piece.fault?]
    rw [hone]
    exact scanUnexpected_first line h hline _

/-- What begins with the first byte of a character is the piece that begins with it. -/
theorem scanFrom_first {b : UInt8} (hb : (encode (d :: cs)).head? = some b) :
    scanFrom source (Char.ofUInt8 b) ⟨place before, place before + 1, line, none⟩ =
      .ok ((Piece.first d cs).1.fault? (line + newlines (Piece.first d cs).1.text))
        (behind before line (Piece.first d cs).1) := by
  rw [encode_cons] at hb
  obtain ⟨hd, b', hone, hsame⟩ | ⟨hlarge, hall⟩ := utf8EncodeChar_cases d
  · rw [hone] at hb
    cases hb
    rw [hsame, ← place_succ hd]
    exact scanFrom_ascii line h
  · have hb' : b ∈ String.utf8EncodeChar d := by
      rw [List.head?_append_of_ne_nil _ String.utf8EncodeChar_ne_nil] at hb
      exact List.mem_of_mem_head? hb
    have hline : d ≠ '\n' := (Piece.large_cases hlarge).1
    have hone : newlines [d] = 0 := by simp [newlines, hline]
    rw [scanFrom_of_large (hall b hb'), scanUnexpected_first line h hline,
      Piece.first_of_large hlarge]
    dsimp only [Piece.text, Piece.fault?]
    rw [hone]
    rfl

/-- A turn reads the first piece of what is left. -/
theorem turn_first {c : Cursor} (hc : c.curr = place before) :
    let piece := (Piece.first d cs).1
    let after := c.line + newlines piece.text
    turn source c =
      .ok (piece.item? after) ⟨c.curr, place (before ++ piece.text), after, none⟩ := by
  obtain ⟨b, bs, hbytes⟩ := List.exists_cons_of_ne_nil (String.utf8EncodeChar_ne_nil (c := d))
  have hhead : (encode (d :: cs)).head? = some b := by simp [hbytes]
  have hleft : left source ⟨c.curr, c.curr, c.line, none⟩ = b :: (bs ++ encode cs) := by
    refine (left_between h hc).trans ?_
    rw [encode_cons, hbytes]
    rfl
  have hmore : c.curr ≠ source.utf8ByteSize := by
    have hend : ¬source.utf8ByteSize ≤ c.curr := by
      rw [← left_eq_nil_iff (c := ⟨c.curr, c.curr, c.line, none⟩), hleft]
      exact List.cons_ne_nil _ _
    omega
  have hscan : scanToken source ⟨c.curr, c.curr, c.line, none⟩ =
      .ok ((Piece.first d cs).1.fault? (c.line + newlines (Piece.first d cs).1.text))
        (behind before c.line (Piece.first d cs).1) := by
    unfold scanToken
    rw [bind_of_ok (advance_left hleft).1, hc]
    exact scanFrom_first c.line h hhead
  have happend := Piece.first_append d cs
  dsimp only
  rw [turn_eq, if_neg hmore, bind_of_ok hscan]
  generalize (Piece.first d cs).1 = piece at happend ⊢
  unfold behind
  rw [hc]
  cases piece with
  | blank text => rfl
  | fault cause text => rfl
  | token kind text =>
    have hslice := slice_between text (Piece.first d cs).2 (h.trans (congrArg _ happend.symm))
    dsimp only [Piece.text, Piece.fault?, Piece.kind?, Piece.item?]
    unfold takePending
    rw [get_bind]
    dsimp only
    exact (bind_of_ok (hslice _))

end

theorem turn_end {source : String} {c : Cursor} (hc : c.curr = source.utf8ByteSize) :
    turn source c =
      .ok (some (.ok (Token.endMark c.line))) { c with curr := source.utf8ByteSize + 1 } := by
  rw [turn_eq, if_pos hc, hc]

/-! ## Calls -/

/-- A cursor and a scanner with the same text left. -/
inductive Follows (source : String) : Cursor → Scanner → Prop
  | between {before rest c} : source.toList = before ++ rest → c.curr = place before →
      Follows source c ⟨rest, c.line, false⟩
  | ended {c} : c.curr = source.utf8ByteSize + 1 → Follows source c ⟨[], c.line, true⟩

/-- The cursors that turns of the main loop lead to. -/
inductive Reached (source : String) : Cursor → Prop
  | initial : Reached source initial
  | turn {c found c'} : Reached source c → c.curr ≤ source.utf8ByteSize →
      turn source c = .ok found c' → Reached source c'

section

variable {source : String} {c c' : Cursor} {s : Scanner}

theorem follows_initial (source : String) : Follows source initial (.ofSource source) :=
  .between (List.nil_append _).symm rfl

theorem le_of_place {before rest : List Char} (h : source.toList = before ++ rest)
    (hc : c.curr = place before) : c.curr ≤ source.utf8ByteSize := by
  rw [hc, utf8ByteSize_eq, h, place_append]
  exact Nat.le_add_right _ _

theorem Follows.curr_le (h : Follows source c s) : c.curr ≤ source.utf8ByteSize + 1 := by
  cases h with
  | between htext hcurr => exact Nat.le_succ_of_le (le_of_place htext hcurr)
  | ended hend => exact hend.le

theorem follows_behind {before cs : List Char} {d : Char} {start line : Nat}
    (h : source.toList = before ++ d :: cs) :
    Follows source ⟨start, place (before ++ (Piece.first d cs).1.text), line, none⟩
      ⟨(Piece.first d cs).2, line, false⟩ :=
  .between (by rw [List.append_assoc, Piece.first_append, h]) rfl

/-- A turn never fails, and what it leaves is the text behind a piece. -/
theorem Follows.turn (h : Follows source c s) (hc : c.curr ≤ source.utf8ByteSize) :
    ∃ found c' s', turn source c = .ok found c' ∧ Follows source c' s' := by
  cases h with
  | ended hend => omega
  | @between before rest _ htext hcurr =>
    cases rest with
    | nil =>
      have hend : c.curr = source.utf8ByteSize := by
        rw [hcurr, utf8ByteSize_eq, htext, List.append_nil]
      exact ⟨_, _, _, turn_end hend, .ended rfl⟩
    | cons d cs =>
      exact ⟨_, _, _, turn_first htext hcurr, follows_behind htext⟩

theorem Reached.follows (h : Reached source c) : ∃ s, Follows source c s := by
  induction h with
  | initial => exact ⟨_, follows_initial source⟩
  | turn _ hle hturn ih =>
    obtain ⟨s, hs⟩ := ih
    obtain ⟨found', c'', s', hturn', hs'⟩ := hs.turn hle
    rw [hturn] at hturn'
    cases hturn'
    exact ⟨s', hs'⟩

theorem next_of_item {item : Item} (hle : c.curr ≤ source.utf8ByteSize)
    (hturn : turn source c = .ok (some item) c') : next source c = .ok (some item) c' := by
  rw [next, if_pos hle]
  split <;> simp_all

theorem next_of_blank (hle : c.curr ≤ source.utf8ByteSize) (hturn : turn source c = .ok none c') :
    next source c = next source c' := by
  rw [next, if_pos hle]
  split <;> simp_all

theorem next_ended (h : c.curr = source.utf8ByteSize + 1) : next source c = .ok none c := by
  rw [next, if_neg (by omega)]

/-- A call finds what the scanner finds. -/
theorem Follows.next (h : Follows source c s) :
    ∃ c', next source c = .ok s.next.1 c' ∧ Follows source c' s.next.2 := by
  fun_induction Scanner.next s generalizing c with
  | case1 line =>
    cases h with
    | ended hend => exact ⟨c, next_ended hend, .ended hend⟩
  | case2 line ended hended =>
    cases h with
    | @between before _ _ htext hcurr =>
      have hend : c.curr = source.utf8ByteSize := by
        rw [hcurr, utf8ByteSize_eq, htext, List.append_nil]
      exact ⟨_, next_of_item hend.le (turn_end hend), .ended rfl⟩
    | ended => exact absurd rfl hended
  | case3 d cs line ended piece after item =>
    rename_i hitem
    cases h with
    | @between before _ _ htext hcurr =>
      have hturn := (turn_first htext hcurr).trans (congrArg (EStateM.Result.ok · _) hitem)
      exact ⟨_, next_of_item (le_of_place htext hcurr) hturn, follows_behind htext⟩
  | case4 d cs line ended piece after hitem =>
    rename_i ih
    cases h with
    | @between before _ _ htext hcurr =>
      have hturn := (turn_first htext hcurr).trans (congrArg (EStateM.Result.ok · _) hitem)
      obtain ⟨c', hnext, hfollows⟩ := ih (follows_behind htext)
      exact ⟨c', (next_of_blank (le_of_place htext hcurr) hturn).trans hnext, hfollows⟩

/-- Unless it is behind the end mark, a call moves on. -/
theorem next_le {found : Option Item} (h : next source c = .ok found c') :
    c.curr ≤ c'.curr ∧ (c.curr ≤ source.utf8ByteSize → c.curr < c'.curr) := by
  fun_induction Cursor.next source c with
  | case1 => cases h
  | case2 c hle item c₁ hturn =>
    cases h
    have hlt := turn_lt hturn
    omega
  | case3 c hle c₁ hturn ih =>
    have hlt := turn_lt hturn
    have hmore := (ih h).1
    omega
  | case4 c hle =>
    cases h
    omega

/-- A call is a number of turns. -/
theorem Reached.next {found : Option Item} (hc : Reached source c)
    (h : next source c = .ok found c') : Reached source c' := by
  fun_induction Cursor.next source c with
  | case1 => cases h
  | case2 c hle item c₁ hturn =>
    cases h
    exact hc.turn hle hturn
  | case3 c hle c₁ hturn ih => exact ih (hc.turn hle hturn) h
  | case4 c hle =>
    cases h
    exact hc

/-- Any number of calls finds what the scanner finds, and leads as far. -/
theorem Follows.calls (h : Follows source c s) (hc : Reached source c) (n : Nat) :
    ∃ c', calls source n c = .ok ((List.range n).map fun i => (s.after i).next.1) c' ∧
      Reached source c' ∧ min (c.curr + n) (source.utf8ByteSize + 1) ≤ c'.curr := by
  induction n generalizing c s with
  | zero => exact ⟨c, rfl, hc, Nat.min_le_left _ _⟩
  | succ n ih =>
    obtain ⟨c₁, hnext, hfollows⟩ := h.next
    obtain ⟨c', hcalls, hreached, hle⟩ := ih hfollows (hc.next hnext)
    obtain ⟨hmore, hlt⟩ := next_le hnext
    refine ⟨c', ?_, hreached, ?_⟩
    · unfold Cursor.calls
      rw [bind_of_ok hnext, bind_of_ok hcalls, List.range_succ_eq_map, List.map_cons, List.map_map]
      rfl
    · by_cases hend : c.curr ≤ source.utf8ByteSize
      · have := hlt hend
        omega
      · omega

end

/-- Scanning byte by byte stays inside the text, whatever the text is. -/
theorem never_slips (source : String) :
    -- A step that reads a byte that the text does not have slips, and so does one that takes a
    -- part whose ends are not in order, or not in the text between two characters.
    (∀ index b c c', byte source index c = .ok b c' → index < source.utf8ByteSize) ∧
    (∀ first last text c c', slice source first last c = .ok text c' →
      first ≤ last ∧ last ≤ source.utf8ByteSize ∧ String.Pos.Raw.IsValid source ⟨first⟩ ∧
        String.Pos.Raw.IsValid source ⟨last⟩) ∧
    -- However often the next item is asked for, no step slips, not with the value of a number
    -- or with an unexpected character either; and the items are those of the scanner.
    (∀ n, ∃ c, calls source n initial =
        .ok ((List.range n).map fun i => ((Scanner.ofSource source).after i).next.1) c ∧
      Reached source c ∧ min n (source.utf8ByteSize + 1) ≤ c.curr) ∧
    -- Each turn of the main loop begins between two characters and moves on, up to one behind
    -- the end.  There nothing happens any more.
    ∀ c, Reached source c →
      (c.curr ≤ source.utf8ByteSize ∧ String.Pos.Raw.IsValid source ⟨c.curr⟩ ∧
        ∃ found c', turn source c = .ok found c' ∧ c.curr < c'.curr ∧
          c'.curr ≤ source.utf8ByteSize + 1) ∨
      (c.curr = source.utf8ByteSize + 1 ∧ next source c = .ok none c) := by
  refine ⟨fun index b c c' h => ?_, fun first last text c c' h => ?_, fun n => ?_, fun c hc => ?_⟩
  · rw [byte_eq] at h
    cases hb : (bytes source)[index]? with
    | none => simp [hb] at h
    | some b' =>
      have hlt := (List.getElem?_eq_some_iff.mp hb).1
      rwa [bytes_eq, ← place, ← utf8ByteSize_eq] at hlt
  · unfold slice at h
    split at h
    · next hwithin => exact ⟨hwithin.1, hwithin.2.2.le_rawEndPos, hwithin.2⟩
    · cases h
  · obtain ⟨c, hcalls, hreached, hle⟩ := (follows_initial source).calls .initial n
    exact ⟨c, hcalls, hreached, by simpa [initial] using hle⟩
  · obtain ⟨s, hs⟩ := hc.follows
    by_cases hle : c.curr ≤ source.utf8ByteSize
    · obtain ⟨found, c', s', hturn, hs'⟩ := hs.turn hle
      refine .inl ⟨hle, ?_, found, c', hturn, turn_lt hturn, hs'.curr_le⟩
      cases hs with
      | between htext hcurr => exact hcurr ▸ isValid_place htext
      | ended hend => omega
    · have hend : c.curr = source.utf8ByteSize + 1 := by
        have := hs.curr_le
        omega
      exact .inr ⟨hend, next_ended hend⟩

end Cursor
end Lox
