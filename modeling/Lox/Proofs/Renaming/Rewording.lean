/-
  Lox.Proofs.Renaming.Rewording

  A source text in which other names are written.

    * `Piece.IsName` — the spellings that a name can have;
    * `Piece.Reworded` — a piece, or a name in place of a name;
    * `pieces_reworded` — the text of reworded pieces is cut into these pieces, so
      that no token runs into the next one;
    * `exists_reworded` — for tokens that differ in names only there is a source
      text, without faults.
-/
import Lox.Proofs.Grammar.Alike
import Lox.Proofs.Lexing.Characters
import Lox.Proofs.Scoping.Wording

namespace Lox

namespace Piece

/-! ## Names -/

/-- The spelling of a name: a word that is not reserved. -/
structure IsName (text : List Char) : Prop where
  start : text.head?.any isNameStart = true
  part : ∀ c ∈ text, isNamePart c = true
  free : Keyword.ofText? (String.ofList text) = none

theorem IsName.ne_nil {text : List Char} (h : IsName text) : text ≠ [] := by
  rintro rfl
  exact absurd h.start (by decide)

/-- No line ends within a name. -/
theorem IsName.newlines {text : List Char} (h : IsName text) : newlines text = 0 := by
  refine List.count_eq_zero.mpr fun hmem => ?_
  exact absurd (h.part _ hmem) (by decide)

/-! ## Starts of texts -/

/-- The texts begin with the same character, or both with a name, or are both empty. -/
def SameStart (cs cs' : List Char) : Prop :=
  cs'.head? = cs.head? ∨
    ∃ c c', cs.head? = some c ∧ cs'.head? = some c' ∧ isNameStart c = true ∧ isNameStart c' = true

/-- As much of two texts is alike as a piece before them depends on: behind a point, it
    also looks at the second character. -/
structure SameLook (cs cs' : List Char) : Prop where
  start : SameStart cs cs'
  point : cs.head? = some '.' → SameStart cs.tail cs'.tail

theorem SameStart.refl (cs : List Char) : SameStart cs cs := .inl rfl

theorem SameStart.any {cs cs' : List Char} (h : SameStart cs cs') {P : Char → Bool} {b : Bool}
    (hP : ∀ c, isNameStart c = true → P c = b) : cs'.head?.any P = cs.head?.any P := by
  rcases h with h | ⟨c, c', hc, hc', hstart, hstart'⟩
  · rw [h]
  · rw [hc, hc', Option.any_some, Option.any_some, hP c hstart, hP c' hstart']

theorem SameStart.head {cs cs' : List Char} (h : SameStart cs cs') {c : Char}
    (hc : isNameStart c = false) : cs'.head? = some c ↔ cs.head? = some c := by
  rcases h with h | ⟨d, d', hd, hd', hstart, hstart'⟩
  · rw [h]
  · rw [hd, hd', Option.some.injEq, Option.some.injEq]
    constructor
    · rintro rfl
      simp [hstart'] at hc
    · rintro rfl
      simp [hstart] at hc

theorem SameStart.head_append {cs cs' : List Char} (h : SameStart cs cs') {c : Char}
    (hc : isNameStart c = false) (own : List Char) :
    (own ++ cs').head? = some c ↔ (own ++ cs).head? = some c := by
  cases own with
  | nil => exact h.head hc
  | cons d ds => exact Iff.rfl

/-! ## Pieces before another rest -/

variable {cs rest rest' : List Char} {p : Piece}

/-- The fraction of a number is found again, as nothing in the rest adds to it. -/
theorem fraction_before {behind : List Char} (hrest : behind.drop (fraction behind).length = rest)
    (hlook : SameLook rest rest') : fraction (fraction behind ++ rest') = fraction behind := by
  have hnodigit (c : Char) (hc : isNameStart c = true) := not_isDigit_of_isNameStart hc
  rcases fraction_cases behind with hnil | ⟨d, more, rfl, hd, hfraction⟩
  · rw [hnil, List.length_nil, List.drop_zero] at hrest
    subst hrest
    rw [hnil, List.nil_append]
    refine (fraction_eq_nil_iff _).mpr fun hpoint => (fraction_eq_nil_iff _).mp hnil ?_
    have hhead := (hlook.start.head (c := '.') (by decide)).mp hpoint.1
    exact ⟨hhead, ((hlook.point hhead).any hnodigit).symm.trans hpoint.2⟩
  · have hmore : rest = more.dropWhile isDigit := by
      rw [← hrest, hfraction, List.length_cons, List.length_cons, List.drop_succ_cons,
        List.drop_succ_cons, drop_length_takeWhile]
    have hstop := (hlook.start.any hnodigit).trans (hmore ▸ head_dropWhile_any isDigit more)
    have htake := (takeWhile_append_stop (more.takeWhile isDigit)
      (fun c hc => List.mem_takeWhile_imp hc) hstop).1
    rw [hfraction]
    simp only [fraction, hd, if_true, List.cons_append, htake]

/-- No digit stands where the whole digits end. -/
theorem fraction_head {behind : List Char} (hbehind : behind.head?.any isDigit = false)
    (hrest : behind.drop (fraction behind).length = rest) (hstart : SameStart rest rest') :
    (fraction behind ++ rest').head?.any isDigit = false := by
  rcases fraction_cases behind with hnil | ⟨d, more, -, -, hfraction⟩
  · rw [hnil, List.length_nil, List.drop_zero] at hrest
    rw [hnil, List.nil_append, hstart.any fun _ => not_isDigit_of_isNameStart, ← hrest]
    exact hbehind
  · rw [hfraction]
    rfl

/-- A number ends where it did. -/
theorem ofDigits_before (h : ofDigits cs = (p, rest)) (hlook : SameLook rest rest') :
    ofDigits (p.text ++ rest') = (p, rest') := by
  have hwhole (c : Char) (hc : c ∈ cs.takeWhile isDigit) : isDigit c = true :=
    List.mem_takeWhile_imp hc
  unfold ofDigits at h ⊢
  obtain ⟨rfl, hrest⟩ := Prod.mk.inj h
  simp only [text, List.append_assoc]
  -- The digits and the fraction are found again one after the other.
  have hend := fraction_head (head_dropWhile_any isDigit cs) hrest hlook.start
  obtain ⟨htake, hdrop⟩ := takeWhile_append_stop _ hwhole hend
  rw [htake, hdrop, fraction_before hrest hlook, List.drop_left]

/-- A string holds its closing quote. -/
theorem ofQuote_before (h : ofQuote cs = (p, rest)) (hfault : ∀ cause text, p ≠ .fault cause text)
    (rest' : List Char) : ofQuote (p.text.tail ++ rest') = (p, rest') := by
  unfold ofQuote at h
  split at h
  · cases h
    exact absurd rfl (hfault _ _)
  · next close behind hclose =>
    cases h
    have hquote : close = '"' := by
      have hstop := List.head?_dropWhile_not (· ≠ '"') cs
      rw [hclose] at hstop
      simpa using hstop
    subst hquote
    have htext : (text (.token (.string (String.ofList (cs.takeWhile (· ≠ '"'))))
        ('"' :: cs.takeWhile (· ≠ '"') ++ ['"']))).tail ++ rest' =
        cs.takeWhile (· ≠ '"') ++ ('"' :: rest') := by
      simp [text]
    have hstop : ('"' :: rest').head?.any (· ≠ '"') = false := by simp
    obtain ⟨htake, hdrop⟩ := takeWhile_append_stop (P := (· ≠ '"')) (cs.takeWhile (· ≠ '"'))
      (fun c hc => List.mem_takeWhile_imp (p := (· ≠ '"')) hc) hstop
    unfold ofQuote
    rw [htext]
    dsimp only
    rw [htake, hdrop]

/-- A comment ends where its line ends. -/
theorem ofComment_before (h : ofComment cs = (p, rest)) (hstart : SameStart rest rest') :
    ofComment (p.text ++ rest') = (p, rest') := by
  cases h
  have hend : rest'.head?.any (· ≠ '\n') = false := by
    have hold := head_dropWhile_any (· ≠ '\n') cs
    rw [hstart.any (P := (· ≠ '\n')) (b := true), hold]
    intro c hc
    have hne : c ≠ '\n' := by
      rintro rfl
      exact absurd hc (by decide)
    simpa using hne
  obtain ⟨htake, hdrop⟩ := takeWhile_append_stop (P := (· ≠ '\n')) (cs.takeWhile (· ≠ '\n'))
    (fun c hc => List.mem_takeWhile_imp (p := (· ≠ '\n')) hc) hend
  unfold ofComment
  simp only [text]
  rw [htake, hdrop]

/-- A word ends where no part of a name follows. -/
theorem ofWord_before (word : List Char) (hword : ∀ c ∈ word, isNamePart c = true)
    (hend : rest.head?.any isNamePart = false) :
    ofWord (word ++ rest) = (.token (wordKind (String.ofList word)) word, rest) := by
  obtain ⟨htake, hdrop⟩ := takeWhile_append_stop word hword hend
  unfold ofWord
  rw [htake, hdrop]

/-- A symbol ends where it did, as no name begins with `=`. -/
theorem ofSymbol_before {s : Symbol} {c : Char} (h : ofSymbol s c cs = (p, rest))
    (hstart : SameStart rest rest') : ofSymbol s c (p.text.tail ++ rest') = (p, rest') := by
  unfold ofSymbol at h
  split at h
  · next both _ hboth =>
    cases h
    simp [ofSymbol, text, hboth]
  · next hother =>
    cases h
    simp only [text, List.tail_cons, List.nil_append]
    unfold ofSymbol
    split
    · next both behind hboth =>
      have hhead := (hstart.head (c := '=') (by decide)).mp rfl
      cases rest with
      | nil => cases hhead
      | cons d ds =>
        cases hhead
        exact absurd rfl (hother both ds hboth)
    · rfl

/-- A piece begins with the first character. -/
theorem first_text_eq {c : Char} (h : first c cs = (p, rest)) :
    p.text = c :: p.text.tail ∧ cs = p.text.tail ++ rest := by
  have happend := first_append c cs
  have hne := first_text_ne_nil c cs
  rw [h] at happend hne
  obtain ⟨d, ds, htext⟩ := List.exists_cons_of_ne_nil hne
  rw [htext, List.cons_append] at happend
  obtain ⟨rfl, hrest⟩ := List.cons.inj happend
  rw [htext]
  exact ⟨rfl, hrest.symm⟩

/-- A piece that is no fault is found again before a rest that looks alike. -/
theorem first_before {c : Char} (h : first c cs = (p, rest))
    (hfault : ∀ cause text, p ≠ .fault cause text) (hlook : SameLook rest rest') :
    ∃ cs', p.text ++ rest' = c :: cs' ∧ first c cs' = (p, rest') := by
  obtain ⟨hcons, hcs⟩ := first_text_eq h
  refine ⟨p.text.tail ++ rest', by rw [← List.cons_append, ← hcons], ?_⟩
  -- The tests before each kind of piece have the same outcome as before.
  have hstroke : (p.text.tail ++ rest').head? = some '/' ↔ cs.head? = some '/' := by
    rw [hlook.start.head_append (by decide), ← hcs]
  unfold first at h ⊢
  by_cases hblank : isBlank c = true
  · rw [if_pos hblank] at h ⊢
    cases h
    rfl
  rw [if_neg hblank] at h ⊢
  by_cases hquote : c = '"'
  · rw [if_pos hquote] at h ⊢
    exact ofQuote_before h hfault rest'
  rw [if_neg hquote] at h ⊢
  simp only [hstroke]
  by_cases hcomment : c = '/' ∧ cs.head? = some '/'
  · rw [if_pos hcomment] at h ⊢
    have hfound := ofComment_before h hlook.start
    rw [hcons] at hfound
    exact hfound
  rw [if_neg hcomment] at h ⊢
  by_cases hdigit : isDigit c = true
  · rw [if_pos hdigit] at h ⊢
    have hfound := ofDigits_before h hlook
    rw [hcons] at hfound
    exact hfound
  rw [if_neg hdigit] at h ⊢
  by_cases hname : isNameStart c = true
  · rw [if_pos hname] at h ⊢
    cases h
    have hend : rest'.head?.any isNamePart = false := by
      rw [hlook.start.any (b := true) fun _ => isNamePart_of_isNameStart]
      exact head_dropWhile_any isNamePart (c :: cs)
    have hfound := ofWord_before ((c :: cs).takeWhile isNamePart)
      (fun d hd => List.mem_takeWhile_imp hd) hend
    rw [show (c :: cs).takeWhile isNamePart = c :: cs.takeWhile isNamePart by
      rw [List.takeWhile_cons, if_pos (isNamePart_of_isNameStart hname)]] at hfound ⊢
    exact hfound
  rw [if_neg hname] at h ⊢
  cases hsymbol : Symbol.ofChar? c with
  | some s =>
    rw [hsymbol] at h
    exact ofSymbol_before h hlook.start
  | none =>
    rw [hsymbol] at h
    cases h
    exact absurd rfl (hfault _ _)

/-- A name is found before a rest that looks like the one behind another name. -/
theorem first_name {word : List Char} (hword : IsName word)
    (hend : rest.head?.any isNamePart = false) :
    ∃ c cs', word ++ rest = c :: cs' ∧ first c cs' = (.token .identifier word, rest) := by
  cases hcons : word with
  | nil => exact absurd hcons hword.ne_nil
  | cons c ds =>
    have hstart := hword.start
    rw [hcons] at hstart
    have hc : isNameStart c = true := hstart
    have hblank : isBlank c = false := by
      rw [Bool.eq_false_iff]
      intro hblank
      simp only [isBlank, Bool.or_eq_true, decide_eq_true_eq] at hblank
      rcases hblank with ((rfl | rfl) | rfl) | rfl <;> exact absurd hc (by decide)
    have hquote : c ≠ '"' := by
      rintro rfl
      exact absurd hc (by decide)
    have hstroke : c ≠ '/' := by
      rintro rfl
      exact absurd hc (by decide)
    refine ⟨c, ds ++ rest, rfl, ?_⟩
    unfold first
    rw [if_neg (by simp [hblank]), if_neg hquote, if_neg fun h => hstroke h.1,
      if_neg (by simp [not_isDigit_of_isNameStart hc]), if_pos hc]
    rw [← List.cons_append, ← hcons, ofWord_before word hword.part hend, wordKind, hword.free]

/-- What is found as a name was cut as a word. -/
theorem ofWord_of_name {c : Char} {word : List Char}
    (h : first c cs = (.token .identifier word, rest)) :
    isNameStart c = true ∧ ofWord (c :: cs) = (.token .identifier word, rest) := by
  unfold first at h
  split at h
  · cases h
  split at h
  · unfold ofQuote at h
    split at h <;> cases h
  split at h
  · cases h
  split at h
  · cases h
  split at h
  · next hstart => exact ⟨hstart, h⟩
  split at h
  · unfold ofSymbol at h
    split at h <;> cases h
  · cases h

/-- No part of a name follows a name. -/
theorem head_after_name {c : Char} {word : List Char}
    (h : first c cs = (.token .identifier word, rest)) : rest.head?.any isNamePart = false := by
  have hrest : (c :: cs).dropWhile isNamePart = rest := congrArg Prod.snd (ofWord_of_name h).2
  rw [← hrest]
  exact head_dropWhile_any isNamePart (c :: cs)

/-- What is found as a name is spelled as one. -/
theorem isName_first {c : Char} {word : List Char}
    (h : first c cs = (.token .identifier word, rest)) : IsName word := by
  obtain ⟨hstart, hword⟩ := ofWord_of_name h
  obtain ⟨hkind, rfl⟩ := Piece.token.inj (congrArg Prod.fst hword)
  refine ⟨?_, fun d hd => List.mem_takeWhile_imp hd, ?_⟩
  · rw [List.takeWhile_cons, if_pos (isNamePart_of_isNameStart hstart)]
    exact hstart
  · unfold wordKind at hkind
    split at hkind
    · cases hkind
    · assumption

/-! ## Reworded pieces -/

/-- A piece, or a name in place of a name. -/
inductive Reworded : Piece → Piece → Prop
  | same (p : Piece) : Reworded p p
  | name {word word' : List Char} : IsName word → IsName word' →
      Reworded (.token .identifier word) (.token .identifier word')

/-- Before what begins with a point, a piece is that point. -/
theorem first_point (cs : List Char) : first '.' cs = (.token (.symbol .dot) ['.'], cs) := by
  rfl

theorem sameStart_flatMap {ps ps' : List Piece} (h : List.Forall₂ Reworded ps ps')
    (hne : ∀ p ∈ ps, p.text ≠ []) :
    SameStart (ps.flatMap text) (ps'.flatMap text) := by
  cases h with
  | nil => exact .refl _
  | @cons p p' ps ps' hp _ =>
    rw [List.flatMap_cons, List.flatMap_cons]
    cases hp with
    | same =>
      refine .inl ?_
      cases htext : p.text with
      | nil => exact absurd htext (hne p List.mem_cons_self)
      | cons c cs => rfl
    | @name word word' hword hword' =>
      obtain ⟨c, hc, hstart⟩ := (Option.any_eq_true _ _).mp hword.start
      obtain ⟨c', hc', hstart'⟩ := (Option.any_eq_true _ _).mp hword'.start
      refine .inr ⟨c, c', ?_, ?_, hstart, hstart'⟩
      · rw [List.head?_append, show (text (.token .identifier word)).head? = some c from hc]
        rfl
      · rw [List.head?_append, show (text (.token .identifier word')).head? = some c' from hc']
        rfl

end Piece

theorem pieces_text_ne_nil (cs : List Char) : ∀ p ∈ pieces cs, p.text ≠ [] := by
  fun_induction pieces cs with
  | case1 => exact fun p hp => absurd hp List.not_mem_nil
  | case2 c cs ih => exact List.forall_mem_cons.mpr ⟨Piece.first_text_ne_nil c cs, ih⟩

/-- The texts of reworded pieces look alike. -/
theorem sameLook_pieces {cs : List Char} {ps' : List Piece}
    (h : List.Forall₂ Piece.Reworded (pieces cs) ps') :
    Piece.SameLook cs (ps'.flatMap Piece.text) := by
  have hstart := Piece.sameStart_flatMap h (pieces_text_ne_nil cs)
  rw [flatMap_text_pieces] at hstart
  refine ⟨hstart, fun hpoint => ?_⟩
  cases cs with
  | nil => cases hpoint
  | cons c cs =>
    cases hpoint
    rw [pieces, Piece.first_point] at h
    cases h with
    | @cons _ p' _ ps' hp hps =>
      have hrest := Piece.sameStart_flatMap hps (pieces_text_ne_nil cs)
      rw [flatMap_text_pieces] at hrest
      cases hp with
      | same => exact hrest

/-- The text of reworded pieces is cut into just these. -/
theorem pieces_reworded {cs : List Char}
    (hclean : ∀ p ∈ pieces cs, ∀ cause text, p ≠ .fault cause text) {ps' : List Piece}
    (h : List.Forall₂ Piece.Reworded (pieces cs) ps') :
    pieces (ps'.flatMap Piece.text) = ps' := by
  fun_induction pieces cs generalizing ps' with
  | case1 =>
    cases h
    rw [List.flatMap_nil, pieces]
  | case2 c cs ih =>
    obtain ⟨hfirst, hrest⟩ := List.forall_mem_cons.mp hclean
    cases h with
    | @cons _ p' _ ps' hp hps =>
      have htail := ih hrest hps
      have hlook := sameLook_pieces hps
      -- The first piece is found before the reworded rest.
      have hfound : ∃ c' cs', p'.text ++ ps'.flatMap Piece.text = c' :: cs' ∧
          Piece.first c' cs' = (p', ps'.flatMap Piece.text) := by
        generalize hcut : Piece.first c cs = cut at hp hfirst hlook
        obtain ⟨p, rest⟩ := cut
        cases hp with
        | same => exact ⟨c, Piece.first_before hcut hfirst hlook⟩
        | @name word word' hword hword' =>
          apply Piece.first_name hword'
          rw [hlook.start.any (b := true) fun _ => Piece.isNamePart_of_isNameStart]
          exact Piece.head_after_name hcut
      obtain ⟨c', cs', htext, hfound⟩ := hfound
      rw [List.flatMap_cons, htext, pieces, hfound]
      exact congrArg (p' :: ·) htail

/-! ## Tokens -/

theorem pieces_isName (cs : List Char) :
    ∀ p ∈ pieces cs, ∀ word, p = .token .identifier word → Piece.IsName word := by
  fun_induction pieces cs with
  | case1 => exact fun p hp => absurd hp List.not_mem_nil
  | case2 c cs ih =>
    exact List.forall_mem_cons.mpr ⟨fun word hword => Piece.isName_first (Prod.ext hword rfl), ih⟩

theorem not_fault_of_faultsOf {line : Nat} {ps : List Piece}
    (h : faultsOf (itemsOf line ps) = []) : ∀ p ∈ ps, ∀ cause text, p ≠ .fault cause text := by
  induction ps generalizing line with
  | nil => exact nofun
  | cons p ps ih =>
    rw [itemsOf, faultsOf, List.filterMap_append, List.append_eq_nil_iff] at h
    refine List.forall_mem_cons.mpr ⟨?_, ih h.2⟩
    rintro cause text rfl
    cases h.1

/-- There is always the end mark. -/
theorem tokensOf_itemsOf_ne_nil (line : Nat) (ps : List Piece) :
    tokensOf (itemsOf line ps) ≠ [] := by
  induction ps generalizing line with
  | nil => exact List.cons_ne_nil _ _
  | cons p ps ih =>
    rw [itemsOf, tokensOf, List.filterMap_append]
    exact List.append_ne_nil_of_right_ne_nil _ (ih _)

section

variable (line : Nat) (kind : TokenKind) (text : List Char) (ps : List Piece)

theorem tokensOf_token : tokensOf (itemsOf line (.token kind text :: ps)) =
    ⟨kind, String.ofList text, line + newlines text⟩ ::
      tokensOf (itemsOf (line + newlines text) ps) := by
  rfl

theorem faultsOf_token : faultsOf (itemsOf line (.token kind text :: ps)) =
    faultsOf (itemsOf (line + newlines text) ps) := by
  rfl

end

/-- A token that differs from the one of a piece in its name only is the token of such a
    piece, on the same line. -/
theorem exists_piece {R : String → String → Prop}
    (hR : ∀ a b, R a b → b = a ∨ Piece.IsName b.toList) {kind : TokenKind} {text : List Char}
    (hname : kind = .identifier → Piece.IsName text) {line : Nat} {t' : Token}
    (halike : Token.Alike R ⟨kind, String.ofList text, line + newlines text⟩ t') :
    ∃ text', Piece.Reworded (.token kind text) (.token kind text') ∧
      newlines text' = newlines text ∧
      t' = ⟨kind, String.ofList text', line + newlines text⟩ := by
  by_cases hkind : kind = .identifier
  · -- A name takes the place of a name; neither has a line end in it.
    subst hkind
    have hword := hname rfl
    have hword' : Piece.IsName t'.lexeme.toList := by
      rcases hR _ _ (halike.name rfl).text with hsame | hnew
      · rw [show t'.lexeme = String.ofList text from hsame, String.toList_ofList]
        exact hword
      · exact hnew
    have hline := (halike.name rfl).line
    have hkind' := halike.kind
    obtain ⟨kind', lexeme', line'⟩ := t'
    cases hkind'
    cases hline
    refine ⟨lexeme'.toList, .name hword hword', hword'.newlines.trans hword.newlines.symm, ?_⟩
    rw [String.ofList_toList]
    rfl
  · exact ⟨text, .same _, rfl, halike.fixed hkind⟩

/-- Pieces whose tokens are given ones, where these differ in names only. -/
theorem exists_pieces {R : String → String → Prop}
    (hR : ∀ a b, R a b → b = a ∨ Piece.IsName b.toList)
    {ps : List Piece} (hclean : ∀ p ∈ ps, ∀ cause text, p ≠ .fault cause text)
    (hnames : ∀ p ∈ ps, ∀ word, p = .token .identifier word → Piece.IsName word)
    {line ending : Nat} {before before' : List Token}
    (h : tokensOf (itemsOf line ps) = before ++ [Token.endMark ending])
    (halike : List.Forall₂ (Token.Alike R) before before') :
    ∃ ps', List.Forall₂ Piece.Reworded ps ps' ∧ faultsOf (itemsOf line ps') = [] ∧
      tokensOf (itemsOf line ps') = before' ++ [Token.endMark ending] := by
  induction ps generalizing line before before' with
  | nil =>
    rw [← List.nil_append (tokensOf _)] at h
    obtain ⟨rfl, hend⟩ := List.append_inj' h rfl
    cases halike
    exact ⟨[], .nil, rfl, hend⟩
  | cons p ps ih =>
    obtain ⟨hfault, hrestClean⟩ := List.forall_mem_cons.mp hclean
    obtain ⟨hname, hrestNames⟩ := List.forall_mem_cons.mp hnames
    cases p with
    | blank text =>
      rw [itemsOf, tokensOf, List.filterMap_append] at h
      obtain ⟨ps', hps, hfaults, htokens⟩ := ih hrestClean hrestNames h halike
      exact ⟨_, .cons (.same _) hps, hfaults, htokens⟩
    | fault cause text => exact absurd rfl (hfault cause text)
    | token kind text =>
      rw [tokensOf_token] at h
      cases before with
      | nil => exact absurd (List.cons.inj h).2 (tokensOf_itemsOf_ne_nil _ ps)
      | cons t before =>
        obtain ⟨rfl, hrest⟩ := List.cons.inj h
        cases halike with
        | @cons _ t' _ before' halike hs =>
          obtain ⟨ps', hps, hfaults, htokens⟩ := ih hrestClean hrestNames hrest hs
          obtain ⟨text', hpiece, hlines, rfl⟩ :=
            exists_piece hR (fun hkind => hname text (by rw [hkind])) halike
          refine ⟨.token kind text' :: ps', .cons hpiece hps, ?_, ?_⟩
          · rw [faultsOf_token, hlines]
            exact hfaults
          · rw [tokensOf_token, hlines, htokens]
            rfl

/-- For tokens that differ from those of a text in names only there is a text. -/
theorem exists_reworded {R : String → String → Prop}
    (hR : ∀ a b, R a b → b = a ∨ Piece.IsName b.toList)
    {source : String} (hclean : faultsOf (scan source) = []) {ending : Nat}
    {before before' : List Token} (h : tokensOf (scan source) = before ++ [Token.endMark ending])
    (halike : List.Forall₂ (Token.Alike R) before before') :
    ∃ source', faultsOf (scan source') = [] ∧
      tokensOf (scan source') = before' ++ [Token.endMark ending] := by
  have hnofault := not_fault_of_faultsOf hclean
  obtain ⟨ps', hps, hfaults, htokens⟩ :=
    exists_pieces hR hnofault (pieces_isName source.toList) h halike
  refine ⟨String.ofList (ps'.flatMap Piece.text), ?_, ?_⟩
  · rw [scan, String.toList_ofList, pieces_reworded hnofault hps]
    exact hfaults
  · rw [scan, String.toList_ofList, pieces_reworded hnofault hps]
    exact htokens

end Lox
