/-
  Lox.Proofs.Lexing.Bytes

  The bytes of a text, as a scanner looks at them.

    * `Cursor.encode`, `Cursor.place` — the bytes of characters, and how many they are;
    * `Cursor.Uniform` — a test that all bytes of a character pass, or none; so a run of bytes
      ends between two characters (`takeWhile_encode`);
    * `Cursor.left` — the bytes that were not looked at, and what each step does with them;
    * `slice_between`, `peek_between` and others — the same between two characters, where no
      step fails.

  The bytes of a character with several are all at least 128, and so no byte of it is taken
  for another character.
-/
import Lox.Token.Cursor
import Lox.Proofs.Lexing.Characters
import Mathlib.Data.List.TakeWhile

namespace Lox

/-! ## ASCII -/

namespace Piece

theorem ascii_of_isDigit {c : Char} (h : isDigit c = true) : c.toNat < 128 := by
  simp only [isDigit, Bool.and_eq_true, decide_eq_true_eq] at h
  exact Nat.lt_of_le_of_lt h.2 (by decide)

theorem ascii_of_isNamePart {c : Char} (h : isNamePart c = true) : c.toNat < 128 := by
  simp only [isNamePart, isNameStart, Bool.or_eq_true, Bool.and_eq_true, decide_eq_true_eq] at h
  obtain ((⟨-, h⟩ | ⟨-, h⟩) | rfl) | h := h
  · exact Nat.lt_of_le_of_lt h (by decide)
  · exact Nat.lt_of_le_of_lt h (by decide)
  · decide
  · exact ascii_of_isDigit h

end Piece

namespace Cursor

/-! ## Bytes of characters -/

/-- The bytes of characters, one after another. -/
def encode (cs : List Char) : List UInt8 := cs.flatMap String.utf8EncodeChar

/-- Where characters end. -/
def place (read : List Char) : Nat := (encode read).length

@[simp] theorem encode_nil : encode [] = [] := rfl

@[simp] theorem encode_cons (c : Char) (cs : List Char) :
    encode (c :: cs) = String.utf8EncodeChar c ++ encode cs := rfl

@[simp] theorem encode_append (cs ds : List Char) : encode (cs ++ ds) = encode cs ++ encode ds :=
  List.flatMap_append

theorem bytes_ofList (cs : List Char) : bytes (String.ofList cs) = encode cs := by
  rw [bytes, String.toByteArray_ofList, List.utf8Encode, List.data_toByteArray, encode]

theorem bytes_eq (source : String) : bytes source = encode source.toList := by
  rw [← bytes_ofList, String.ofList_toList]

theorem place_append (cs ds : List Char) : place (cs ++ ds) = place cs + place ds := by
  rw [place, encode_append, List.length_append, place, place]

theorem place_singleton (c : Char) : place [c] = c.utf8Size := by
  simp [place]

theorem utf8ByteSize_eq (source : String) : source.utf8ByteSize = place source.toList := by
  rw [place, ← bytes_eq, bytes, Array.length_toList]
  rfl

/-! ## Bytes of one character -/

theorem ofUInt8_toNat (b : UInt8) : (Char.ofUInt8 b).toNat = b.toNat := rfl

/-- An ASCII character is one byte, and all bytes of others are at least 128. -/
theorem utf8EncodeChar_cases (c : Char) :
    (c.toNat < 128 ∧ ∃ b, String.utf8EncodeChar c = [b] ∧ Char.ofUInt8 b = c) ∨
    (128 ≤ c.toNat ∧ ∀ b ∈ String.utf8EncodeChar c, 128 ≤ (Char.ofUInt8 b).toNat) := by
  by_cases h : c.toNat < 128
  · have hle : c.val.toNat ≤ 127 := Nat.le_of_lt_succ h
    refine .inl ⟨h, UInt8.ofNat c.toNat, ?_, ?_⟩
    · simp only [String.utf8EncodeChar, if_pos hle]
      rfl
    · apply Char.toNat_inj.mp
      rw [ofUInt8_toNat, UInt8.toNat_ofNat_of_lt' (Nat.lt_trans h (by decide))]
  · have hgt : ¬c.val.toNat ≤ 127 := fun hle => h (Nat.lt_succ_of_le hle)
    refine .inr ⟨by omega, fun b hb => ?_⟩
    rw [ofUInt8_toNat]
    simp only [String.utf8EncodeChar, if_neg hgt] at hb
    split at hb
    · simp only [List.mem_cons, List.not_mem_nil, or_false] at hb
      rcases hb with rfl | rfl <;> simp only [UInt8.toNat_ofNat'] <;> omega
    split at hb
    · simp only [List.mem_cons, List.not_mem_nil, or_false] at hb
      rcases hb with rfl | rfl | rfl <;> simp only [UInt8.toNat_ofNat'] <;> omega
    · simp only [List.mem_cons, List.not_mem_nil, or_false] at hb
      rcases hb with rfl | rfl | rfl | rfl <;> simp only [UInt8.toNat_ofNat'] <;> omega

theorem place_ascii {c : Char} (h : c.toNat < 128) : place [c] = 1 := by
  obtain ⟨-, b, hone, -⟩ | ⟨hle, -⟩ := utf8EncodeChar_cases c
  · rw [place, encode_cons, hone]
    rfl
  · exact absurd h (Nat.not_lt.mpr hle)

theorem place_succ {d : Char} (hd : d.toNat < 128) (before : List Char) :
    place (before ++ [d]) = place before + 1 := by
  rw [place_append, place_ascii hd]

/-- A test that all bytes of a character pass if it passes, and none otherwise. -/
def Uniform (P : Char → Bool) : Prop :=
  ∀ c, ∀ b ∈ String.utf8EncodeChar c, P (Char.ofUInt8 b) = P c

/-- Tests for ASCII characters are so. -/
theorem Uniform.of_ascii {P : Char → Bool} (h : ∀ c, P c = true → c.toNat < 128) : Uniform P := by
  intro c b hb
  obtain ⟨-, b', hone, hsame⟩ | ⟨hc, hall⟩ := utf8EncodeChar_cases c
  · rw [hone, List.mem_singleton] at hb
    rw [hb, hsame]
  · have hfails {d : Char} (hd : 128 ≤ d.toNat) : P d = false :=
      Bool.eq_false_iff.mpr fun hP => absurd (h d hP) (Nat.not_lt.mpr hd)
    rw [hfails hc, hfails (hall b hb)]

theorem Uniform.not {P : Char → Bool} (h : Uniform P) : Uniform fun c => !P c :=
  fun c b hb => congrArg (!·) (h c b hb)

theorem uniform_eq (d : Char) (h : d.toNat < 128) : Uniform fun c => decide (c = d) :=
  .of_ascii fun _ hc => of_decide_eq_true hc ▸ h

theorem uniform_isDigit : Uniform Piece.isDigit := .of_ascii fun _ => Piece.ascii_of_isDigit

theorem uniform_isNamePart : Uniform Piece.isNamePart :=
  .of_ascii fun _ => Piece.ascii_of_isNamePart

section

variable {P : Char → Bool} (hP : Uniform P)
include hP

/-- A run of bytes ends between two characters. -/
theorem takeWhile_encode (cs : List Char) :
    (encode cs).takeWhile (fun b => P (Char.ofUInt8 b)) = encode (cs.takeWhile P) := by
  induction cs with
  | nil => rfl
  | cons c cs ih =>
    obtain ⟨b, bs, hbytes⟩ := List.exists_cons_of_ne_nil (String.utf8EncodeChar_ne_nil (c := c))
    rw [encode_cons, List.takeWhile_cons]
    cases hc : P c with
    | true =>
      rw [List.takeWhile_append_of_pos fun b hb => (hP c b hb).trans hc, ih]
      rfl
    | false =>
      have hb : P (Char.ofUInt8 b) = false := (hP c b (by simp [hbytes])).trans hc
      simp [hbytes, hb]

/-- The first byte passes if the first character does. -/
theorem head_encode (cs : List Char) :
    (encode cs).head?.any (fun b => P (Char.ofUInt8 b)) = cs.head?.any P := by
  cases cs with
  | nil => rfl
  | cons c cs =>
    obtain ⟨b, bs, hbytes⟩ := List.exists_cons_of_ne_nil (String.utf8EncodeChar_ne_nil (c := c))
    simpa [hbytes] using hP c b (by simp [hbytes])

end

/-- A line end is one byte, which no other character has. -/
theorem countP_encode (cs : List Char) :
    (encode cs).countP (fun b => decide (Char.ofUInt8 b = '\n')) = newlines cs := by
  have huniform := uniform_eq '\n' (by decide)
  induction cs with
  | nil => rfl
  | cons c cs ih =>
    rw [encode_cons, List.countP_append, ih, newlines, newlines, List.count_cons, Nat.add_comm]
    congr 1
    by_cases hc : c = '\n'
    · subst hc
      rfl
    · rw [if_neg (by simpa using hc), List.countP_eq_zero]
      intro b hb
      have hsame := huniform c b hb
      dsimp only at hsame
      rw [hsame, decide_eq_true_eq]
      exact hc

/-! ## The bytes that are left -/

section

variable {source : String} {c : Cursor}

variable (source) in
/-- The bytes that were not looked at. -/
def left (c : Cursor) : List UInt8 := (bytes source).drop c.curr

theorem left_eq_nil_iff : left source c = [] ↔ source.utf8ByteSize ≤ c.curr := by
  rw [left, List.drop_eq_nil_iff, utf8ByteSize_eq, bytes_eq, place]

theorem head_left (c : Cursor) : (bytes source)[c.curr]? = (left source c).head? := by
  rw [left, List.head?_drop]

theorem advance_left {b : UInt8} {bs : List UInt8} (h : left source c = b :: bs) :
    advance source c = .ok b { c with curr := c.curr + 1 } ∧
      left source { c with curr := c.curr + 1 } = bs := by
  refine ⟨?_, ?_⟩
  · rw [advance_eq, head_left, h]
    rfl
  · have htail := congrArg List.tail h
    rwa [left, List.tail_drop] at htail

/-- Looking at the next byte never fails. -/
theorem peek_left (c : Cursor) : peek source c = .ok ((left source c).head?.getD 0) c := by
  rw [peek_eq, byte_eq, head_left]
  split
  · next hend => rw [left_eq_nil_iff.mpr hend]; rfl
  · next hend =>
    obtain ⟨b, bs, hleft⟩ := List.exists_cons_of_ne_nil (mt left_eq_nil_iff.mp hend)
    rw [hleft]
    rfl

theorem atEnd_left (c : Cursor) : atEnd source c = .ok (left source c).isEmpty c := by
  have hend : (left source c).isEmpty = decide (source.utf8ByteSize ≤ c.curr) := by
    rw [Bool.eq_iff_iff, List.isEmpty_iff, left_eq_nil_iff, decide_eq_true_eq]
  rw [hend]
  rfl

theorem advanceWhile_left {P : Char → Bool} (hzero : P (Char.ofUInt8 0) = false) (c : Cursor) :
    advanceWhile source P c = .ok () { c with
      curr := c.curr + ((left source c).takeWhile fun b => P (Char.ofUInt8 b)).length } := by
  generalize hleft : left source c = bs
  induction bs generalizing c with
  | nil =>
    rw [advanceWhile, peek_left, hleft]
    simp [hzero]
  | cons b bs ih =>
    obtain ⟨hadvance, hbs⟩ := advance_left hleft
    rw [advanceWhile, peek_left, hleft]
    by_cases hb : P (Char.ofUInt8 b) = true
    · simp only [List.head?_cons, Option.getD_some, hb, if_true, List.takeWhile_cons,
        List.length_cons]
      split
      · next hmoved =>
        rw [hadvance] at hmoved
        cases hmoved
      · next hmoved =>
        rw [hadvance] at hmoved
        cases hmoved
        rw [ih _ hbs, Nat.add_assoc, Nat.add_comm 1]
    · simp [hb]

/-- Bytes that stand before a quote, and how many of them end a line. -/
theorem toQuote_left (c : Cursor) :
    let own := (left source c).takeWhile fun b => !decide (Char.ofUInt8 b = '"')
    toQuote source c = .ok () { c with
      curr := c.curr + own.length
      line := c.line + own.countP fun b => decide (Char.ofUInt8 b = '\n') } := by
  generalize hleft : left source c = bs
  induction bs generalizing c with
  | nil =>
    rw [toQuote, if_pos (left_eq_nil_iff.mp hleft)]
    rfl
  | cons b bs ih =>
    obtain ⟨hadvance, hbs⟩ := advance_left hleft
    have hmore : ¬source.utf8ByteSize ≤ c.curr := by
      rw [← left_eq_nil_iff, hleft]
      exact List.cons_ne_nil b bs
    rw [toQuote, if_neg hmore, peek_left, hleft]
    by_cases hb : Char.ofUInt8 b = '"'
    · simp [hb]
    · simp only [List.head?_cons, Option.getD_some, ne_eq, hb, not_false_eq_true, if_true,
        decide_false, Bool.not_false, List.takeWhile_cons, List.length_cons, List.countP_cons]
      split
      · next hmoved =>
        rw [hadvance] at hmoved
        cases hmoved
      · next hmoved =>
        rw [hadvance] at hmoved
        cases hmoved
        by_cases hline : Char.ofUInt8 b = '\n'
        · rw [if_pos hline]
          refine (ih { c with curr := c.curr + 1, line := c.line + 1 } hbs).trans ?_
          simp only [hline, decide_true, if_true]
          congr 2 <;> omega
        · rw [if_neg hline, ih _ hbs]
          simp only [hline, decide_false, Bool.false_eq_true, if_false]
          congr 2
          omega

end

/-! ## Between two characters -/

section

variable {source : String} {before rest : List Char} {c : Cursor}

theorem utf8ByteSize_ofList (cs : List Char) : (String.ofList cs).utf8ByteSize = place cs := by
  rw [utf8ByteSize_eq, String.toList_ofList]

theorem isValid_place (h : source.toList = before ++ rest) :
    String.Pos.Raw.IsValid source ⟨place before⟩ := by
  refine String.Pos.Raw.isValid_iff_exists_append.mpr
    ⟨String.ofList before, String.ofList rest, ?_, ?_⟩
  · rw [← String.ofList_append, ← h, String.ofList_toList]
  · rw [← utf8ByteSize_ofList]
    rfl

/-- A part between two characters is there to be taken. -/
theorem slice_between (own after : List Char) (h : source.toList = before ++ (own ++ after))
    (c : Cursor) :
    slice source (place before) (place (before ++ own)) c = .ok (String.ofList own) c := by
  have hle : place before ≤ place (before ++ own) := by
    rw [place_append]
    exact Nat.le_add_right _ _
  have hlast : source.toList = (before ++ own) ++ after := by rw [h, List.append_assoc]
  have hbytes : source.toByteArray.extract (place before) (place (before ++ own)) =
      (String.ofList own).toByteArray := by
    rw [← String.ofList_toList (s := source), h, String.ofList_append, String.ofList_append,
      String.toByteArray_append, String.toByteArray_append, place_append, ← utf8ByteSize_ofList,
      ← utf8ByteSize_ofList, ← String.size_toByteArray, ← String.size_toByteArray]
    exact (ByteArray.extract_append_size_add (i := 0)).trans (ByteArray.extract_append_eq_left rfl)
  have hpart : String.fromUTF8? (String.ofList own).toByteArray = some (String.ofList own) :=
    dif_pos (String.ofList own).isValidUTF8
  unfold slice
  rw [if_pos ⟨hle, isValid_place h, isValid_place hlast⟩, hbytes, hpart]
  rfl

theorem left_between (h : source.toList = before ++ rest) (hc : c.curr = place before) :
    left source c = encode rest := by
  rw [left, bytes_eq, h, encode_append, hc, place, List.drop_left]

/-- The next byte passes a test if the next character does. -/
theorem peek_between (h : source.toList = before ++ rest) (hc : c.curr = place before) :
    ∃ b, peek source c = .ok b c ∧ ∀ P, Uniform P → P (Char.ofUInt8 0) = false →
      P (Char.ofUInt8 b) = rest.head?.any P := by
  refine ⟨_, peek_left c, fun P hP hzero => ?_⟩
  rw [left_between h hc, ← head_encode hP]
  cases (encode rest).head? with
  | none => exact hzero
  | some b => rfl

theorem advanceWhile_between {P : Char → Bool} (hP : Uniform P)
    (hzero : P (Char.ofUInt8 0) = false) (h : source.toList = before ++ rest)
    (hc : c.curr = place before) :
    advanceWhile source P c = .ok () { c with curr := place (before ++ rest.takeWhile P) } := by
  rw [advanceWhile_left hzero, left_between h hc, takeWhile_encode hP, place_append, ← hc]
  rfl

theorem toQuote_between (h : source.toList = before ++ rest) (hc : c.curr = place before) :
    let own := rest.takeWhile (· ≠ '"')
    toQuote source c = .ok () { c with
      curr := place (before ++ own)
      line := c.line + newlines own } := by
  have hclass : (fun d : Char => decide (d ≠ '"')) = fun d => !decide (d = '"') := by
    funext d
    exact decide_not
  have hown := takeWhile_encode (uniform_eq '"' (by decide)).not rest
  dsimp only
  rw [toQuote_left, left_between h hc, hown, countP_encode, hclass, place_append, hc]
  rfl

theorem advance_between {d : Char} (hd : d.toNat < 128)
    (h : source.toList = before ++ d :: rest) (hc : c.curr = place before) :
    ∃ b, advance source c = .ok b { c with curr := place (before ++ [d]) } := by
  have hleft := left_between h hc
  obtain ⟨b, bs, hbytes⟩ := List.exists_cons_of_ne_nil (String.utf8EncodeChar_ne_nil (c := d))
  rw [encode_cons, hbytes] at hleft
  exact ⟨b, by rw [(advance_left hleft).1, place_succ hd, hc]⟩

theorem matchByte_between {expected : Char} (hexpected : expected.toNat < 128)
    (hzero : Char.ofUInt8 0 ≠ expected) (h : source.toList = before ++ rest)
    (hc : c.curr = place before) :
    matchByte source expected c =
      if rest.head? = some expected then .ok true { c with curr := place (before ++ [expected]) }
      else .ok false c := by
  obtain ⟨b, hpeek, hpass⟩ := peek_between h hc
  have hb := hpass _ (uniform_eq expected hexpected) (decide_eq_false hzero)
  unfold matchByte
  rw [bind_of_ok (atEnd_left c), left_between h hc]
  cases rest with
  | nil => rfl
  | cons d ds =>
    have hmore : (encode (d :: ds)).isEmpty = false := by
      simp [encode_cons, String.utf8EncodeChar_ne_nil]
    simp only [hmore, Bool.false_eq_true, if_false, List.head?_cons, Option.some.injEq,
      Option.any_some, decide_eq_decide] at hb ⊢
    rw [bind_of_ok hpeek]
    by_cases hd : d = expected
    · subst hd
      obtain ⟨b', hadvance⟩ := advance_between hexpected h hc
      rw [if_pos rfl, if_pos (hb.mpr rfl), bind_of_ok hadvance]
      rfl
    · rw [if_neg hd, if_neg (mt hb.mp hd)]
      rfl

/-- The byte after the next one is the next one a byte further on. -/
theorem peekNext_between {d : Char} (hd : d.toNat < 128) (h : source.toList = before ++ d :: rest)
    (hc : c.curr = place before) :
    ∃ b, peekNext source c = .ok b c ∧ ∀ P, Uniform P → P (Char.ofUInt8 0) = false →
      P (Char.ofUInt8 b) = rest.head?.any P := by
  have hnext : source.toList = (before ++ [d]) ++ rest := by simp [h]
  have hplace : c.curr + 1 = place (before ++ [d]) := by rw [place_succ hd, hc]
  obtain ⟨b, hpeek, hpass⟩ := @peek_between _ _ _ { c with curr := c.curr + 1 } hnext hplace
  refine ⟨b, ?_, hpass⟩
  rw [peek_eq] at hpeek
  unfold peekNext
  rw [get_bind]
  split at hpeek
  · next hend =>
    cases hpeek
    rw [if_pos hend]
    rfl
  · next hend =>
    rw [if_neg hend, byte_eq]
    rw [byte_eq] at hpeek
    dsimp only at hpeek
    cases hb : (bytes source)[c.curr + 1]? with
    | none => simp [hb] at hpeek
    | some b' =>
      rw [hb] at hpeek
      cases hpeek
      rfl

/-- Where a byte is found, those before it are not it. -/
theorem findIdx?_eq (P : UInt8 → Bool) (bs : List UInt8) :
    (bs.findIdx? P).getD bs.length = (bs.takeWhile fun b => !P b).length := by
  induction bs with
  | nil => rfl
  | cons b bs ih =>
    rw [List.findIdx?_cons, List.takeWhile_cons]
    cases P b with
    | true => rfl
    | false =>
      rw [Bool.not_false, if_pos rfl, List.length_cons, List.length_cons, ← ih]
      cases bs.findIdx? P <;> rfl

theorem toLineEnd_between (h : source.toList = before ++ rest) (hc : c.curr = place before) :
    toLineEnd source c =
      .ok () { c with curr := place (before ++ rest.takeWhile (· ≠ '\n')) } := by
  have hsize : source.utf8ByteSize = place (before ++ rest) := by rw [utf8ByteSize_eq, h]
  have hslice := slice_between rest [] (by rw [h, List.append_nil]) c
  have hclass : (fun d : Char => decide (d ≠ '\n')) = fun d => !decide (d = '\n') := by
    funext d
    exact decide_not
  have hfound := findIdx?_eq (fun b => decide (Char.ofUInt8 b = '\n')) (encode rest)
  rw [takeWhile_encode (uniform_eq '\n' (by decide)).not] at hfound
  unfold toLineEnd
  rw [get_bind, hc, hsize, bind_of_ok hslice, bytes_ofList, hclass, place_append, place_append,
    ← hc]
  unfold place
  rw [← hfound]
  cases (encode rest).findIdx? _ <;> rfl

end

end Cursor
end Lox
