/-
  Lox.Proofs.Json.Pieces

  Pieces of JSON are read back, whatever stands behind them.

    * `Json.string?_json` — a quoted text is read as the text, whatever characters it has;
    * `Numeral` — a numeral as JSON writes it, and `Json.number?_text` which reads it;
    * `Json.Writes depth text value` — at the place of a value the text is read as the value;
    * `Json.writes_object` — an object is written by its members.
-/
import Lox.Proofs.Json.Reader
import Lox.Text.Quoted
import Mathlib

namespace Lox

/-! ## Numerals -/

/-- One decimal digit or more. -/
structure Digits where
  chars : List Char
  ne_nil : chars ≠ []
  isDigit : ∀ c ∈ chars, c.isDigit = true

/-- A numeral as JSON writes it, without a sign. -/
structure Numeral where
  whole : Digits
  /-- Only a single zero stands first. -/
  leading : whole.chars.head? = some '0' → whole.chars = ['0']
  fraction : Option Digits
  /-- Whether the exponent is negative, and its digits. -/
  exponent : Option (Bool × Digits)

namespace Numeral

/-- The digits behind the point. -/
def places (n : Numeral) : List Char := n.fraction.elim [] (·.chars)

/-- The point and the digits behind it. -/
def fractionText (n : Numeral) : List Char := n.fraction.elim [] fun ds => '.' :: ds.chars

/-- The exponent with its sign. -/
def exponentText (n : Numeral) : List Char :=
  n.exponent.elim [] fun e => 'e' :: (if e.1 then '-' else '+') :: e.2.chars

/-- How the numeral is written. -/
def text (n : Numeral) : List Char := n.whole.chars ++ (n.fractionText ++ n.exponentText)

/-- The power of ten that the exponent writes. -/
def power (n : Numeral) : Int :=
  n.exponent.elim 0 fun e =>
    if e.1 then -(Number.Decimal.ofDigits e.2.chars : Int) else Number.Decimal.ofDigits e.2.chars

/-- The numeral as digits and a power of ten. -/
def decimal (n : Numeral) : Number.Decimal :=
  ⟨Number.Decimal.ofDigits (n.whole.chars ++ n.places), n.power - n.places.length⟩

end Numeral

namespace Json

open Text.Quoted

/-- What follows is the end of a text or of a member. -/
def Delimited (rest : List Char) : Prop := ∀ c ∈ rest.head?, c = ',' ∨ c = '\x7d'

theorem delimited_nil : Delimited [] := nofun

theorem delimited_comma (rest : List Char) : Delimited (',' :: rest) := by
  rintro c ⟨⟩
  exact .inl rfl

theorem delimited_brace (rest : List Char) : Delimited ('\x7d' :: rest) := by
  rintro c ⟨⟩
  exact .inr rfl

/-! ## Strings -/

/-- The part as which a character is read: control characters without a letter of their
    own are units. -/
def partOf (c : Char) : Part :=
  if c.toNat < 32 ∧ c ∉ ['\n', '\r', '\t', '\x08', '\x0c'] then .unit c.toNat else .char c

/-- A control character is written as a unit of four digits. -/
theorem unit?_hex {n : Nat} (h : n < 32) :
    (n < 16 → ∃ d, hex n = [d] ∧ unit? '0' '0' '0' d = some n) ∧
      (16 ≤ n → ∃ c d, hex n = [c, d] ∧ unit? '0' '0' c d = some n) := by
  have hall : ∀ n < 32, (n < 16 → (hex n).length = 1 ∧ unit? '0' '0' '0' ((hex n)[0]!) = some n) ∧
      (16 ≤ n → (hex n).length = 2 ∧ unit? '0' '0' ((hex n)[0]!) ((hex n)[1]!) = some n) := by
    decide
  obtain ⟨hsmall, hgreat⟩ := hall n h
  refine ⟨fun hn => ?_, fun hn => ?_⟩
  · obtain ⟨hlength, hunit⟩ := hsmall hn
    obtain ⟨d, hd⟩ := List.length_eq_one_iff.mp hlength
    rw [hd] at hunit
    exact ⟨d, hd, hunit⟩
  · obtain ⟨hlength, hunit⟩ := hgreat hn
    obtain ⟨c, d, hd⟩ := List.length_eq_two.mp hlength
    rw [hd] at hunit
    exact ⟨c, d, hd, hunit⟩

/-- A character of a string is read as its part. -/
theorem parts?_jsonChar (c : Char) (rest : List Char) :
    parts? (jsonChar c ++ rest) = prepend (partOf c) (parts? rest) := by
  unfold jsonChar
  split
  · subst_vars; rfl
  split
  · subst_vars; rfl
  split
  · subst_vars; rfl
  split
  · subst_vars; rfl
  split
  · subst_vars; rfl
  split
  · next h =>
    obtain rfl : c = '\x08' := Char.toNat_inj.mp h
    rfl
  split
  · next h =>
    obtain rfl : c = '\x0c' := Char.toNat_inj.mp h
    rfl
  next hquote hslash hn hr ht hb hf =>
  have hletter : c ∉ ['\n', '\r', '\t', '\x08', '\x0c'] := by
    have hb' : c ≠ '\x08' := fun heq => hb (by rw [heq]; rfl)
    have hf' : c ≠ '\x0c' := fun heq => hf (by rw [heq]; rfl)
    simp [hn, hr, ht, hb', hf']
  split
  · next hsmall =>
    have hpart : partOf c = .unit c.toNat := if_pos ⟨by omega, hletter⟩
    obtain ⟨d, hd, hunit⟩ := (unit?_hex (by omega)).1 hsmall
    rw [hpart, hd]
    simp [parts?, hunit]
  split
  · next hsmall hgreat =>
    have hpart : partOf c = .unit c.toNat := if_pos ⟨by omega, hletter⟩
    obtain ⟨d, e, hd, hunit⟩ := (unit?_hex hgreat).2 (by omega)
    rw [hpart, hd]
    simp [parts?, hunit]
  · next hcontrol =>
    have hpart : partOf c = .char c := if_neg fun h => hcontrol h.1
    rw [hpart, List.singleton_append]
    simp [parts?, hquote, hslash, hcontrol]

theorem parts?_flatMap (cs rest : List Char) :
    parts? (cs.flatMap jsonChar ++ '"' :: rest) = some (cs.map partOf, rest) := by
  induction cs with
  | nil => rfl
  | cons c cs ih =>
    rw [List.flatMap_cons, List.append_assoc, parts?_jsonChar, ih]
    rfl

/-- A unit that is no surrogate is a character of its own. -/
theorem characters?_unit {n : Nat} (h : n < 0xD800) (parts : List Part) :
    characters? (.unit n :: parts) = (characters? parts).map (Char.ofNat n :: ·) := by
  have hhigh : ¬IsHigh n := fun hn => absurd hn.1 (by omega)
  have hlow : ¬IsLow n := fun hn => absurd hn.1 (by omega)
  match parts with
  | [] => simp [characters?, hhigh, hlow]
  | .char c :: parts => simp [characters?, hhigh, hlow]
  | .unit m :: parts => simp [characters?, hhigh, hlow]

theorem characters?_partOf (cs : List Char) : characters? (cs.map partOf) = some cs := by
  induction cs with
  | nil => rfl
  | cons c cs ih =>
    rw [List.map_cons, partOf]
    split
    · next h =>
      rw [characters?_unit (by omega), ih, Char.ofNat_toNat]
      rfl
    · rw [characters?, ih]
      rfl

/-- A quoted text is read as the text. -/
theorem string?_json (text : String) (rest : List Char) :
    string? (text.toList.flatMap jsonChar ++ '"' :: rest) = some (text, rest) := by
  unfold string?
  rw [parts?_flatMap]
  simp [characters?_partOf]

/-! ## Numbers -/

variable {rest : List Char}

theorem digits?_append (ds : Digits) (hrest : ∀ c ∈ rest.head?, c.isDigit = false) :
    digits? (ds.chars ++ rest) = some (ds.chars, rest) := by
  have hnone : rest.takeWhile Char.isDigit = [] ∧ rest.dropWhile Char.isDigit = rest := by
    cases rest with
    | nil => exact ⟨rfl, rfl⟩
    | cons c rest =>
      have hc := hrest c rfl
      exact ⟨List.takeWhile_cons_of_neg (by simp [hc]), List.dropWhile_cons_of_neg (by simp [hc])⟩
  have htake : (ds.chars ++ rest).takeWhile Char.isDigit = ds.chars := by
    rw [List.takeWhile_append_of_pos ds.isDigit, hnone.1, List.append_nil]
  have hdrop : (ds.chars ++ rest).dropWhile Char.isDigit = rest := by
    rw [List.dropWhile_append_of_pos ds.isDigit, hnone.2]
  unfold digits?
  rw [htake, hdrop, if_neg ds.ne_nil]

theorem isDigit_of_delimited (h : Delimited rest) : ∀ c ∈ rest.head?, c.isDigit = false := by
  intro c hc
  rcases h c hc with rfl | rfl <;> rfl

theorem exponent?_text (n : Numeral) (hrest : Delimited rest) :
    exponent? (n.exponentText ++ rest) = some (n.power, rest) := by
  obtain ⟨whole, leading, fraction, exponent⟩ := n
  cases exponent with
  | none =>
    cases rest with
    | nil => rfl
    | cons c rest => rcases hrest c rfl with rfl | rfl <;> rfl
  | some e =>
    obtain ⟨negative, ds⟩ := e
    have hdigits := digits?_append ds (isDigit_of_delimited hrest)
    cases negative <;> simp [exponent?, Numeral.exponentText, Numeral.power, hdigits]

/-- Behind the digits of a part of a numeral there is no further digit. -/
theorem head?_exponentText (n : Numeral) (hrest : Delimited rest) :
    ∀ c ∈ (n.exponentText ++ rest).head?, c.isDigit = false ∧ c ≠ '.' := by
  obtain ⟨whole, leading, fraction, exponent⟩ := n
  intro c hc
  cases exponent with
  | none => rcases hrest c hc with rfl | rfl <;> exact ⟨rfl, by decide⟩
  | some e =>
    cases hc
    exact ⟨rfl, by decide⟩

theorem fraction?_text (n : Numeral) (hrest : Delimited rest) :
    fraction? (n.fractionText ++ (n.exponentText ++ rest)) =
      some (n.places, n.exponentText ++ rest) := by
  have hhead := head?_exponentText n hrest
  generalize n.exponentText ++ rest = after at hhead
  unfold Numeral.fractionText Numeral.places
  cases n.fraction with
  | none =>
    cases after with
    | nil => rfl
    | cons c after => simp [fraction?, (hhead c rfl).2]
  | some ds => simp [fraction?, digits?_append ds fun c hc => (hhead c hc).1]

theorem whole?_text (n : Numeral) (hrest : Delimited rest) :
    whole? (n.text ++ rest) =
      some (n.whole.chars, n.fractionText ++ (n.exponentText ++ rest)) := by
  have hhead : ∀ c ∈ (n.fractionText ++ (n.exponentText ++ rest)).head?, c.isDigit = false := by
    unfold Numeral.fractionText
    cases n.fraction with
    | none => exact fun c hc => (head?_exponentText n hrest c hc).1
    | some ds =>
      rintro c ⟨⟩
      rfl
  have hleading : ¬(n.whole.chars.head? = some '0' ∧ n.whole.chars ≠ ['0']) :=
    fun h => h.2 (n.leading h.1)
  unfold whole? Numeral.text
  rw [List.append_assoc, List.append_assoc, digits?_append n.whole hhead]
  exact if_neg hleading

/-- A numeral is read with all its digits. -/
theorem number?_text (n : Numeral) (negative : Bool) (hrest : Delimited rest) :
    number? negative (n.text ++ rest) = some (.number negative n.decimal, rest) := by
  unfold number?
  simp [whole?_text n hrest, fraction?_text n hrest, exponent?_text n hrest, Numeral.decimal]

/-! ## Values -/

/-- At the place of a value, with fuel for as many levels, the text is read as the value. -/
def Writes (depth : Nat) (text : List Char) (value : Json) : Prop :=
  ∀ fuel rest, depth ≤ fuel → Delimited rest → value? fuel (text ++ rest) = some (value, rest)

theorem skip_cons {c : Char} (h : isBlank c = false) (cs : List Char) : skip (c :: cs) = c :: cs :=
  List.dropWhile_cons_of_neg (by simp [h])

theorem writes_string (text : String) : Writes 1 (json text).toList (.string text) := by
  intro fuel rest hfuel _
  obtain ⟨fuel, rfl⟩ := Nat.exists_eq_add_of_le' hfuel
  have hstring := string?_json text rest
  simp [value?, json, skip_cons (show isBlank '"' = false from rfl), hstring]

theorem writes_null : Writes 1 "null".toList .null := by
  intro fuel rest hfuel _
  obtain ⟨fuel, rfl⟩ := Nat.exists_eq_add_of_le' hfuel
  have hword : word? "null" .null ("null".toList ++ rest) = some (.null, rest) := by
    unfold word?
    rw [if_pos (List.prefix_append _ _)]
    rfl
  have hcons : "null".toList ++ rest = 'n' :: 'u' :: 'l' :: 'l' :: rest := rfl
  rw [hcons] at hword ⊢
  simp [value?, skip_cons (show isBlank 'n' = false from rfl), hword]

theorem writes_numeral (n : Numeral) : Writes 1 n.text (.number false n.decimal) := by
  intro fuel rest hfuel hrest
  obtain ⟨fuel, rfl⟩ := Nat.exists_eq_add_of_le' hfuel
  have hnumber := number?_text n false hrest
  obtain ⟨c, cs, hwhole⟩ := List.exists_cons_of_ne_nil n.whole.ne_nil
  have hdigit : c.isDigit = true := n.whole.isDigit c (by rw [hwhole]; exact List.mem_cons_self)
  obtain ⟨after, hcons⟩ : ∃ after, n.text ++ rest = c :: after := by
    rw [Numeral.text, hwhole]
    exact ⟨_, rfl⟩
  -- A digit is none of the characters with which other values begin.
  have hother (d : Char) (hd : d.isDigit = false) : c ≠ d := by
    rintro rfl
    rw [hdigit] at hd
    cases hd
  have hblank : isBlank c = false := by
    simp [isBlank, hother ' ' rfl, hother '\t' rfl, hother '\n' rfl, hother '\r' rfl]
  rw [hcons] at hnumber ⊢
  simp [value?, skip_cons hblank, hother '"' rfl, hother '\x7b' rfl, hother '[' rfl,
    hother '-' rfl, hdigit, hnumber]

/-! ## Objects -/

/-- A member of an object: its name, and the text of its value. -/
def memberText (member : String × List Char) : List Char :=
  (json member.1).toList ++ ':' :: member.2

/-- The members of an object with the commas between them. -/
def membersText : List (String × List Char) → List Char
  | [] => []
  | [member] => memberText member
  | member :: members => memberText member ++ ',' :: membersText members

/-- An object without blanks. -/
def objectText (members : List (String × List Char)) : List Char :=
  '\x7b' :: (membersText members ++ ['\x7d'])

/-- The text of a member is that of the name and of the value. -/
def WritesMember (depth : Nat) (member : String × List Char) (value : String × Json) : Prop :=
  member.1 = value.1 ∧ Writes depth member.2 value.2

/-- One member is read, and then the rest of the object. -/
theorem members?_memberText {depth fuel : Nat} {member : String × List Char}
    {value : String × Json} (h : WritesMember depth member value) (hfuel : depth ≤ fuel)
    (hrest : Delimited rest) (hskip : skip rest = rest) :
    members? (fuel + 1) (memberText member ++ rest) =
      if rest.head? = some ',' then
        (members? fuel rest.tail).map fun found => (value :: found.1, found.2)
      else if rest.head? = some '\x7d' then some ([value], rest.tail)
      else none := by
  obtain ⟨name, text⟩ := member
  obtain ⟨_, value⟩ := value
  obtain ⟨rfl, hwrites⟩ := h
  have hstring := string?_json name (':' :: (text ++ rest))
  have hvalue := hwrites fuel rest hfuel hrest
  have htext : memberText (name, text) ++ rest =
      '"' :: (name.toList.flatMap jsonChar ++ '"' :: ':' :: (text ++ rest)) := by
    simp [memberText, json]
  rw [htext]
  simp only [members?, skip_cons (show isBlank '"' = false from rfl), hstring]
  simp only [if_true, bind, Option.bind, skip_cons (show isBlank ':' = false from rfl),
    List.head?_cons, List.tail_cons, hvalue, hskip]
  cases members? fuel rest.tail <;> rfl

theorem members?_membersText {depth fuel : Nat} {members : List (String × List Char)}
    {values : List (String × Json)} (h : List.Forall₂ (WritesMember depth) members values)
    (hne : members ≠ []) (hfuel : depth + members.length ≤ fuel) (rest : List Char) :
    members? fuel (membersText members ++ '\x7d' :: rest) = some (values, rest) := by
  induction h generalizing fuel with
  | nil => exact absurd rfl hne
  | @cons member value members values hmember hmembers ih =>
    rw [List.length_cons] at hfuel
    obtain ⟨fuel, rfl⟩ := Nat.exists_eq_add_of_le' (show 1 ≤ fuel by omega)
    cases hmembers with
    | nil =>
      have hread := members?_memberText hmember (show depth ≤ fuel by omega) (delimited_brace rest)
        (skip_cons rfl rest)
      simpa [membersText] using hread
    | @cons next value' members values hnext hmore =>
      have hrest := ih (List.cons_ne_nil _ _) (show _ ≤ fuel by omega)
      have hread := members?_memberText hmember (show depth ≤ fuel by omega)
        (delimited_comma (membersText (next :: members) ++ '\x7d' :: rest)) (skip_cons rfl _)
      simpa [membersText, hrest] using hread

theorem head?_memberText (member : String × List Char) :
    (memberText member).head? = some '"' := by
  simp [memberText, json]

/-- Members begin with the quote of a name. -/
theorem head?_membersText {members : List (String × List Char)} (hne : members ≠ []) :
    (membersText members).head? = some '"' := by
  obtain ⟨member, members, rfl⟩ := List.exists_cons_of_ne_nil hne
  cases members with
  | nil => exact head?_memberText member
  | cons next members => simp [membersText, List.head?_append, head?_memberText]

/-- An object is written by its members. -/
theorem writes_object {depth : Nat} {members : List (String × List Char)}
    {values : List (String × Json)} (h : List.Forall₂ (WritesMember depth) members values)
    (hne : members ≠ []) :
    Writes (depth + members.length + 1) (objectText members) (.object values) := by
  intro fuel rest hfuel _
  obtain ⟨fuel, rfl⟩ := Nat.exists_eq_add_of_le' (show 1 ≤ fuel by omega)
  have hmembers := members?_membersText h hne (show _ ≤ fuel by omega) rest
  -- What follows the brace is not the end of the object.
  obtain ⟨cs, hcs⟩ := List.head?_eq_some_iff.mp (head?_membersText hne)
  rw [hcs] at hmembers
  rw [objectText, hcs]
  simpa [value?, skip_cons (show isBlank '\x7b' = false from rfl),
    skip_cons (show isBlank '"' = false from rfl)] using hmembers

/-- A value that fills a text is read from it. -/
theorem Writes.read?_eq {depth : Nat} {text : List Char} {value : Json}
    (h : Writes depth text value) (hdepth : depth ≤ text.length + 1) :
    read? text = some value := by
  have hvalue := h (text.length + 1) [] hdepth delimited_nil
  rw [List.append_nil] at hvalue
  unfold read?
  rw [hvalue]
  exact if_pos rfl

end Json

end Lox
