/-
  Lox.Proofs.Json.Listing

  A listing in JSON can be read again: one line for each token.

    * `TokenKind.ReadAs`, `Token.ReadAs` — what a JSON value says about a token;
    * `newline_not_mem_json` — no quoted text has a line end, whatever it quotes;
    * `Token.read?_jsonText` — the line of a token is read as the token;
    * `Mode.listing_reads_back` — so is the whole listing, split at its line ends.

  A line is an object of which each member is written by a lemma on pieces; the members
  meet in `Json.writes_object`.
-/
import Lox.Proofs.Json.Numbers
import Lox.Proofs.Verdicts

namespace Lox

/-! ## Tokens as JSON values -/

/-- A value says which kind a token is: by the name of the kind, and under the name by what
    the token carries.  A number is given bit for bit; there is no notation for one that
    is not finite. -/
def TokenKind.ReadAs (kind : TokenKind) (value : Json) : Prop :=
  match kind with
  | .string content => value = .object [("STRING", .string content)]
  | .number x =>
    (∃ size : Number.Decimal, value = .object [("NUMBER", .number false size)] ∧
      size.toFloat.toBits = x.toBits) ∨
    x.isFinite = false ∧ value = .object [("NUMBER", .null)]
  | kind => value = .string kind.name

/-- A value says what a token is: its kind, its text and its line. -/
def Token.ReadAs (t : Token) (value : Json) : Prop :=
  ∃ kind, t.kind.ReadAs kind ∧ value = .object
    [("token_type", kind), ("lexeme", .string t.lexeme), ("line", .number false ⟨t.line, 0⟩)]

namespace Json

open Text.Quoted

/-! ## Lines -/

theorem newline_not_mem_jsonChar (c : Char) : '\n' ∉ jsonChar c := by
  have hhex : ∀ n < 32, '\n' ∉ hex n := by decide
  unfold jsonChar
  split
  · decide
  split
  · decide
  split
  · decide
  split
  · decide
  split
  · decide
  split
  · decide
  split
  · decide
  next hn _ _ _ _ =>
  split
  · next h => simp [hhex c.toNat (by omega)]
  split
  · next h => simp [hhex c.toNat h]
  · simp [Ne.symm hn]

/-- A quoted text has no line end, whatever it quotes. -/
theorem newline_not_mem_json (text : String) : '\n' ∉ (json text).toList := by
  have hchars : '\n' ∉ text.toList.flatMap jsonChar := by
    intro hmem
    obtain ⟨c, _, hc⟩ := List.mem_flatMap.mp hmem
    exact newline_not_mem_jsonChar c hc
  simp [json, hchars]

theorem newline_not_mem_digits (ds : Digits) : '\n' ∉ ds.chars :=
  fun hmem => absurd (ds.isDigit _ hmem) (by decide)

theorem newline_not_mem_numeral (n : Numeral) : '\n' ∉ n.text := by
  have hfraction : '\n' ∉ n.fractionText := by
    unfold Numeral.fractionText
    cases n.fraction with
    | none => exact List.not_mem_nil
    | some ds => simp [newline_not_mem_digits ds]
  have hexponent : '\n' ∉ n.exponentText := by
    unfold Numeral.exponentText
    cases n.exponent with
    | none => exact List.not_mem_nil
    | some e => cases h : e.1 <;> simp [newline_not_mem_digits e.2, h]
  simp [Numeral.text, newline_not_mem_digits n.whole, hfraction, hexponent]

theorem newline_not_mem_membersText {members : List (String × List Char)}
    (h : ∀ member ∈ members, '\n' ∉ member.2) : '\n' ∉ membersText members := by
  have hmember (member : String × List Char) (hvalue : '\n' ∉ member.2) :
      '\n' ∉ memberText member := by
    simp [memberText, newline_not_mem_json, hvalue]
  induction members with
  | nil => exact List.not_mem_nil
  | cons member members ih =>
    have hfirst := hmember member (h member List.mem_cons_self)
    have hrest := ih fun other hother => h other (List.mem_cons_of_mem _ hother)
    cases members with
    | nil => exact hfirst
    | cons next members => simp [membersText, hfirst, hrest]

theorem newline_not_mem_objectText {members : List (String × List Char)}
    (h : ∀ member ∈ members, '\n' ∉ member.2) : '\n' ∉ objectText members := by
  simp [objectText, newline_not_mem_membersText h]

/-! ## Pieces of a line -/

/-- A text without line ends that is read as a value. -/
structure Shows (depth : Nat) (text : List Char) (value : Json) : Prop where
  writes : Writes depth text value
  line : '\n' ∉ text

theorem shows_string (text : String) : Shows 1 (json text).toList (.string text) :=
  ⟨writes_string text, newline_not_mem_json text⟩

theorem shows_numeral (n : Numeral) : Shows 1 n.text (.number false n.decimal) :=
  ⟨writes_numeral n, newline_not_mem_numeral n⟩

theorem shows_null : Shows 1 "null".toList .null := ⟨writes_null, by decide⟩

theorem Shows.deeper {depth depth' : Nat} {text : List Char} {value : Json}
    (h : Shows depth text value) (hdepth : depth ≤ depth') : Shows depth' text value :=
  ⟨fun fuel rest hfuel => h.writes fuel rest (Nat.le_trans hdepth hfuel), h.line⟩

/-- An object is shown by its members. -/
theorem shows_object {depth : Nat} {members : List (String × List Char × Json)}
    (h : ∀ member ∈ members, Shows depth member.2.1 member.2.2) (hne : members ≠ []) :
    Shows (depth + members.length + 1) (objectText (members.map fun m => (m.1, m.2.1)))
      (.object (members.map fun m => (m.1, m.2.2))) := by
  constructor
  · have hmembers : List.Forall₂ (WritesMember depth) (members.map fun m => (m.1, m.2.1))
        (members.map fun m => (m.1, m.2.2)) := by
      rw [List.forall₂_map_left_iff, List.forall₂_map_right_iff, List.forall₂_same]
      exact fun member hmember => ⟨rfl, (h member hmember).writes⟩
    have hobject := writes_object hmembers (by simpa using hne)
    rwa [List.length_map] at hobject
  · refine newline_not_mem_objectText fun member hmember => ?_
    obtain ⟨m, hm, rfl⟩ := List.mem_map.mp hmember
    exact (h m hm).line

/-- A whole number without a sign. -/
def wholeNumeral (n : Nat) : Numeral where
  whole := Number.digitsOf n
  leading h := by
    by_cases hn : n = 0
    · subst hn
      rfl
    · exact absurd h (Number.head?_toDigits hn)
  fraction := none
  exponent := none

theorem shows_whole (n : Nat) : Shows 1 (toString n).toList (.number false ⟨n, 0⟩) := by
  have htext : (wholeNumeral n).text = (toString n).toList := by
    rw [Nat.toString_eq_ofList_toDigits, String.toList_ofList]
    simp [Numeral.text, Numeral.fractionText, Numeral.exponentText, wholeNumeral, Number.digitsOf]
  have hdecimal : (wholeNumeral n).decimal = ⟨n, 0⟩ := by
    simp [Numeral.decimal, Numeral.places, Numeral.power, wholeNumeral, Number.digitsOf,
      Number.ofDigits_toDigits]
  have hshows := shows_numeral (wholeNumeral n)
  rwa [htext, hdecimal] at hshows

end Json

/-! ## Tokens -/

open Json

/-- The value of a number is written as a numeral, or as `null` where it is not finite. -/
theorem TokenKind.shows_number {bits : Nat} (h : bits ≤ Number.infinityBits) :
    ∃ payload, Shows 1 (Number.jsonText (Number.ofPattern bits)).toList payload ∧
      (TokenKind.number (Number.ofPattern bits)).ReadAs (.object [("NUMBER", payload)]) := by
  rcases Nat.lt_or_eq_of_le h with hfinite | rfl
  · obtain ⟨n, htext, hbits⟩ := Number.exists_numeral_jsonText hfinite
    refine ⟨_, htext ▸ shows_numeral n, .inl ⟨n.decimal, rfl, ?_⟩⟩
    rw [Number.Decimal.toFloat, hbits]
    rfl
  · have htext : Number.jsonText (Number.ofPattern Number.infinityBits) = "null" := by
      unfold Number.jsonText Number.parts
      simp [Number.magnitudeBits_ofPattern]
    have hinfinite : (Number.ofPattern Number.infinityBits).isFinite = false := by
      decide
    exact ⟨.null, htext ▸ shows_null, .inr ⟨hinfinite, rfl⟩⟩

/-- An object with a single member. -/
theorem shows_single {depth : Nat} {text : List Char} {value : Json} (name : String)
    (h : Shows depth text value) :
    Shows (depth + 2) (objectText [(name, text)]) (.object [(name, value)]) :=
  have hmember : ∀ member ∈ [(name, text, value)], Shows depth member.2.1 member.2.2 := by
    simpa using h
  shows_object hmember (List.cons_ne_nil _ _)

theorem TokenKind.toList_jsonText_string (content : String) :
    (TokenKind.string content).jsonText.toList =
      objectText [("STRING", (Text.Quoted.json content).toList)] := by
  have hname : (Text.Quoted.json "STRING").toList = "\"STRING\"".toList := by cbv
  simp [jsonText, objectText, membersText, memberText, hname]

theorem TokenKind.toList_jsonText_number (x : Float) :
    (TokenKind.number x).jsonText.toList = objectText [("NUMBER", (Number.jsonText x).toList)] := by
  have hname : (Text.Quoted.json "NUMBER").toList = "\"NUMBER\"".toList := by cbv
  simp [jsonText, objectText, membersText, memberText, hname]

/-- The kind of a token is shown by its name and by what it carries. -/
theorem Token.shows_kind {source : String} {t : Token} (ht : t ∈ tokensOf (scan source)) :
    ∃ value, Shows 3 t.kind.jsonText.toList value ∧ t.kind.ReadAs value := by
  cases hkind : t.kind with
  | string content =>
    have hshows := shows_single "STRING" (shows_string content)
    rw [← TokenKind.toList_jsonText_string] at hshows
    exact ⟨_, hshows, rfl⟩
  | number x =>
    obtain ⟨bits, hrange, rfl⟩ : ∃ bits ≤ Number.infinityBits, x = Number.ofPattern bits := by
      have hspells := (spells_of_mem_scan ht).resolve_left fun hend => by
        rw [hkind] at hend
        cases hend.1
      rw [hkind] at hspells
      exact hspells.exists_pattern
    obtain ⟨payload, hpayload, hread⟩ := TokenKind.shows_number hrange
    have hshows := shows_single "NUMBER" hpayload
    rw [← TokenKind.toList_jsonText_number] at hshows
    exact ⟨_, hshows, hread⟩
  | _ =>
    refine ⟨_, ?_, rfl⟩
    unfold TokenKind.jsonText
    exact (shows_string _).deeper (by omega)

theorem objectText_three (first second third : String × List Char) :
    objectText [first, second, third] = '\x7b' ::
      (memberText first ++ ',' :: (memberText second ++ ',' :: memberText third) ++ ['\x7d']) :=
  rfl

theorem Token.toList_jsonText (t : Token) :
    t.jsonText.toList = objectText [("token_type", t.kind.jsonText.toList),
      ("lexeme", (Text.Quoted.json t.lexeme).toList), ("line", (toString t.line).toList)] := by
  have htype : (Text.Quoted.json "token_type").toList = "\"token_type\"".toList := by cbv
  have hlexeme : (Text.Quoted.json "lexeme").toList = "\"lexeme\"".toList := by cbv
  have hline : (Text.Quoted.json "line").toList = "\"line\"".toList := by cbv
  unfold jsonText
  rw [objectText_three, memberText, memberText, memberText, htype, hlexeme, hline]
  generalize t.kind.jsonText = kind
  generalize Text.Quoted.json t.lexeme = lexeme
  generalize toString t.line = line
  simp

/-- The text of three members is longer than reading it is deep. -/
theorem depth_le_length (kind lexeme line : List Char) :
    7 ≤ (objectText [("token_type", kind), ("lexeme", lexeme), ("line", line)]).length + 1 := by
  simp only [objectText_three, memberText, Text.Quoted.json, String.toList_ofList,
    List.length_cons, List.length_append]
  omega

/-- A token is shown by its kind, its text and its line. -/
theorem shows_token {kind lexeme line : List Char} {kindValue lexemeValue lineValue : Json}
    (hkind : Shows 3 kind kindValue) (hlexeme : Shows 1 lexeme lexemeValue)
    (hline : Shows 1 line lineValue) :
    Shows 7 (objectText [("token_type", kind), ("lexeme", lexeme), ("line", line)])
      (.object [("token_type", kindValue), ("lexeme", lexemeValue), ("line", lineValue)]) := by
  have hmembers : ∀ member ∈ [("token_type", kind, kindValue), ("lexeme", lexeme, lexemeValue),
      ("line", line, lineValue)], Shows 3 member.2.1 member.2.2 := by
    intro member hmember
    simp only [List.mem_cons, List.not_mem_nil, or_false] at hmember
    rcases hmember with rfl | rfl | rfl
    · exact hkind
    · exact hlexeme.deeper (by omega)
    · exact hline.deeper (by omega)
  exact shows_object hmembers (List.cons_ne_nil _ _)

/-- The line of a token has no line end in it, and is read as the token. -/
theorem Token.read?_jsonText {source : String} {t : Token} (ht : t ∈ tokensOf (scan source)) :
    '\n' ∉ t.jsonText.toList ∧ ∃ value, read? t.jsonText.toList = some value ∧ t.ReadAs value := by
  obtain ⟨kind, hkind, hread⟩ := Token.shows_kind ht
  have hshows := shows_token hkind (shows_string t.lexeme) (shows_whole t.line)
  have hlength := depth_le_length t.kind.jsonText.toList (Text.Quoted.json t.lexeme).toList
    (toString t.line).toList
  rw [← t.toList_jsonText] at hshows hlength
  exact ⟨hshows.line, _, hshows.writes.read?_eq hlength, kind, hread, rfl⟩

/-! ## Listings -/

theorem Sink.text_holding (texts : List String) :
    (Sink.holding texts).text = String.join (texts.map (· ++ "\n")) := by
  unfold Sink.holding Sink.text Text.Utf8.decodeCut
  generalize String.join (texts.map (· ++ "\n")) = text
  have hwhole : String.fromUTF8? text.toUTF8 = some text := by
    unfold String.fromUTF8?
    exact dif_pos text.isValidUTF8
  simp only [Nat.sub_zero, ByteArray.extract_zero_size, hwhole]

/-- Lines without line ends are found again where their text is split. -/
theorem splitOn_join {texts : List String} (h : ∀ text ∈ texts, '\n' ∉ text.toList) :
    (String.join (texts.map (· ++ "\n"))).toList.splitOn '\n' =
      texts.map String.toList ++ [[]] := by
  rw [String.toList_join, List.flatMap_map]
  induction texts with
  | nil => rfl
  | cons text texts ih =>
    have hfirst := h text List.mem_cons_self
    have hrest := ih fun other hother => h other (List.mem_cons_of_mem _ hother)
    have hcons : List.flatMap (fun text => (text ++ "\n").toList) (text :: texts) =
        text.toList ++ '\n' :: List.flatMap (fun text => (text ++ "\n").toList) texts := by
      simp
    rw [hcons, List.splitOn_append_cons_self_of_not_mem hfirst, hrest]
    rfl

/-- Listing the tokens of any text in JSON writes one line for each token, in order: split
    at its line ends, the output has exactly these lines, each closed by its line end, and
    each of them is read as its token. -/
theorem Mode.listing_reads_back (limits : Limits) (source : String) :
    ∃ status c, perform limits (.tokenize true) source ⟨.unlimited, .unlimited⟩ = .ok status c ∧
      ∃ lines, c.out.text.toList.splitOn '\n' = lines ++ [[]] ∧
        List.Forall₂ (fun t line => ∃ value, Json.read? line = some value ∧ t.ReadAs value)
          (tokensOf (scan source)) lines := by
  -- Without limits the output holds the lines themselves, so only splitting is left.
  refine ⟨_, _, tokenizeSource_unlimited true source,
    (tokensOf (scan source)).map fun t => t.jsonText.toList, ?_, ?_⟩
  · show (Sink.holding ((tokensOf (scan source)).map Token.jsonText)).text.toList.splitOn '\n' = _
    rw [Sink.text_holding, splitOn_join, List.map_map]
    · rfl
    · intro text htext
      obtain ⟨t, ht, rfl⟩ := List.mem_map.mp htext
      exact (Token.read?_jsonText ht).1
  · rw [List.forall₂_map_right_iff, List.forall₂_same]
    exact fun t ht => (Token.read?_jsonText ht).2

end Lox
