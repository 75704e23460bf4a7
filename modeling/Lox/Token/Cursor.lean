/-
  Lox.Token.Cursor

  Scanning byte by byte.  A `Cursor` keeps places in the bytes of a source text, and looks at
  them through few operations, each of which says when it must not be used.

    * `Slip` — what must not happen: a byte behind the end is read, a part is taken that the
      text does not have, or a text is no number;
    * `Cursor.byte`, `Cursor.slice` — a byte, and a part of the text;
    * `Cursor.scanToken` — one token, blank or comment;
    * `Cursor.turn`, `Cursor.next` — once around the main loop, and up to the next item.

  `turn_lt` says that a turn moves on, so there are not infinitely many of them.
-/
import Lox.Token.Piece
import Lox.Number.Numeral

namespace Lox

/-- What a scanner must not do. -/
inductive Slip where
  /-- Reading a byte behind the end of the text. -/
  | byte (index : Nat)
  /-- Taking a part that ends before it begins or behind the text, or cuts a character. -/
  | slice (first last : Nat)
  /-- Taking the value of a text that is no number. -/
  | numeral (text : String)
  /-- Taking the first character of nothing. -/
  | character (index : Nat)

/-- A place in a source text, in bytes. -/
structure Cursor where
  /-- Where the current lexeme begins. -/
  start : Nat
  /-- Behind the last byte that was looked at. -/
  curr : Nat
  line : Nat
  /-- What the current lexeme is, when it is a token. -/
  pending : Option TokenKind

namespace Cursor

/-- The start of a source text. -/
def initial : Cursor := ⟨0, 0, 1, none⟩

/-- A step of a scanner. -/
abbrev Scan := EStateM Slip Cursor

theorem bind_ok {α β : Type} {p : Scan α} {f : α → Scan β} {b : β} {c c' : Cursor}
    (h : (p >>= f) c = .ok b c') : ∃ a c'', p c = .ok a c'' ∧ f a c'' = .ok b c' := by
  change EStateM.bind p f c = _ at h
  cases hp : p c with
  | ok a c'' =>
    rw [EStateM.bind, hp] at h
    exact ⟨a, c'', rfl, h⟩
  | error slip c'' =>
    rw [EStateM.bind, hp] at h
    cases h

theorem bind_of_error {α β : Type} {p : Scan α} {f : α → Scan β} {slip : Slip} {c c' : Cursor}
    (h : p c = .error slip c') : (p >>= f) c = .error slip c' := by
  show EStateM.bind p f c = _
  rw [EStateM.bind, h]

theorem bind_of_ok {α β : Type} {p : Scan α} {f : α → Scan β} {a : α} {c c' : Cursor}
    (h : p c = .ok a c') : (p >>= f) c = f a c' := by
  show EStateM.bind p f c = _
  rw [EStateM.bind, h]

/-- The bytes of a text. -/
def bytes (text : String) : List UInt8 := text.toByteArray.data.toList

theorem get_bind {β : Type} (f : Cursor → Scan β) (c : Cursor) :
    ((get : Scan Cursor) >>= f) c = f c c := rfl

section

variable (source : String)

/-! ## Looking at the text -/

/-- The byte at a place. -/
def byte (index : Nat) : Scan UInt8 :=
  match (bytes source)[index]? with
  | some b => pure b
  | none => throw (.byte index)

/-- The part between two places. -/
def slice (first last : Nat) : Scan String :=
  if first ≤ last ∧ String.Pos.Raw.IsValid source ⟨first⟩ ∧
      String.Pos.Raw.IsValid source ⟨last⟩ then
    match String.fromUTF8? (source.toByteArray.extract first last) with
    | some part => pure part
    | none => throw (.slice first last)
  else throw (.slice first last)

/-- Whether all of the text was looked at. -/
def atEnd : Scan Bool := do
  return decide (source.utf8ByteSize ≤ (← get).curr)

/-- The next byte, which counts as looked at. -/
def advance : Scan UInt8 := do
  let b ← byte source (← get).curr
  modify fun c => { c with curr := c.curr + 1 }
  return b

/-- The next byte, zero at the end. -/
def peek : Scan UInt8 := do
  if ← atEnd source then return 0
  byte source (← get).curr

/-- The byte after the next one, zero where there is none. -/
def peekNext : Scan UInt8 := do
  let c ← get
  if source.utf8ByteSize ≤ c.curr + 1 then return 0
  byte source (c.curr + 1)

/-- Moves over an expected character. -/
def matchByte (expected : Char) : Scan Bool := do
  if ← atEnd source then return false
  if Char.ofUInt8 (← peek source) = expected then
    let _ ← advance source
    return true
  else return false

/-- The current lexeme is a token. -/
def pend (kind : TokenKind) : Scan Unit := modify fun c => { c with pending := some kind }

/-! ## Steps that end -/

variable {source}

theorem byte_eq (index : Nat) (c : Cursor) :
    byte source index c = match (bytes source)[index]? with
      | some b => .ok b c
      | none => .error (.byte index) c := by
  unfold byte
  cases (bytes source)[index]? <;> rfl

theorem advance_eq (c : Cursor) :
    advance source c = match (bytes source)[c.curr]? with
      | some b => .ok b { c with curr := c.curr + 1 }
      | none => .error (.byte c.curr) c := by
  unfold advance
  rw [get_bind]
  have hbyte := @byte_eq source c.curr c
  cases hb : (bytes source)[c.curr]? with
  | none =>
    rw [hb] at hbyte
    exact bind_of_error hbyte
  | some b =>
    rw [hb] at hbyte
    exact bind_of_ok hbyte

theorem peek_eq (c : Cursor) :
    peek source c = if source.utf8ByteSize ≤ c.curr then .ok 0 c else byte source c.curr c := by
  have hend : atEnd source c = .ok (decide (source.utf8ByteSize ≤ c.curr)) c := rfl
  unfold peek
  rw [bind_of_ok hend]
  by_cases h : source.utf8ByteSize ≤ c.curr
  · rw [if_pos h, if_pos (decide_eq_true h)]
    rfl
  · rw [if_neg h, if_neg (by simpa using h)]
    rfl

/-- A byte that is looked at is not the last one. -/
theorem lt_of_advance {b : UInt8} {c c' : Cursor} (h : advance source c = .ok b c') :
    (bytes source).length - c'.curr < (bytes source).length - c.curr := by
  rw [advance_eq] at h
  cases hb : (bytes source)[c.curr]? with
  | none => simp [hb] at h
  | some b' =>
    rw [hb] at h
    cases h
    have hlt := (List.getElem?_eq_some_iff.mp hb).1
    dsimp only
    omega

variable (source)

/-- Moves over bytes of a class. -/
def advanceWhile (P : Char → Bool) : Scan Unit := fun c =>
  match peek source c with
  | .error slip c => .error slip c
  | .ok b _ =>
    if P (Char.ofUInt8 b) then
      match _moved : advance source c with
      | .error slip c => .error slip c
      | .ok _ c => advanceWhile P c
    else .ok () c
termination_by c => (bytes source).length - c.curr
decreasing_by exact lt_of_advance _moved

/-- Moves up to a quote or to the end, and counts lines. -/
def toQuote : Scan Unit := fun c =>
  if source.utf8ByteSize ≤ c.curr then .ok () c
  else
    match peek source c with
    | .error slip c => .error slip c
    | .ok b _ =>
      if Char.ofUInt8 b ≠ '"' then
        match _moved : advance source c with
        | .error slip c => .error slip c
        | .ok b c => toQuote (if Char.ofUInt8 b = '\n' then { c with line := c.line + 1 } else c)
      else .ok () c
termination_by c => (bytes source).length - c.curr
decreasing_by
  have hlt := lt_of_advance _moved
  split <;> exact hlt

/-- Moves up to the end of the line. -/
def toLineEnd : Scan Unit := do
  let c ← get
  let rest ← slice source c.curr source.utf8ByteSize
  match (bytes rest).findIdx? (Char.ofUInt8 · = '\n') with
  | some length => set { c with curr := c.curr + length }
  | none => set { c with curr := source.utf8ByteSize }

/-! ## Tokens -/

/-- What follows an opening quote. -/
def scanString : Scan (Option Diagnostic) := do
  toQuote source
  if ← atEnd source then
    return some (.lexical (← get).line .unterminatedString)
  let _ ← advance source
  let c ← get
  pend (.string (← slice source (c.start + 1) (c.curr - 1)))
  return none

/-- A point with a digit behind it, and all further digits. -/
def scanFraction : Scan Unit := do
  if Char.ofUInt8 (← peek source) = '.' then
    if Piece.isDigit (Char.ofUInt8 (← peekNext source)) then
      let _ ← advance source
      advanceWhile source Piece.isDigit

/-- The current lexeme as a number. -/
def takeNumber : Scan Unit := do
  let c ← get
  let text ← slice source c.start c.curr
  match Number.Numeral.value? text with
  | some value => pend (.number value)
  | none => throw (.numeral text)

/-- What follows the first digit of a number. -/
def scanNumber : Scan Unit := do
  advanceWhile source Piece.isDigit
  scanFraction source
  takeNumber source

/-- What follows the first character of a word. -/
def scanWord : Scan Unit := do
  advanceWhile source Piece.isNamePart
  let c ← get
  pend (Piece.wordKind (← slice source c.start c.curr))

/-- A character that begins no token, all of its bytes. -/
def scanUnexpected : Scan (Option Diagnostic) := do
  let c ← get
  let rest ← slice source c.start source.utf8ByteSize
  match rest.toList.head? with
  | some found =>
    set { c with curr := c.start + found.utf8Size }
    return some (.lexical c.line (.unexpectedCharacter found))
  | none => throw (.character c.start)

/-- A symbol, with `=` after it when the two together are a symbol. -/
def scanSymbol (symbol : Symbol) : Scan Unit := do
  match symbol.withEqual? with
  | none => pend (.symbol symbol)
  | some both => pend (.symbol (if ← matchByte source '=' then both else symbol))

/-- What begins with a byte, behind it. -/
def scanFrom (first : Char) : Scan (Option Diagnostic) := do
  if first = '\n' then
    modify fun c => { c with line := c.line + 1 }
    return none
  if Piece.isBlank first then
    return none
  if first = '"' then
    scanString source
  else if first = '/' then
    if ← matchByte source '/' then toLineEnd source else pend (.symbol .slash)
    return none
  else if Piece.isDigit first then
    scanNumber source
    return none
  else if Piece.isNameStart first then
    scanWord source
    return none
  else match Symbol.ofChar? first with
    | some symbol =>
      scanSymbol source symbol
      return none
    | none => scanUnexpected source

/-- One token, blank character or comment, or a fault. -/
def scanToken : Scan (Option Diagnostic) := do
  scanFrom source (Char.ofUInt8 (← advance source))

/-! ## The main loop -/

/-- The current lexeme as a token, when it is one. -/
def takePending : Scan (Option Item) := do
  let c ← get
  match c.pending with
  | none => return none
  | some kind =>
    set { c with pending := none }
    return some (.ok ⟨kind, ← slice source c.start c.curr, c.line⟩)

/-- Once around the main loop: the end mark, or one token, blank or fault. -/
def turn : Scan (Option Item) := do
  let c ← get
  if c.curr = source.utf8ByteSize then
    set { c with curr := c.curr + 1 }
    return some (.ok (Token.endMark c.line))
  else
    set { c with start := c.curr, pending := none }
    match ← scanToken source with
    | some fault => return some (.error fault)
    | none => takePending source

/-! ## A turn moves on -/

variable {source} {α β : Type} {c c' : Cursor}

/-- What a step leaves as it was: where the lexeme begins, and that it is not empty. -/
def Extends (c c' : Cursor) : Prop :=
  c'.start = c.start ∧ (c.start < c.curr → c.start < c'.curr)

theorem Extends.refl (c : Cursor) : Extends c c := ⟨rfl, id⟩

theorem Extends.trans {c c' c'' : Cursor} (h : Extends c c') (h' : Extends c' c'') :
    Extends c c'' :=
  ⟨h'.1.trans h.1, fun hlt => h.1 ▸ h'.2 (h.1 ▸ h.2 hlt)⟩

theorem Extends.of_le {c c' : Cursor} (hstart : c'.start = c.start) (hle : c.curr ≤ c'.curr) :
    Extends c c' :=
  ⟨hstart, fun hlt => Nat.lt_of_lt_of_le hlt hle⟩

/-- A step that has an answer at a place stays in the lexeme there. -/
def Stays (p : Scan α) (c : Cursor) : Prop := ∀ a c', p c = .ok a c' → Extends c c'

namespace Stays

theorem bind {p : Scan α} {f : α → Scan β} (hp : Stays p c)
    (hf : ∀ a c', p c = .ok a c' → Stays (f a) c') : Stays (p >>= f) c := by
  intro b c' h
  obtain ⟨a, c'', hfirst, hsecond⟩ := bind_ok h
  exact (hp a c'' hfirst).trans (hf a c'' hfirst b c' hsecond)

/-- A step that looks at the text only. -/
theorem of_same {p : Scan α} (h : ∀ a c', p c = .ok a c' → c' = c) : Stays p c :=
  fun a c' hrun => h a c' hrun ▸ .refl c

theorem pure (a : α) : Stays (pure a) c := fun _ _ h => by
  cases h
  exact .refl c

theorem throw (slip : Slip) : Stays (throw slip : Scan α) c := nofun

theorem get_bind {f : Cursor → Scan β} (h : Stays (f c) c) : Stays (get >>= f) c := h

theorem modify {f : Cursor → Cursor} (h : Extends c (f c)) : Stays (modify f) c :=
  fun _ _ hrun => by
    cases hrun
    exact h

theorem pend (kind : TokenKind) : Stays (pend kind) c := modify ⟨rfl, id⟩

end Stays

theorem byte_ok {index : Nat} {b : UInt8} (h : byte source index c = .ok b c') : c' = c := by
  rw [byte_eq] at h
  cases hb : (bytes source)[index]? with
  | none => simp [hb] at h
  | some b' =>
    rw [hb] at h
    cases h
    rfl

theorem peek_ok {b : UInt8} (h : peek source c = .ok b c') : c' = c := by
  rw [peek_eq] at h
  split at h
  · cases h
    rfl
  · exact byte_ok h

theorem slice_ok {first last : Nat} {text : String}
    (h : slice source first last c = .ok text c') : first ≤ last ∧ c' = c := by
  unfold slice at h
  split at h
  · next hwithin =>
    refine ⟨hwithin.1, ?_⟩
    cases hpart : String.fromUTF8? (source.toByteArray.extract first last) with
    | none =>
      rw [hpart] at h
      cases h
    | some part =>
      rw [hpart] at h
      cases h
      rfl
  · cases h

theorem stays_slice {first last : Nat} : Stays (slice source first last) c :=
  .of_same fun _ _ h => (slice_ok h).2

theorem advance_ok {b : UInt8} (h : advance source c = .ok b c') :
    c' = { c with curr := c.curr + 1 } := by
  rw [advance_eq] at h
  cases hb : (bytes source)[c.curr]? with
  | none => simp [hb] at h
  | some b' =>
    rw [hb] at h
    cases h
    rfl

theorem atEnd_ok {b : Bool} (h : atEnd source c = .ok b c') : c' = c := by
  cases h
  rfl

theorem stays_advance : Stays (advance source) c := fun _ _ h => by
  rw [advance_ok h]
  exact .of_le rfl (Nat.le_succ _)

theorem stays_peekNext : Stays (peekNext source) c := by
  refine .get_bind ?_
  split
  · exact .pure _
  · exact .of_same fun _ _ => byte_ok

theorem stays_matchByte (expected : Char) : Stays (matchByte source expected) c := by
  refine .bind (.of_same fun _ _ => atEnd_ok) fun done _ _ => ?_
  cases done with
  | true => exact .pure _
  | false =>
    refine .bind (.of_same fun _ _ => peek_ok) fun b _ _ => ?_
    split
    · exact stays_advance.bind fun _ _ _ => .pure _
    · exact .pure _

theorem stays_advanceWhile (P : Char → Bool) (c : Cursor) : Stays (advanceWhile source P) c := by
  intro u c' h
  fun_induction advanceWhile source P c with
  | case1 => cases h
  | case2 => cases h
  | case3 c b c'' hpeek hP b' c₁ hmoved ih => exact (stays_advance _ _ hmoved).trans (ih h)
  | case4 =>
    cases h
    exact .refl _

theorem stays_toQuote (c : Cursor) : Stays (toQuote source) c := by
  intro u c' h
  fun_induction toQuote source c with
  | case1 =>
    cases h
    exact .refl _
  | case2 => cases h
  | case3 => cases h
  | case4 c hlt b c'' hpeek hne b' c₁ hmoved ih =>
    refine (stays_advance _ _ hmoved).trans (.trans ?_ (ih h))
    split <;> exact ⟨rfl, id⟩
  | case5 =>
    cases h
    exact .refl _

theorem stays_toLineEnd : Stays (toLineEnd source) c := by
  refine .get_bind (.bind stays_slice fun rest c' hrest => ?_)
  obtain ⟨hle, rfl⟩ := slice_ok hrest
  split
  · exact .modify (.of_le rfl (Nat.le_add_right _ _))
  · exact .modify (.of_le rfl hle)

theorem stays_scanString : Stays (scanString source) c := by
  refine (stays_toQuote c).bind fun _ _ _ => ?_
  refine .bind (.of_same fun _ _ => atEnd_ok) fun done _ _ => ?_
  cases done with
  | true => exact .get_bind (.pure _)
  | false =>
    refine stays_advance.bind fun _ _ _ => .get_bind ?_
    exact stays_slice.bind fun _ _ _ => (Stays.pend _).bind fun _ _ _ => .pure _

theorem stays_scanFraction : Stays (scanFraction source) c := by
  refine .bind (.of_same fun _ _ => peek_ok) fun b _ _ => ?_
  split
  · refine stays_peekNext.bind fun b' _ _ => ?_
    split
    · exact stays_advance.bind fun _ _ _ => stays_advanceWhile _ _
    · exact .pure _
  · exact .pure _

theorem stays_takeNumber : Stays (takeNumber source) c := by
  refine .get_bind (stays_slice.bind fun text _ _ => ?_)
  split
  · exact .pend _
  · exact .throw _

theorem stays_scanNumber : Stays (scanNumber source) c :=
  (stays_advanceWhile _ c).bind fun _ _ _ => stays_scanFraction.bind fun _ _ _ => stays_takeNumber

theorem stays_scanWord : Stays (scanWord source) c :=
  (stays_advanceWhile _ c).bind fun _ _ _ => .get_bind (stays_slice.bind fun _ _ _ => .pend _)

theorem stays_scanUnexpected : Stays (scanUnexpected source) c := by
  refine .get_bind (stays_slice.bind fun rest c' hrest => ?_)
  obtain ⟨-, rfl⟩ := slice_ok hrest
  split
  · next found _ =>
    refine Stays.bind (.modify ⟨rfl, fun _ => ?_⟩) fun _ _ _ => .pure _
    exact Nat.lt_add_of_pos_right found.utf8Size_pos
  · exact .throw _

theorem stays_scanSymbol (symbol : Symbol) : Stays (scanSymbol source symbol) c := by
  unfold scanSymbol
  split
  · exact .pend _
  · exact (stays_matchByte _).bind fun _ _ _ => .pend _

theorem stays_scanFrom (first : Char) : Stays (scanFrom source first) c := by
  unfold scanFrom
  split
  · exact Stays.bind (.modify ⟨rfl, id⟩) fun _ _ _ => .pure _
  split
  · exact .pure _
  split
  · exact stays_scanString
  split
  · refine (stays_matchByte _).bind fun comment _ _ => ?_
    cases comment with
    | true => exact stays_toLineEnd.bind fun _ _ _ => .pure _
    | false => exact (Stays.pend _).bind fun _ _ _ => .pure _
  split
  · exact stays_scanNumber.bind fun _ _ _ => .pure _
  split
  · exact stays_scanWord.bind fun _ _ _ => .pure _
  split
  · exact (stays_scanSymbol _).bind fun _ _ _ => .pure _
  · exact stays_scanUnexpected

/-- Where a lexeme begins, scanning moves on. -/
theorem scanToken_ok {found : Option Diagnostic} (h : scanToken source c = .ok found c')
    (hstart : c.start = c.curr) : c'.start = c.start ∧ c.start < c'.curr := by
  obtain ⟨b, _, hadvance, h⟩ := bind_ok h
  cases advance_ok hadvance
  obtain ⟨hsame, hlt⟩ := stays_scanFrom _ _ _ h
  exact ⟨hsame, hlt (hstart ▸ Nat.lt_succ_self _)⟩

theorem stays_takePending : Stays (takePending source) c := by
  refine .get_bind ?_
  split
  · exact .pure _
  · exact Stays.bind (.modify ⟨rfl, id⟩) fun _ _ _ => stays_slice.bind fun _ _ _ => .pure _

theorem turn_eq (c : Cursor) :
    turn source c =
      if c.curr = source.utf8ByteSize then
        .ok (some (.ok (Token.endMark c.line))) { c with curr := c.curr + 1 }
      else (do
        match ← scanToken source with
        | some fault => return some (.error fault)
        | none => takePending source : Scan _) { c with start := c.curr, pending := none } := by
  unfold turn
  rw [get_bind]
  split <;> rfl

theorem turn_lt {found : Option Item} (h : turn source c = .ok found c') : c.curr < c'.curr := by
  rw [turn_eq] at h
  split at h
  · cases h
    exact Nat.lt_succ_self _
  · obtain ⟨fault, c₁, hscan, h⟩ := bind_ok h
    obtain ⟨hstart, hlt⟩ := scanToken_ok hscan rfl
    cases fault with
    | some fault =>
      cases h
      exact hlt
    | none =>
      have htaken := (stays_takePending _ _ h).2
      rw [hstart] at htaken
      exact htaken hlt

variable (source)

/-- The next item, or nothing behind the end mark. -/
def next : Scan (Option Item) := fun c =>
  if c.curr ≤ source.utf8ByteSize then
    match _turned : turn source c with
    | .error slip c => .error slip c
    | .ok (some item) c => .ok (some item) c
    | .ok none c => next c
  else .ok none c
termination_by c => source.utf8ByteSize + 1 - c.curr
decreasing_by
  have hlt := turn_lt _turned
  omega

/-- The answers to a number of calls, one after another. -/
def calls : Nat → Scan (List (Option Item))
  | 0 => pure []
  | n + 1 => do
    let found ← next source
    return found :: (← calls n)

end

end Cursor
end Lox
