/-
  Lox.Proofs.TreeText.Forms

  Texts in prefix form, apart from what they stand for.

    * `Form`, `Forms` — a word, or a head with parts behind it in parentheses;
    * `IsWord` — a numeral with a point, or characters that do nothing in a form;
    * `Form.Legible` — the words are words, and a head has an end;
    * `Form.text_append_inj` — a legible form can be told from its text.

  A point is a part of a numeral, a head, or what stands before a part.  Which one it
  is depends on the characters before it, so words are read from their first character.
-/
import Lox.Proofs.Number.Literals

namespace Lox

mutual

/-- A word, or a head with parts behind it. -/
inductive Form where
  | word (text : String)
  | branch (head : String) (parts : Forms)

/-- Parts, each with the character before it. -/
inductive Forms where
  | nil
  | cons (gap : Char) (part : Form) (rest : Forms)

end

mutual

/-- A form as it is written. -/
def Form.text : Form → List Char
  | .word text => text.toList
  | .branch head parts => '(' :: (head.toList ++ (parts.text ++ [')']))

/-- Parts as they are written. -/
def Forms.text : Forms → List Char
  | .nil => []
  | .cons gap part rest => gap :: (part.text ++ rest.text)

end

/-! ## Words -/

/-- The characters that end a word. -/
def endsWord (c : Char) : Bool := c = ' ' || c = '(' || c = ')' || c = '.'

/-- A word is a numeral with a point, or is plain and does not begin like one. -/
inductive IsWord : List Char → Prop
  | plain {c cs} : Piece.isDigit c = false → (∀ d ∈ c :: cs, endsWord d = false) → IsWord (c :: cs)
  | numeral {text x} : Number.PointNumeral text x → IsWord text

/-- The end of a text, or a character that ends a word or a numeral. -/
def AtEnd (rest : List Char) : Prop := rest.head?.all endsWord = true

section

variable {r s : List Char}

theorem AtEnd.stop (hr : AtEnd r) {P : Char → Bool} (hP : ∀ c, endsWord c = true → P c = false) :
    r.head?.any P = false := by
  cases r with
  | nil => rfl
  | cons c cs => exact hP c hr

theorem endsWord_cases {c : Char} (h : endsWord c = true) : c = ' ' ∨ c = '(' ∨ c = ')' ∨ c = '.' := by
  simpa [endsWord, or_assoc] using h

theorem not_isDigit_of_endsWord {c : Char} (h : endsWord c = true) : Piece.isDigit c = false := by
  rcases endsWord_cases h with rfl | rfl | rfl | rfl <;> decide

/-- Runs of one class at the start of a text are the same if both end there. -/
theorem run_append_inj {P : Char → Bool} {own other : List Char} (hown : ∀ c ∈ own, P c = true)
    (hother : ∀ c ∈ other, P c = true) (hr : r.head?.any P = false) (hs : s.head?.any P = false)
    (h : own ++ r = other ++ s) : own = other ∧ r = s := by
  obtain ⟨htake, hdrop⟩ := Piece.takeWhile_append_stop own hown hr
  obtain ⟨htake', hdrop'⟩ := Piece.takeWhile_append_stop other hother hs
  rw [h, htake'] at htake
  rw [h, hdrop'] at hdrop
  exact ⟨htake.symm, hdrop.symm⟩

/-- A numeral begins with a digit. -/
theorem Number.PointNumeral.exists_cons {text : List Char} {x : ℚ} (h : PointNumeral text x) :
    ∃ c cs, text = c :: cs ∧ Piece.isDigit c = true := by
  obtain ⟨whole, digits, rfl, ⟨hne, hwhole⟩, -, -⟩ := h
  obtain ⟨c, cs, rfl⟩ := List.exists_cons_of_ne_nil hne
  exact ⟨c, _, rfl, hwhole c List.mem_cons_self⟩

theorem Number.PointNumeral.append_inj {own other : List Char} {x y : ℚ}
    (hown : PointNumeral own x) (hother : PointNumeral other y) (hr : AtEnd r) (hs : AtEnd s)
    (h : own ++ r = other ++ s) : own = other ∧ r = s := by
  obtain ⟨whole, digits, rfl, ⟨-, hwhole⟩, ⟨-, hdigits⟩, -⟩ := hown
  obtain ⟨whole', digits', rfl, ⟨-, hwhole'⟩, ⟨-, hdigits'⟩, -⟩ := hother
  rw [List.append_assoc, List.append_assoc] at h
  obtain ⟨rfl, hbehind⟩ := run_append_inj (P := Piece.isDigit) hwhole hwhole' rfl rfl h
  obtain ⟨rfl, hrest⟩ := run_append_inj (P := Piece.isDigit) hdigits hdigits'
    (hr.stop fun _ => not_isDigit_of_endsWord) (hs.stop fun _ => not_isDigit_of_endsWord)
    (List.cons.inj hbehind).2
  exact ⟨rfl, hrest⟩

/-- A word can be told from what comes behind it. -/
theorem IsWord.append_inj {own other : List Char} (hown : IsWord own) (hother : IsWord other)
    (hr : AtEnd r) (hs : AtEnd s) (h : own ++ r = other ++ s) : own = other ∧ r = s := by
  -- The first character tells which kind of word it is.
  have hkind {c : Char} {cs text rest rest' : List Char} {x : ℚ} (hc : Piece.isDigit c = false)
      (hnumeral : Number.PointNumeral text x) (h : c :: cs ++ rest = text ++ rest') : False := by
    obtain ⟨d, ds, rfl, hd⟩ := hnumeral.exists_cons
    obtain ⟨rfl, -⟩ := List.cons.inj h
    rw [hc] at hd
    cases hd
  cases hown with
  | plain hc hplain =>
    cases hother with
    | plain hc' hplain' =>
      refine run_append_inj (P := fun d => !endsWord d) (fun d hd => ?_) (fun d hd => ?_)
        (hr.stop fun d hd => ?_) (hs.stop fun d hd => ?_) h
      · rw [hplain d hd, Bool.not_false]
      · rw [hplain' d hd, Bool.not_false]
      · rw [hd, Bool.not_true]
      · rw [hd, Bool.not_true]
    | numeral hother => exact (hkind hc hother h).elim
  | numeral hown =>
    cases hother with
    | plain hc' hplain' => exact (hkind hc' hown h.symm).elim
    | numeral hother => exact hown.append_inj hother hr hs h

/-- No word begins with a parenthesis. -/
theorem IsWord.ne_paren {text : List Char} (h : IsWord text) {more : List Char}
    (heq : text ++ r = '(' :: more) : False := by
  cases h with
  | plain hc hplain =>
    obtain ⟨rfl, -⟩ := List.cons.inj heq
    exact absurd (hplain '(' List.mem_cons_self) (by decide)
  | numeral hnumeral =>
    obtain ⟨c, cs, rfl, hc⟩ := hnumeral.exists_cons
    obtain ⟨rfl, -⟩ := List.cons.inj heq
    exact absurd hc (by decide)

end

/-! ## Forms -/

/-- The characters that can stand in a head. -/
def inHead (c : Char) : Bool := c ≠ ' ' && c ≠ ')'

/-- Parts that are not there, or that have a blank before the first one. -/
def Forms.Apart : Forms → Prop
  | .nil => True
  | .cons gap _ _ => gap = ' '

mutual

/-- Words are words, heads end before the first part, and blanks or points stand before
    the parts. -/
def Form.Legible : Form → Prop
  | .word text => IsWord text.toList
  | .branch head parts => head.toList.all inHead = true ∧ parts.Apart ∧ parts.Legible

def Forms.Legible : Forms → Prop
  | .nil => True
  | .cons gap part rest => (gap = ' ' ∨ gap = '.') ∧ part.Legible ∧ rest.Legible

end

/-- A head ends before the parts. -/
theorem Forms.Apart.stop {parts : Forms} (h : parts.Apart) (r : List Char) :
    (parts.text ++ ')' :: r).head?.any inHead = false := by
  cases parts with
  | nil => exact (by decide : inHead ')' = false)
  | cons gap part rest =>
    cases h
    exact (by decide : inHead ' ' = false)

/-- A part ends before the next one, or before the closing parenthesis. -/
theorem Forms.Legible.atEnd {parts : Forms} (h : parts.Legible) (r : List Char) :
    AtEnd (parts.text ++ ')' :: r) := by
  cases parts with
  | nil => exact (by decide : endsWord ')' = true)
  | cons gap part rest =>
    rcases h.1 with rfl | rfl
    · exact (by decide : endsWord ' ' = true)
    · exact (by decide : endsWord '.' = true)

theorem Form.text_branch_append (head : String) (parts : Forms) (r : List Char) :
    (branch head parts).text ++ r = '(' :: (head.toList ++ (parts.text ++ ')' :: r)) := by
  simp [Form.text]

/-- No part begins like the end of a list of them. -/
theorem Forms.Legible.gap_ne {gap : Char} {part : Form} {rest : Forms}
    (h : (cons gap part rest).Legible) : gap ≠ ')' := by
  rcases h.1 with rfl | rfl <;> decide

mutual

/-- A legible form can be told from its text, also at the start of a longer one. -/
theorem Form.text_append_inj {f g : Form} (hf : f.Legible) (hg : g.Legible) {r s : List Char}
    (hr : AtEnd r) (hs : AtEnd s) (h : f.text ++ r = g.text ++ s) : f = g ∧ r = s := by
  match f, g with
  | .word text, .word other =>
    obtain ⟨htext, hrest⟩ := IsWord.append_inj hf hg hr hs h
    exact ⟨congrArg Form.word (String.toList_injective htext), hrest⟩
  | .word text, .branch head parts =>
    exact (IsWord.ne_paren hf (h.trans (Form.text_branch_append head parts s))).elim
  | .branch head parts, .word text =>
    exact (IsWord.ne_paren hg (h.symm.trans (Form.text_branch_append head parts r))).elim
  | .branch head parts, .branch head' parts' =>
    rw [Form.text_branch_append, Form.text_branch_append] at h
    obtain ⟨hhead, hparts⟩ := run_append_inj (List.all_eq_true.mp hf.1) (List.all_eq_true.mp hg.1)
      (hf.2.1.stop r) (hg.2.1.stop s) (List.cons.inj h).2
    obtain ⟨rfl, hrest⟩ := Forms.text_append_inj hf.2.2 hg.2.2 hparts
    exact ⟨congrArg (Form.branch · parts) (String.toList_injective hhead), hrest⟩

/-- Parts end at the closing parenthesis behind them. -/
theorem Forms.text_append_inj {fs gs : Forms} (hfs : fs.Legible) (hgs : gs.Legible)
    {r s : List Char} (h : fs.text ++ ')' :: r = gs.text ++ ')' :: s) : fs = gs ∧ r = s := by
  match fs, gs with
  | .nil, .nil => exact ⟨rfl, (List.cons.inj h).2⟩
  | .nil, .cons gap part rest => exact absurd (List.cons.inj h).1.symm hgs.gap_ne
  | .cons gap part rest, .nil => exact absurd (List.cons.inj h).1 hfs.gap_ne
  | .cons gap part rest, .cons gap' part' rest' =>
    rw [Forms.text, Forms.text, List.cons_append, List.cons_append, List.append_assoc,
      List.append_assoc] at h
    obtain ⟨rfl, hparts⟩ := List.cons.inj h
    obtain ⟨rfl, hbehind⟩ := Form.text_append_inj hfs.2.1 hgs.2.1 (hfs.2.2.atEnd r)
      (hgs.2.2.atEnd s) hparts
    obtain ⟨rfl, hrest⟩ := Forms.text_append_inj hfs.2.2 hgs.2.2 hbehind
    exact ⟨rfl, hrest⟩

end

/-- Different legible forms have different texts. -/
theorem Form.text_inj {f g : Form} (hf : f.Legible) (hg : g.Legible) (h : f.text = g.text) :
    f = g := by
  have hend : AtEnd [] := rfl
  refine (Form.text_append_inj hf hg hend hend ?_).1
  rw [h]

end Lox
