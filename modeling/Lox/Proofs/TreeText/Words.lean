/-
  Lox.Proofs.TreeText.Words

  The words of trees.

    * `Expr.Worded`, `Stmt.Worded` — names are names, operators are spelled as such, and
      constants are no strings and no infinities;
    * `Literal.Worded.spells` — such a constant is written as the scanner knows it;
    * `Expr.legible_form`, `Stmt.legible_form` — the form of such a tree is legible.
-/
import Lox.Proofs.Grammar.Rules
import Lox.Proofs.Number.Notations
import Lox.Proofs.TreeText.Trees

namespace Lox

/-! ## Spellings -/

/-- The word of a logical operator. -/
def LogicalOp.keyword : LogicalOp → Keyword
  | and => .andWord
  | or => .orWord

/-- The text is that of a name. -/
def Lexeme.Named (name : Lexeme) : Prop := TokenKind.identifier.Spells name.text.toList

/-- A symbol has one spelling. -/
theorem TokenKind.Spells.text_symbol {s : Symbol} {text : String}
    (h : (TokenKind.symbol s).Spells text.toList) : text = s.text := by
  generalize htext : text.toList = chars at h
  cases h
  exact String.toList_injective htext

/-- A constant that is no string, and no infinity. -/
inductive Literal.Worded : Literal → Prop
  | number {bits} : bits < Number.infinityBits → Worded (.number (Number.ofPattern bits))
  | bool (value : Bool) : Worded (.bool value)
  | nil : Worded .nil

mutual

/-- All names, operators and constants of an expression are written as such. -/
def Expr.Worded : Expr → Prop
  | .literal value => value.Worded
  | .grouping inner => inner.Worded
  | .unary op sign operand => InFront op ∧ op.Spells sign.text.toList ∧ operand.Worded
  | .binary op sign left right =>
    (∃ rule, InBetween rule op) ∧ op.Spells sign.text.toList ∧ left.Worded ∧ right.Worded
  | .logical op sign left right => sign.text = op.keyword.text ∧ left.Worded ∧ right.Worded
  | .name use => use.name.Named
  | .assign target value => target.name.Named ∧ value.Worded
  | .call callee _ arguments => callee.Worded ∧ Expr.ListWorded arguments
  | .get object property => object.Worded ∧ property.Named
  | .set object property value => object.Worded ∧ property.Named ∧ value.Worded
  | .this _ => True
  | .super _ method => method.Named

def Expr.ListWorded : List Expr → Prop
  | [] => True
  | e :: es => e.Worded ∧ Expr.ListWorded es

end

def Expr.OptionWorded : Option Expr → Prop
  | none => True
  | some e => e.Worded

mutual

/-- All names, operators and constants of a statement are written as such. -/
def Stmt.Worded : Stmt → Prop
  | .expression value => value.Worded
  | .print value => value.Worded
  | .var name initializer => name.Named ∧ Expr.OptionWorded initializer
  | .block body => Stmt.ListWorded body
  | .ifElse condition yes none => condition.Worded ∧ yes.Worded
  | .ifElse condition yes (some no) => condition.Worded ∧ yes.Worded ∧ no.Worded
  | .while condition body => condition.Worded ∧ body.Worded
  | .break _ => True
  | .function decl => decl.Worded
  | .return _ value => Expr.OptionWorded value
  | .class name superclass methods =>
    name.Named ∧ (∀ use, superclass = some use → use.name.Named) ∧ FunctionDecl.ListWorded methods

def Stmt.ListWorded : List Stmt → Prop
  | [] => True
  | s :: ss => s.Worded ∧ Stmt.ListWorded ss

def FunctionDecl.Worded : FunctionDecl → Prop
  | ⟨name, parameters, body⟩ => name.Named ∧ (∀ p ∈ parameters, p.Named) ∧ Stmt.ListWorded body

def FunctionDecl.ListWorded : List FunctionDecl → Prop
  | [] => True
  | d :: ds => d.Worded ∧ FunctionDecl.ListWorded ds

end

/-! ## Words -/

theorem endsWord_of_isNamePart {c : Char} (h : Piece.isNamePart c = true) : endsWord c = false := by
  rw [Bool.eq_false_iff]
  intro hend
  rcases endsWord_cases hend with rfl | rfl | rfl | rfl <;> exact absurd h (by decide)

theorem inHead_of_not_endsWord {c : Char} (h : endsWord c = false) : inHead c = true := by
  simp only [endsWord, Bool.or_eq_false_iff, decide_eq_false_iff_not] at h
  simp [inHead, h.1.1.1, h.1.2]

/-- Letters, digits and underscores are a word if they do not begin with a digit. -/
theorem isWord_of_isNamePart {c : Char} {cs : List Char} (hc : Piece.isNameStart c = true)
    (hcs : ∀ d ∈ cs, Piece.isNamePart d = true) : IsWord (c :: cs) := by
  refine .plain (Piece.not_isDigit_of_isNameStart hc) (List.forall_mem_cons.mpr ⟨?_, fun d hd => ?_⟩)
  · exact endsWord_of_isNamePart (Piece.isNamePart_of_isNameStart hc)
  · exact endsWord_of_isNamePart (hcs d hd)

theorem Keyword.isWord_text (k : Keyword) : IsWord k.text.toList := by
  obtain ⟨c, cs, htext, hc, hcs⟩ := k.text_cases
  rw [htext]
  exact isWord_of_isNamePart hc hcs

namespace Lexeme

variable {name : Lexeme}

theorem Named.chars (h : name.Named) : ∃ c cs, name.text.toList = c :: cs ∧
    Piece.isNameStart c = true ∧ ∀ d ∈ cs, Piece.isNamePart d = true := by
  unfold Named at h
  generalize name.text.toList = text at h
  cases h with
  | @name c cs hstart hparts _ =>
    refine ⟨c, cs, rfl, Piece.isNameStart_iff.mpr hstart, fun d hd => ?_⟩
    exact Piece.isNamePart_iff.mpr (hparts d hd)

theorem Named.isWord (h : name.Named) : IsWord name.text.toList := by
  obtain ⟨c, cs, htext, hc, hcs⟩ := h.chars
  rw [htext]
  exact isWord_of_isNamePart hc hcs

/-- A name can be a head. -/
theorem Named.inHead (h : name.Named) : name.text.toList.all inHead = true := by
  obtain ⟨c, cs, htext, hc, hcs⟩ := h.chars
  rw [htext, List.all_eq_true]
  refine List.forall_mem_cons.mpr ⟨?_, fun d hd => ?_⟩
  · exact inHead_of_not_endsWord (endsWord_of_isNamePart (Piece.isNamePart_of_isNameStart hc))
  · exact inHead_of_not_endsWord (endsWord_of_isNamePart (hcs d hd))

end Lexeme

/-- A number in a tree is written as a numeral with a point that is read as the number. -/
theorem Number.pointNumeral_treeText {bits : Nat} (h : bits < infinityBits) :
    ∃ x, PointNumeral (treeText (ofPattern bits)).toList x ∧ Nearest (x * one) bits := by
  have hbits : (ofPattern bits).toBits ≠ 0x8000000000000000 := by
    intro hzero
    have hnat := congrArg UInt64.toNat hzero
    rw [toNat_toBits h.le] at hnat
    have hlarge : bits = 9223372036854775808 := hnat
    unfold infinityBits binade at h
    omega
  rw [← (notations_agree hbits).1]
  exact pointNumeral_literalText h

/-- What the scanner finds in the text of a constant. -/
def Literal.kind : Literal → TokenKind
  | number value => .number value
  | string content => .string content
  | bool value => .keyword (if value then .trueWord else .falseWord)
  | nil => .keyword .nilWord

theorem Literal.Worded.spells {value : Literal} (h : value.Worded) :
    IsWord value.treeText.toList ∧ value.kind.Spells value.treeText.toList := by
  cases h with
  | number hbits =>
    obtain ⟨x, hpoint, hnearest⟩ := Number.pointNumeral_treeText hbits
    exact ⟨.numeral hpoint, hpoint.spells hnearest⟩
  | bool b =>
    cases b with
    | false => exact ⟨Keyword.isWord_text .falseWord, .keyword .falseWord⟩
    | true => exact ⟨Keyword.isWord_text .trueWord, .keyword .trueWord⟩
  | nil => exact ⟨Keyword.isWord_text .nilWord, .keyword .nilWord⟩

/-! ## Legible forms -/

/-- An operator in front is written by one of the symbols, as heads are. -/
theorem InFront.exists_symbol {op : TokenKind} (h : InFront op) :
    ∃ s, op = .symbol s ∧ s.text.toList.all inHead = true := by
  cases h <;> exact ⟨_, rfl, rfl⟩

theorem InBetween.exists_symbol {rule : Rule} {op : TokenKind} (h : InBetween rule op) :
    ∃ s, op = .symbol s ∧ s.text.toList.all inHead = true := by
  cases h <;> exact ⟨_, rfl, rfl⟩

theorem LogicalOp.inHead_text (op : LogicalOp) : op.keyword.text.toList.all inHead = true := by
  cases op <;> rfl

/-- A form whose parts all have blanks before them. -/
theorem Form.legible_branch {head : String} {part : Form} {rest : Forms}
    (hhead : head.toList.all inHead = true) (hpart : part.Legible) (hrest : rest.Legible) :
    (branch head (.cons ' ' part rest)).Legible :=
  ⟨hhead, rfl, .inl rfl, hpart, hrest⟩

theorem Forms.legible_cons {part : Form} {rest : Forms} (hpart : part.Legible)
    (hrest : rest.Legible) : (cons ' ' part rest).Legible :=
  ⟨.inl rfl, hpart, hrest⟩

theorem Forms.legible_one {part : Form} (hpart : part.Legible) : (cons ' ' part nil).Legible :=
  ⟨.inl rfl, hpart, trivial⟩

mutual

theorem Expr.legible_form {e : Expr} (h : e.Worded) : e.form.Legible := by
  match e with
  | .literal _ => exact (Literal.Worded.spells h).1
  | .grouping inner =>
    exact Form.legible_branch rfl (Expr.legible_form h) trivial
  | .unary _ _ operand =>
    obtain ⟨hop, hsign, hoperand⟩ := h
    refine Form.legible_branch ?_ (Expr.legible_form hoperand) trivial
    obtain ⟨s, rfl, hhead⟩ := hop.exists_symbol
    rw [hsign.text_symbol]
    exact hhead
  | .binary _ _ left right =>
    obtain ⟨⟨_, hop⟩, hsign, hleft, hright⟩ := h
    refine Form.legible_branch ?_ (Expr.legible_form hleft)
      (Forms.legible_one (Expr.legible_form hright))
    obtain ⟨s, rfl, hhead⟩ := hop.exists_symbol
    rw [hsign.text_symbol]
    exact hhead
  | .logical op _ left right =>
    refine Form.legible_branch ?_ (Expr.legible_form h.2.1)
      (Forms.legible_one (Expr.legible_form h.2.2))
    rw [h.1]
    exact op.inHead_text
  | .name _ => exact Lexeme.Named.isWord h
  | .assign _ value =>
    exact Form.legible_branch rfl h.1.isWord (Forms.legible_one (Expr.legible_form h.2))
  | .call callee _ arguments =>
    exact Form.legible_branch rfl (Expr.legible_form h.1) (Expr.legible_listForms h.2)
  | .get object _ =>
    exact Form.legible_branch rfl (Expr.legible_form h.1) (Forms.legible_one h.2.isWord)
  | .set object _ value =>
    refine Form.legible_branch rfl (Expr.legible_form h.1) ⟨.inr rfl, h.2.1.isWord, ?_⟩
    exact Forms.legible_one (Expr.legible_form h.2.2)
  | .this _ => exact Keyword.isWord_text .thisWord
  | .super _ _ => exact Form.legible_branch rfl (Lexeme.Named.isWord h) trivial

theorem Expr.legible_listForms {es : List Expr} (h : Expr.ListWorded es) :
    (Expr.listForms es).Legible := by
  match es with
  | [] => trivial
  | e :: es => exact Forms.legible_cons (Expr.legible_form h.1) (Expr.legible_listForms h.2)

end

theorem Lexeme.legible_listForms {names : List Lexeme} (h : ∀ p ∈ names, p.Named) :
    (Lexeme.listForms names).Legible := by
  induction names with
  | nil => trivial
  | cons name names ih =>
    obtain ⟨hname, hnames⟩ := List.forall_mem_cons.mp h
    exact Forms.legible_cons hname.isWord (ih hnames)

theorem Lexeme.legible_parametersForm {names : List Lexeme} (h : ∀ p ∈ names, p.Named) :
    (Lexeme.parametersForm names).Legible := by
  cases names with
  | nil => exact ⟨rfl, trivial, trivial⟩
  | cons name names =>
    obtain ⟨hname, hnames⟩ := List.forall_mem_cons.mp h
    have happart : (Lexeme.listForms names).Apart := by
      cases names with
      | nil => trivial
      | cons second names => rfl
    exact ⟨hname.inHead, happart, Lexeme.legible_listForms hnames⟩

/-- A character that does nothing in a form is a word alone. -/
theorem isWord_singleton {c : Char} (hdigit : Piece.isDigit c = false) (hend : endsWord c = false) :
    IsWord [c] :=
  .plain hdigit (List.forall_mem_singleton.mpr hend)

mutual

theorem Stmt.legible_form {s : Stmt} (h : s.Worded) : s.form.Legible := by
  match s with
  | .expression _ | .print _ | .return _ (some _) =>
    exact Form.legible_branch rfl (Expr.legible_form h) trivial
  | .var _ none => exact Form.legible_branch rfl h.1.isWord trivial
  | .var _ (some value) =>
    exact Form.legible_branch rfl h.1.isWord
      (Forms.legible_cons (isWord_singleton rfl rfl) (Forms.legible_one (Expr.legible_form h.2)))
  | .block body =>
    have happart : (Stmt.listForms body).Apart := by
      cases body with
      | nil => trivial
      | cons s ss => rfl
    exact ⟨rfl, happart, Stmt.legible_listForms h⟩
  | .ifElse condition yes none =>
    exact Form.legible_branch rfl (Expr.legible_form h.1)
      (Forms.legible_one (Stmt.legible_form h.2))
  | .ifElse condition yes (some no) =>
    exact Form.legible_branch rfl (Expr.legible_form h.1)
      (Forms.legible_cons (Stmt.legible_form h.2.1) (Forms.legible_one (Stmt.legible_form h.2.2)))
  | .while condition body =>
    exact Form.legible_branch rfl (Expr.legible_form h.1)
      (Forms.legible_one (Stmt.legible_form h.2))
  | .break _ | .return _ none => exact ⟨rfl, trivial, trivial⟩
  | .function decl => exact FunctionDecl.legible_form rfl h
  | .class _ none methods =>
    exact Form.legible_branch rfl h.1.isWord (FunctionDecl.legible_methodForms h.2.2)
  | .class _ (some use) methods =>
    exact Form.legible_branch rfl h.1.isWord (Forms.legible_cons (isWord_singleton rfl rfl)
      (Forms.legible_cons (h.2.1 use rfl).isWord (FunctionDecl.legible_methodForms h.2.2)))

theorem Stmt.legible_listForms {ss : List Stmt} (h : Stmt.ListWorded ss) :
    (Stmt.listForms ss).Legible := by
  match ss with
  | [] => trivial
  | s :: ss => exact Forms.legible_cons (Stmt.legible_form h.1) (Stmt.legible_listForms h.2)

theorem FunctionDecl.legible_form {keyword : String}
    (hkeyword : keyword.toList.all inHead = true) {d : FunctionDecl} (h : d.Worded) :
    (d.form keyword).Legible := by
  match d with
  | ⟨name, parameters, body⟩ =>
    exact Form.legible_branch hkeyword h.1.isWord
      (Forms.legible_cons (Lexeme.legible_parametersForm h.2.1) (Stmt.legible_listForms h.2.2))

theorem FunctionDecl.legible_methodForms {ds : List FunctionDecl} (h : FunctionDecl.ListWorded ds) :
    (FunctionDecl.methodForms ds).Legible := by
  match ds with
  | [] => trivial
  | d :: ds =>
    exact Forms.legible_cons (FunctionDecl.legible_form rfl h.1)
      (FunctionDecl.legible_methodForms h.2)

end

end Lox
