/-
  Lox.Proofs.TreeText.Reading

  Trees are read back from their forms.

    * `Expr.ofForm`, `Stmt.ofForm` — what is read from a form;
    * `Expr.ofForm_form`, `Stmt.ofForm_form` — this is the tree that the form is of, up to
      what is not in a form;
    * `Expr.treeText_eq_iff`, `Stmt.treeText_eq_iff` — so the text tells what the tree is.

  A head does not say alone what it stands for: `-` has one part or two, and the name behind
  `=` and another part is a value or a property.
-/
import Lox.Proofs.TreeText.Words

namespace Lox

/-! ## Reading expressions -/

/-- The operator between two operands that a text is. -/
def Symbol.ofText (text : String) : Symbol :=
  ([plus, minus, star, slash, greater, greaterEqual, less, lessEqual, equalEqual,
    bangEqual].find? (·.text = text)).getD .plus

/-- The expression that a word is, by its kind. -/
def Expr.ofWord (text : String) : Expr :=
  match pieces text.toList with
  | [.token (.number value) _] => .literal (.number value)
  | [.token (.keyword .trueWord) _] => .literal (.bool true)
  | [.token (.keyword .falseWord) _] => .literal (.bool false)
  | [.token (.keyword .thisWord) _] => .this ⟨0, .nowhere ""⟩
  | [.token .identifier _] => .name ⟨0, .nowhere text⟩
  | _ => .literal .nil

/-- The name that a part is. -/
def Expr.asName : Expr → Lexeme
  | .name use => use.name
  | _ => .nowhere ""

/-- The expression with the given head and parts. -/
def Expr.ofParts : String → List Expr → Expr
  | "group", [inner] => .grouping inner
  | "super", [method] => .super ⟨0, .nowhere ""⟩ method.asName
  | "call", callee :: arguments => .call callee (.nowhere "") arguments
  | ".", [object, property] => .get object property.asName
  | "=", [target, value] => .assign ⟨0, target.asName⟩ value
  | "=", [object, property, value] => .set object property.asName value
  | "and", [left, right] => .logical .and (.nowhere "and") left right
  | "or", [left, right] => .logical .or (.nowhere "or") left right
  | sign, [operand] =>
    .unary (.symbol (if sign = "!" then .bang else .minus)) (.nowhere sign) operand
  | sign, [left, right] => .binary (.symbol (.ofText sign)) (.nowhere sign) left right
  | _, _ => .literal .nil

mutual

/-- The expression that a form is of. -/
def Expr.ofForm : Form → Expr
  | .word text => Expr.ofWord text
  | .branch head parts => Expr.ofParts head (Expr.ofForms parts)

def Expr.ofForms : Forms → List Expr
  | .nil => []
  | .cons _ part rest => Expr.ofForm part :: Expr.ofForms rest

end

theorem Lexeme.Named.ofWord {name : Lexeme} (h : name.Named) :
    Expr.ofWord name.text = .name ⟨0, name.stripped⟩ := by
  rw [Expr.ofWord, pieces_lexeme h]
  rfl

theorem Literal.Worded.ofWord {value : Literal} (h : value.Worded) :
    Expr.ofWord value.treeText = .literal value := by
  rw [Expr.ofWord, pieces_lexeme h.spells.2]
  cases h with
  | number _ => rfl
  | bool b => cases b <;> rfl
  | nil => rfl

theorem Expr.ofWord_this : Expr.ofWord "this" = .this ⟨0, .nowhere ""⟩ := by
  have hcut : pieces "this".toList = _ := pieces_lexeme (.keyword .thisWord)
  rw [Expr.ofWord, hcut]

mutual

/-- An expression is read from its form, up to what is not in a form. -/
theorem Expr.ofForm_form {e : Expr} (h : e.Worded) : Expr.ofForm e.form = e.stripped := by
  match e with
  | .literal value => exact Literal.Worded.ofWord h
  | .grouping inner =>
    rw [form, ofForm, ofForms, ofForms, Expr.ofForm_form (e := inner) h]
    rfl
  | .unary op sign operand =>
    obtain ⟨hop, hsign, hoperand⟩ := h
    rw [form, ofForm, ofForms, ofForms, Expr.ofForm_form hoperand, stripped, Lexeme.stripped]
    cases hop <;> (rw [hsign.text_symbol]; rfl)
  | .binary op sign left right =>
    obtain ⟨⟨_, hop⟩, hsign, hleft, hright⟩ := h
    rw [form, ofForm, ofForms, ofForms, ofForms, Expr.ofForm_form hleft, Expr.ofForm_form hright,
      stripped, Lexeme.stripped]
    cases hop <;> (rw [hsign.text_symbol]; rfl)
  | .logical op sign left right =>
    rw [form, ofForm, ofForms, ofForms, ofForms, Expr.ofForm_form h.2.1, Expr.ofForm_form h.2.2,
      stripped, Lexeme.stripped, h.1]
    cases op <;> rfl
  | .name use => exact Lexeme.Named.ofWord h
  | .assign target value =>
    rw [form, ofForm, ofForms, ofForms, ofForms, Lexeme.form, ofForm, Lexeme.Named.ofWord h.1,
      Expr.ofForm_form h.2]
    rfl
  | .call callee paren arguments =>
    rw [form, ofForm, ofForms, Expr.ofForm_form h.1, Expr.ofForms_listForms h.2]
    rfl
  | .get object property =>
    rw [form, ofForm, ofForms, ofForms, ofForms, Lexeme.form, ofForm, Lexeme.Named.ofWord h.2,
      Expr.ofForm_form h.1]
    rfl
  | .set object property value =>
    rw [form, ofForm, ofForms, ofForms, ofForms, ofForms, Lexeme.form, ofForm,
      Lexeme.Named.ofWord h.2.1, Expr.ofForm_form h.1, Expr.ofForm_form h.2.2]
    rfl
  | .this _ => exact Expr.ofWord_this
  | .super _ method =>
    rw [form, ofForm, ofForms, ofForms, Lexeme.form, ofForm, Lexeme.Named.ofWord h]
    rfl

theorem Expr.ofForms_listForms {es : List Expr} (h : Expr.ListWorded es) :
    Expr.ofForms (Expr.listForms es) = Expr.listStripped es := by
  match es with
  | [] => rfl
  | e :: es =>
    rw [listForms, ofForms, Expr.ofForm_form h.1, Expr.ofForms_listForms h.2]
    rfl

end

/-! ## Reading statements -/

/-- The name that a word is. -/
def Form.asName : Form → Lexeme
  | .word text => .nowhere text
  | .branch _ _ => .nowhere ""

/-- The names that parts are. -/
def Forms.asNames : Forms → List Lexeme
  | .nil => []
  | .cons _ part rest => part.asName :: rest.asNames

/-- The parameters that a form lists. -/
def Form.asParameters : Form → List Lexeme
  | .branch "" _ => []
  | .branch head parts => .nowhere head :: parts.asNames
  | .word _ => []

mutual

/-- The statement that a form is of. -/
def Stmt.ofForm : Form → Stmt
  | .branch ";" (.cons _ value .nil) => .expression (Expr.ofForm value)
  | .branch "print" (.cons _ value .nil) => .print (Expr.ofForm value)
  | .branch "var" (.cons _ name .nil) => .var name.asName none
  | .branch "var" (.cons _ name (.cons _ _ (.cons _ value .nil))) =>
    .var name.asName (some (Expr.ofForm value))
  | .branch "block" body => .block (Stmt.ofForms body)
  | .branch "if" (.cons _ condition (.cons _ yes .nil)) =>
    .ifElse (Expr.ofForm condition) (Stmt.ofForm yes) none
  | .branch "if-else" (.cons _ condition (.cons _ yes (.cons _ no .nil))) =>
    .ifElse (Expr.ofForm condition) (Stmt.ofForm yes) (some (Stmt.ofForm no))
  | .branch "while" (.cons _ condition (.cons _ body .nil)) =>
    .while (Expr.ofForm condition) (Stmt.ofForm body)
  | .branch "break" .nil => .break (.nowhere "")
  | .branch "return" .nil => .return (.nowhere "") none
  | .branch "return" (.cons _ value .nil) => .return (.nowhere "") (some (Expr.ofForm value))
  | .branch "fun" (.cons _ name (.cons _ parameters body)) =>
    .function ⟨name.asName, parameters.asParameters, Stmt.ofForms body⟩
  | .branch "class" (.cons _ name (.cons _ (.word "<") (.cons _ superclass methods))) =>
    .class name.asName (some ⟨0, superclass.asName⟩) (FunctionDecl.ofForms methods)
  | .branch "class" (.cons _ name methods) =>
    .class name.asName none (FunctionDecl.ofForms methods)
  | _ => .block []

def Stmt.ofForms : Forms → List Stmt
  | .nil => []
  | .cons _ part rest => Stmt.ofForm part :: Stmt.ofForms rest

/-- The methods that parts are. -/
def FunctionDecl.ofForms : Forms → List FunctionDecl
  | .cons _ (.branch _ (.cons _ name (.cons _ parameters body))) rest =>
    ⟨name.asName, parameters.asParameters, Stmt.ofForms body⟩ :: FunctionDecl.ofForms rest
  | _ => []

end

theorem Lexeme.asNames_listForms (names : List Lexeme) :
    (Lexeme.listForms names).asNames = names.map Lexeme.stripped := by
  induction names with
  | nil => rfl
  | cons name names ih =>
    rw [listForms, Forms.asNames, ih]
    rfl

/-- The first parameter is a name, and so no empty head. -/
theorem Lexeme.asParameters_parametersForm {names : List Lexeme} (h : ∀ p ∈ names, p.Named) :
    (Lexeme.parametersForm names).asParameters = names.map Lexeme.stripped := by
  cases names with
  | nil => rfl
  | cons name names =>
    have hhead : name.text ≠ "" := by
      intro hempty
      obtain ⟨c, cs, htext, -⟩ := (h name List.mem_cons_self).chars
      rw [hempty] at htext
      cases htext
    rw [parametersForm, Form.asParameters, Lexeme.asNames_listForms]
    · rfl
    · exact hhead

/-- A method is in parentheses, so none is taken for the mark of a superclass. -/
theorem FunctionDecl.methodForms_ne_word (ds : List FunctionDecl) {gap : Char} {text : String}
    {rest : Forms} : FunctionDecl.methodForms ds ≠ .cons gap (.word text) rest := by
  intro h
  match ds with
  | [] => cases h
  | ⟨name, parameters, body⟩ :: ds =>
    rw [FunctionDecl.methodForms, FunctionDecl.form] at h
    cases h

mutual

/-- A statement is read from its form, up to what is not in a form. -/
theorem Stmt.ofForm_form {s : Stmt} (h : s.Worded) : Stmt.ofForm s.form = s.stripped := by
  match s with
  | .expression value =>
    rw [Stmt.form, Stmt.ofForm, Expr.ofForm_form (e := value) h]
    rfl
  | .print value =>
    rw [Stmt.form, Stmt.ofForm, Expr.ofForm_form (e := value) h]
    rfl
  | .var name none => rfl
  | .var name (some value) =>
    rw [Stmt.form, Stmt.ofForm, Expr.ofForm_form (e := value) h.2]
    rfl
  | .block body =>
    have hbody : Stmt.ListWorded body := h
    rw [Stmt.form, Stmt.ofForm, Stmt.ofForms_listForms hbody]
    rfl
  | .ifElse condition yes none =>
    rw [Stmt.form, Stmt.ofForm, Expr.ofForm_form h.1, Stmt.ofForm_form h.2]
    rfl
  | .ifElse condition yes (some no) =>
    rw [Stmt.form, Stmt.ofForm, Expr.ofForm_form h.1, Stmt.ofForm_form h.2.1,
      Stmt.ofForm_form h.2.2]
    rfl
  | .while condition body =>
    rw [Stmt.form, Stmt.ofForm, Expr.ofForm_form h.1, Stmt.ofForm_form h.2]
    rfl
  | .break _ | .return _ none => rfl
  | .function ⟨name, parameters, body⟩ =>
    rw [Stmt.form, FunctionDecl.form, Stmt.ofForm, Lexeme.asParameters_parametersForm h.2.1,
      Stmt.ofForms_listForms h.2.2]
    rfl
  | .return _ (some value) =>
    rw [Stmt.form, Stmt.ofForm, Expr.ofForm_form (e := value) h]
    rfl
  | .class name none methods =>
    rw [Stmt.form, Occurrence.superclassForms, Stmt.ofForm, FunctionDecl.ofForms_methodForms h.2.2]
    · rfl
    · exact fun _ _ _ _ => FunctionDecl.methodForms_ne_word methods
  | .class name (some use) methods =>
    rw [Stmt.form, Occurrence.superclassForms, Stmt.ofForm, FunctionDecl.ofForms_methodForms h.2.2]
    rfl

theorem Stmt.ofForms_listForms {ss : List Stmt} (h : Stmt.ListWorded ss) :
    Stmt.ofForms (Stmt.listForms ss) = Stmt.listStripped ss := by
  match ss with
  | [] => rfl
  | s :: ss =>
    rw [Stmt.listForms, Stmt.ofForms, Stmt.ofForm_form h.1, Stmt.ofForms_listForms h.2]
    rfl

theorem FunctionDecl.ofForms_methodForms {ds : List FunctionDecl}
    (h : FunctionDecl.ListWorded ds) :
    FunctionDecl.ofForms (FunctionDecl.methodForms ds) = FunctionDecl.listStripped ds := by
  match ds with
  | [] => rfl
  | ⟨name, parameters, body⟩ :: ds =>
    rw [FunctionDecl.methodForms, FunctionDecl.form, FunctionDecl.ofForms,
      Lexeme.asParameters_parametersForm h.1.2.1, Stmt.ofForms_listForms h.1.2.2,
      FunctionDecl.ofForms_methodForms h.2]
    rfl

end

/-! ## Texts -/

/-- Expressions with one text are one expression, up to what is not in a form. -/
theorem Expr.treeText_eq_iff {e e' : Expr} (h : e.Worded) (h' : e'.Worded) :
    e.treeText = e'.treeText ↔ e.stripped = e'.stripped := by
  constructor
  · intro htext
    have hform : e.form = e'.form := by
      refine Form.text_inj (Expr.legible_form h) (Expr.legible_form h') ?_
      rw [e.text_form, e'.text_form, htext]
    rw [← Expr.ofForm_form h, ← Expr.ofForm_form h', hform]
  · intro hstripped
    apply String.toList_injective
    rw [← e.text_form, ← e'.text_form, ← e.form_stripped, ← e'.form_stripped, hstripped]

/-- Statements with one text are one statement, up to what is not in a form. -/
theorem Stmt.treeText_eq_iff {s s' : Stmt} (h : s.Worded) (h' : s'.Worded) :
    s.treeText = s'.treeText ↔ s.stripped = s'.stripped := by
  constructor
  · intro htext
    have hform : s.form = s'.form := by
      refine Form.text_inj (Stmt.legible_form h) (Stmt.legible_form h') ?_
      rw [s.text_form, s'.text_form, htext]
    rw [← Stmt.ofForm_form h, ← Stmt.ofForm_form h', hform]
  · intro hstripped
    apply String.toList_injective
    rw [← s.text_form, ← s'.text_form, ← s.form_stripped, ← s'.form_stripped, hstripped]

end Lox
