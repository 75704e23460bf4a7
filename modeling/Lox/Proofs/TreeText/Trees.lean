/-
  Lox.Proofs.TreeText.Trees

  The forms of trees, and what of a tree is in its form.

    * `Expr.form`, `Stmt.form` — a tree as a form;
    * `Expr.text_form`, `Stmt.text_form` — its text is the text of the tree;
    * `Expr.stripped`, `Stmt.stripped` — a tree without the numbers of its occurrences,
      the lines of its tokens, and the tokens that only say where an error is;
    * `Expr.form_stripped`, `Stmt.form_stripped` — what was left out is not in the form.
-/
import Lox.Proofs.TreeText.Forms
import Lox.Syntax.Text

namespace Lox

/-! ## Forms of trees -/

/-- A name as a form. -/
def Lexeme.form (name : Lexeme) : Form := .word name.text

mutual

def Expr.form : Expr → Form
  | .literal value => .word value.treeText
  | .grouping inner => .branch "group" (.cons ' ' inner.form .nil)
  | .unary _ sign operand => .branch sign.text (.cons ' ' operand.form .nil)
  | .binary _ sign left right =>
    .branch sign.text (.cons ' ' left.form (.cons ' ' right.form .nil))
  | .logical _ sign left right =>
    .branch sign.text (.cons ' ' left.form (.cons ' ' right.form .nil))
  | .name use => use.name.form
  | .assign target value => .branch "=" (.cons ' ' target.name.form (.cons ' ' value.form .nil))
  | .call callee _ arguments => .branch "call" (.cons ' ' callee.form (Expr.listForms arguments))
  | .get object property => .branch "." (.cons ' ' object.form (.cons ' ' property.form .nil))
  | .set object property value =>
    .branch "=" (.cons ' ' object.form (.cons '.' property.form (.cons ' ' value.form .nil)))
  | .this _ => .word "this"
  | .super _ method => .branch "super" (.cons ' ' method.form .nil)

def Expr.listForms : List Expr → Forms
  | [] => .nil
  | e :: es => .cons ' ' e.form (Expr.listForms es)

end

/-- Names as parts. -/
def Lexeme.listForms : List Lexeme → Forms
  | [] => .nil
  | name :: names => .cons ' ' name.form (Lexeme.listForms names)

/-- Parameters as a form: the first one is its head. -/
def Lexeme.parametersForm : List Lexeme → Form
  | [] => .branch "" .nil
  | name :: names => .branch name.text (Lexeme.listForms names)

/-- The parts of a class between its name and its methods. -/
def Occurrence.superclassForms (superclass : Option Occurrence) (methods : Forms) : Forms :=
  match superclass with
  | none => methods
  | some use => .cons ' ' (.word "<") (.cons ' ' use.name.form methods)

mutual

def Stmt.form : Stmt → Form
  | .expression value => .branch ";" (.cons ' ' value.form .nil)
  | .print value => .branch "print" (.cons ' ' value.form .nil)
  | .var name none => .branch "var" (.cons ' ' name.form .nil)
  | .var name (some value) =>
    .branch "var" (.cons ' ' name.form (.cons ' ' (.word "=") (.cons ' ' value.form .nil)))
  | .block body => .branch "block" (Stmt.listForms body)
  | .ifElse condition yes none => .branch "if" (.cons ' ' condition.form (.cons ' ' yes.form .nil))
  | .ifElse condition yes (some no) =>
    .branch "if-else" (.cons ' ' condition.form (.cons ' ' yes.form (.cons ' ' no.form .nil)))
  | .while condition body =>
    .branch "while" (.cons ' ' condition.form (.cons ' ' body.form .nil))
  | .break _ => .branch "break" .nil
  | .function decl => decl.form "fun"
  | .return _ none => .branch "return" .nil
  | .return _ (some value) => .branch "return" (.cons ' ' value.form .nil)
  | .class name superclass methods =>
    .branch "class" (.cons ' ' name.form
      (Occurrence.superclassForms superclass (FunctionDecl.methodForms methods)))

def Stmt.listForms : List Stmt → Forms
  | [] => .nil
  | s :: ss => .cons ' ' s.form (Stmt.listForms ss)

def FunctionDecl.form (keyword : String) : FunctionDecl → Form
  | ⟨name, parameters, body⟩ =>
    .branch keyword (.cons ' ' name.form
      (.cons ' ' (Lexeme.parametersForm parameters) (Stmt.listForms body)))

def FunctionDecl.methodForms : List FunctionDecl → Forms
  | [] => .nil
  | m :: ms => .cons ' ' (m.form "method") (FunctionDecl.methodForms ms)

end

/-! ## Their texts -/

theorem Lexeme.text_form (name : Lexeme) : name.form.text = name.text.toList := by
  rw [Lexeme.form, Form.text]

mutual

theorem Expr.text_form (e : Expr) : e.form.text = e.treeText.toList := by
  match e with
  | .literal _ | .name _ | .this _ => rfl
  | .grouping inner => simp [form, treeText, Form.text, Forms.text, inner.text_form]
  | .unary _ _ operand => simp [form, treeText, Form.text, Forms.text, operand.text_form]
  | .binary _ _ left right | .logical _ _ left right =>
    simp [form, treeText, Form.text, Forms.text, left.text_form, right.text_form]
  | .assign _ value =>
    simp [form, treeText, Form.text, Forms.text, Lexeme.text_form, value.text_form]
  | .call callee _ arguments =>
    simp [form, treeText, Form.text, Forms.text, callee.text_form, Expr.text_listForms arguments]
  | .get object _ =>
    simp [form, treeText, Form.text, Forms.text, Lexeme.text_form, object.text_form]
  | .set object _ value =>
    simp [form, treeText, Form.text, Forms.text, Lexeme.text_form, object.text_form,
      value.text_form]
  | .super _ _ => simp [form, treeText, Form.text, Forms.text, Lexeme.text_form]

theorem Expr.text_listForms (es : List Expr) :
    (Expr.listForms es).text = (Expr.listText es).toList := by
  match es with
  | [] => rfl
  | e :: es => simp [listForms, listText, Forms.text, e.text_form, Expr.text_listForms es]

end

/-- Names with blanks between them. -/
theorem Lexeme.text_listForms (name : Lexeme) (names : List Lexeme) :
    name.text.toList ++ (Lexeme.listForms names).text =
      (" ".intercalate ((name :: names).map (·.text))).toList := by
  induction names generalizing name with
  | nil => simp [listForms, Forms.text]
  | cons second names ih =>
    rw [List.map_cons, List.map_cons, String.intercalate_cons_cons, ← List.map_cons,
      String.toList_append, String.toList_append, ← ih second, List.append_assoc, listForms,
      Forms.text, Lexeme.text_form]
    rfl

theorem Lexeme.text_parametersForm (names : List Lexeme) : (Lexeme.parametersForm names).text =
    ("(" ++ " ".intercalate (names.map (·.text)) ++ ")").toList := by
  cases names with
  | nil => rfl
  | cons name names =>
    simp only [String.toList_append, ← Lexeme.text_listForms, parametersForm, Form.text,
      List.append_assoc]
    rfl

mutual

theorem Stmt.text_form (s : Stmt) : s.form.text = s.treeText.toList := by
  match s with
  | .expression value | .print value =>
    simp [Stmt.form, Stmt.treeText, Form.text, Forms.text, value.text_form]
  | .var _ none => simp [Stmt.form, Stmt.treeText, Form.text, Forms.text, Lexeme.text_form]
  | .var _ (some value) =>
    simp [Stmt.form, Stmt.treeText, Form.text, Forms.text, Lexeme.text_form, value.text_form]
  | .block body => simp [Stmt.form, Stmt.treeText, Form.text, Stmt.text_listForms body]
  | .ifElse condition yes none =>
    simp [Stmt.form, Stmt.treeText, Form.text, Forms.text, condition.text_form, yes.text_form]
  | .ifElse condition yes (some no) =>
    simp [Stmt.form, Stmt.treeText, Form.text, Forms.text, condition.text_form, yes.text_form, no.text_form]
  | .while condition body =>
    simp [Stmt.form, Stmt.treeText, Form.text, Forms.text, condition.text_form, body.text_form]
  | .break _ | .return _ none => simp [Stmt.form, Stmt.treeText, Form.text, Forms.text]
  | .function decl => exact decl.text_form "fun"
  | .return _ (some value) => simp [Stmt.form, Stmt.treeText, Form.text, Forms.text, value.text_form]
  | .class _ none methods =>
    simp [Stmt.form, Stmt.treeText, Form.text, Forms.text, Lexeme.text_form, Occurrence.superclassForms,
      FunctionDecl.text_methodForms methods]
  | .class _ (some _) methods =>
    simp [Stmt.form, Stmt.treeText, Form.text, Forms.text, Lexeme.text_form, Occurrence.superclassForms,
      FunctionDecl.text_methodForms methods]

theorem Stmt.text_listForms (ss : List Stmt) :
    (Stmt.listForms ss).text = (Stmt.listText ss).toList := by
  match ss with
  | [] => rfl
  | s :: ss => simp [Stmt.listForms, Stmt.listText, Forms.text, s.text_form, Stmt.text_listForms ss]

theorem FunctionDecl.text_form (keyword : String) (d : FunctionDecl) :
    (d.form keyword).text = (d.treeText keyword).toList := by
  match d with
  | ⟨name, parameters, body⟩ =>
    simp [FunctionDecl.form, FunctionDecl.treeText, Form.text, Forms.text, Lexeme.text_form, Lexeme.text_parametersForm,
      Stmt.text_listForms body]

theorem FunctionDecl.text_methodForms (ds : List FunctionDecl) :
    (FunctionDecl.methodForms ds).text = (FunctionDecl.methodsText ds).toList := by
  match ds with
  | [] => rfl
  | d :: ds =>
    simp [FunctionDecl.methodForms, FunctionDecl.methodsText, Forms.text, d.text_form, FunctionDecl.text_methodForms ds]

end

/-! ## What trees have besides -/

/-- A token that stands nowhere. -/
def Lexeme.nowhere (text : String) : Lexeme := ⟨text, 0⟩

/-- A token without its line. -/
def Lexeme.stripped (name : Lexeme) : Lexeme := .nowhere name.text

/-- An occurrence without its number and its line. -/
def Occurrence.stripped (use : Occurrence) : Occurrence := ⟨0, use.name.stripped⟩

mutual

/-- An expression without numbers of occurrences, lines, closing parentheses and the words
    `this` and `super`. -/
def Expr.stripped : Expr → Expr
  | .literal value => .literal value
  | .grouping inner => .grouping inner.stripped
  | .unary op sign operand => .unary op sign.stripped operand.stripped
  | .binary op sign left right => .binary op sign.stripped left.stripped right.stripped
  | .logical op sign left right => .logical op sign.stripped left.stripped right.stripped
  | .name use => .name use.stripped
  | .assign target value => .assign target.stripped value.stripped
  | .call callee _ arguments => .call callee.stripped (.nowhere "") (Expr.listStripped arguments)
  | .get object property => .get object.stripped property.stripped
  | .set object property value => .set object.stripped property.stripped value.stripped
  | .this _ => .this ⟨0, .nowhere ""⟩
  | .super _ method => .super ⟨0, .nowhere ""⟩ method.stripped

def Expr.listStripped : List Expr → List Expr
  | [] => []
  | e :: es => e.stripped :: Expr.listStripped es

end

mutual

/-- A statement without numbers of occurrences, lines, closing parentheses and the words
    `this`, `super`, `break` and `return`. -/
def Stmt.stripped : Stmt → Stmt
  | .expression value => .expression value.stripped
  | .print value => .print value.stripped
  | .var name initializer => .var name.stripped (initializer.map Expr.stripped)
  | .block body => .block (Stmt.listStripped body)
  | .ifElse condition yes none => .ifElse condition.stripped yes.stripped none
  | .ifElse condition yes (some no) =>
    .ifElse condition.stripped yes.stripped (some no.stripped)
  | .while condition body => .while condition.stripped body.stripped
  | .break _ => .break (.nowhere "")
  | .function decl => .function decl.stripped
  | .return _ value => .return (.nowhere "") (value.map Expr.stripped)
  | .class name superclass methods =>
    .class name.stripped (superclass.map Occurrence.stripped) (FunctionDecl.listStripped methods)

def Stmt.listStripped : List Stmt → List Stmt
  | [] => []
  | s :: ss => s.stripped :: Stmt.listStripped ss

def FunctionDecl.stripped : FunctionDecl → FunctionDecl
  | ⟨name, parameters, body⟩ =>
    ⟨name.stripped, parameters.map Lexeme.stripped, Stmt.listStripped body⟩

def FunctionDecl.listStripped : List FunctionDecl → List FunctionDecl
  | [] => []
  | d :: ds => d.stripped :: FunctionDecl.listStripped ds

end

/-! ## What is not in a form -/

theorem Lexeme.form_stripped (name : Lexeme) : name.stripped.form = name.form := rfl

mutual

theorem Expr.form_stripped (e : Expr) : e.stripped.form = e.form := by
  match e with
  | .literal _ | .name _ | .this _ | .super _ _ => rfl
  | .grouping inner => rw [stripped, form, form, inner.form_stripped]
  | .unary _ _ operand => rw [stripped, form, form, operand.form_stripped]; rfl
  | .binary _ _ left right | .logical _ _ left right =>
    rw [stripped, form, form, left.form_stripped, right.form_stripped]; rfl
  | .assign _ value => rw [stripped, form, form, value.form_stripped]; rfl
  | .call callee _ arguments =>
    rw [stripped, form, form, callee.form_stripped, Expr.listForms_stripped arguments]
  | .get object _ => rw [stripped, form, form, object.form_stripped]; rfl
  | .set object _ value =>
    rw [stripped, form, form, object.form_stripped, value.form_stripped]; rfl

theorem Expr.listForms_stripped (es : List Expr) :
    Expr.listForms (Expr.listStripped es) = Expr.listForms es := by
  match es with
  | [] => rfl
  | e :: es => rw [listStripped, listForms, listForms, e.form_stripped, Expr.listForms_stripped es]

end

theorem Lexeme.listForms_stripped (names : List Lexeme) :
    Lexeme.listForms (names.map stripped) = Lexeme.listForms names := by
  induction names with
  | nil => rfl
  | cons name names ih => rw [List.map_cons, listForms, listForms, ih, name.form_stripped]

theorem Lexeme.parametersForm_stripped (names : List Lexeme) :
    Lexeme.parametersForm (names.map stripped) = Lexeme.parametersForm names := by
  cases names with
  | nil => rfl
  | cons name names =>
    rw [List.map_cons, parametersForm, parametersForm, Lexeme.listForms_stripped]; rfl

mutual

theorem Stmt.form_stripped (s : Stmt) : s.stripped.form = s.form := by
  match s with
  | .expression value | .print value => rw [Stmt.stripped, Stmt.form, Stmt.form, value.form_stripped]
  | .var _ none | .break _ | .return _ none => rfl
  | .var _ (some value) =>
    rw [Stmt.stripped, Option.map_some, Stmt.form, Stmt.form, value.form_stripped]; rfl
  | .block body => rw [Stmt.stripped, Stmt.form, Stmt.form, Stmt.listForms_stripped body]
  | .ifElse condition yes none =>
    rw [Stmt.stripped, Stmt.form, Stmt.form, condition.form_stripped, yes.form_stripped]
  | .ifElse condition yes (some no) =>
    rw [Stmt.stripped, Stmt.form, Stmt.form, condition.form_stripped, yes.form_stripped, no.form_stripped]
  | .while condition body =>
    rw [Stmt.stripped, Stmt.form, Stmt.form, condition.form_stripped, body.form_stripped]
  | .function decl => rw [Stmt.stripped, Stmt.form, Stmt.form, decl.form_stripped]
  | .return _ (some value) => rw [Stmt.stripped, Option.map_some, Stmt.form, Stmt.form, value.form_stripped]
  | .class _ none methods | .class _ (some _) methods =>
    rw [Stmt.stripped, Stmt.form, Stmt.form, FunctionDecl.methodForms_stripped methods]; rfl

theorem Stmt.listForms_stripped (ss : List Stmt) :
    Stmt.listForms (Stmt.listStripped ss) = Stmt.listForms ss := by
  match ss with
  | [] => rfl
  | s :: ss => rw [Stmt.listStripped, Stmt.listForms, Stmt.listForms, s.form_stripped, Stmt.listForms_stripped ss]

theorem FunctionDecl.form_stripped (keyword : String) (d : FunctionDecl) :
    d.stripped.form keyword = d.form keyword := by
  match d with
  | ⟨name, parameters, body⟩ =>
    rw [FunctionDecl.stripped, FunctionDecl.form, FunctionDecl.form, name.form_stripped, Lexeme.parametersForm_stripped,
      Stmt.listForms_stripped body]

theorem FunctionDecl.methodForms_stripped (ds : List FunctionDecl) :
    FunctionDecl.methodForms (FunctionDecl.listStripped ds) = FunctionDecl.methodForms ds := by
  match ds with
  | [] => rfl
  | d :: ds =>
    rw [FunctionDecl.listStripped, FunctionDecl.methodForms, FunctionDecl.methodForms, d.form_stripped,
      FunctionDecl.methodForms_stripped ds]

end

end Lox
