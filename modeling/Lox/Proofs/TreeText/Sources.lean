/-
  Lox.Proofs.TreeText.Sources

  The text of a tree tells what the tree is, for trees that were read from sources.

    * `PlainConstants` — a source without strings and without numbers that are too large;
    * `ExprPhrase.Derives.worded`, `StmtPhrase.Derives.worded` — its tokens are spelled as
      the trees need it;
    * `Subtree.Child`, `Made` — the trees that are made from a source, whole programs,
      expressions, and the trees inside them;
    * `treeText_identifies` — two of them with the same text are the same.
-/
import Lox.Proofs.Scoping.Agreement
import Lox.Proofs.TreeText.Reading

namespace Lox

/-! ## Tokens -/

/-- No string is written in the source, and all its numbers are finite. -/
def PlainConstants (source : String) : Prop :=
  ∀ t ∈ tokensOf (scan source), (∀ content, t.kind ≠ .string content) ∧
    ∀ x, t.kind = .number x → x.isFinite = true

/-- A token that is spelled as its kind says, and is no string and no infinity. -/
structure Token.Worded (t : Token) : Prop where
  spells : t.kind.Spells t.lexeme.toList
  noString : ∀ content, t.kind ≠ .string content
  finite : ∀ x, t.kind = .number x → x.isFinite = true

namespace Token

variable {t : Token}

theorem Worded.named (h : t.Worded) (hkind : t.kind = .identifier) : t.toLexeme.Named := by
  have hspells := h.spells
  rw [hkind] at hspells
  exact hspells

theorem Worded.keyword (h : t.Worded) {k : Keyword} (hkind : t.kind = .keyword k) :
    t.lexeme = k.text := by
  have hspells := h.spells
  rw [hkind] at hspells
  generalize htext : t.lexeme.toList = text at hspells
  cases hspells
  exact String.toList_injective htext

theorem Worded.constant (h : t.Worded) {value : Literal} (hvalue : Constant t.kind value) :
    value.Worded := by
  have hspells := h.spells
  have hstring := h.noString
  have hfinite := h.finite
  generalize t.kind = kind at hvalue hspells hstring hfinite
  cases hvalue with
  | number x =>
    obtain ⟨bits, hrange, rfl⟩ := hspells.exists_pattern
    exact .number (Number.lt_of_isFinite hrange (hfinite _ rfl))
  | string content => exact absurd rfl (hstring content)
  | true => exact .bool _
  | false => exact .bool _
  | nil => exact .nil

end Token

/-- All tokens of such a source are spelled so. -/
theorem PlainConstants.worded {source : String} (hsource : PlainConstants source) {t : Token}
    (ht : t ∈ tokensOf (scan source)) (hkind : t.kind ≠ .eof) : t.Worded :=
  ⟨(spells_of_mem_scan ht).resolve_left fun hend => hkind hend.1, (hsource t ht).1,
    (hsource t ht).2⟩

/-! ## Derivations -/

theorem Between.worded {rule : Rule} {sign : Token} {node : Lexeme → Expr → Expr → Expr}
    (h : Between rule sign.kind node) (hsign : sign.Worded) {left right : Expr}
    (hleft : left.Worded) (hright : right.Worded) : (node sign.toLexeme left right).Worded := by
  generalize hkind : sign.kind = kind at h
  cases h with
  | or => exact ⟨hsign.keyword hkind, hleft, hright⟩
  | and => exact ⟨hsign.keyword hkind, hleft, hright⟩
  | values hop =>
    subst hkind
    exact ⟨⟨rule, hop⟩, hsign.spells, hleft, hright⟩

def ExprPhrase.Worded : ExprPhrase → Prop
  | .expr _ e => e.Worded
  | .arguments es => Expr.ListWorded es

theorem ExprPhrase.Derives.worded {phrase : ExprPhrase} {ts : List Token} (h : phrase.Derives ts)
    (hts : ∀ t ∈ ts, t.Worded) : phrase.Worded := by
  induction h with
  | operand _ ih => exact ih hts
  | assignName hname _ _ ih =>
    simp only [List.forall_mem_cons] at hts
    exact ⟨hts.1.named hname, ih hts.2.2⟩
  | assignProperty _ _ hname _ _ ihobject ihvalue =>
    simp only [List.forall_mem_append, List.forall_mem_cons] at hts
    exact ⟨ihobject hts.1, hts.2.2.1.named hname, ihvalue hts.2.2.2.2⟩
  | between hnode _ _ ihleft ihright =>
    simp only [List.forall_mem_append, List.forall_mem_cons] at hts
    exact hnode.worded hts.2.1 (ihleft hts.1) (ihright hts.2.2)
  | inFront hop _ ih =>
    simp only [List.forall_mem_cons] at hts
    exact ⟨hop, hts.1.spells, ih hts.2⟩
  | callEmpty _ _ _ ih =>
    simp only [List.forall_mem_append] at hts
    exact ⟨ih hts.1, trivial⟩
  | call _ _ _ _ ihcallee iharguments =>
    simp only [List.forall_mem_append, List.forall_mem_cons] at hts
    exact ⟨ihcallee hts.1, iharguments hts.2.2.1⟩
  | property _ _ hname ih =>
    simp only [List.forall_mem_append, List.forall_mem_cons] at hts
    exact ⟨ih hts.1, hts.2.2.1.named hname⟩
  | constant hvalue => exact (hts _ List.mem_cons_self).constant hvalue
  | name hkind => exact (hts _ List.mem_cons_self).named hkind
  | this _ => trivial
  | super _ _ hmethod =>
    simp only [List.forall_mem_cons] at hts
    exact hts.2.2.1.named hmethod
  | grouping _ _ _ ih =>
    simp only [List.forall_mem_append, List.forall_mem_cons] at hts
    exact ih hts.2.1
  | lastArgument _ ih => exact ⟨ih hts, trivial⟩
  | argument _ _ _ ihe ihes =>
    simp only [List.forall_mem_append, List.forall_mem_cons] at hts
    exact ⟨ihe hts.1, ihes hts.2.2⟩

theorem Optional.worded {e : Option Expr} {ts : List Token} (h : Optional e ts)
    (hts : ∀ t ∈ ts, t.Worded) : Expr.OptionWorded e := by
  cases h with
  | none => trivial
  | some he => exact he.worded hts

theorem Initializer.worded {e : Option Expr} {ts : List Token} (h : Initializer e ts)
    (hts : ∀ t ∈ ts, t.Worded) : Expr.OptionWorded e := by
  cases h with
  | none => trivial
  | some _ he => exact he.worded fun t ht => hts t (List.mem_cons_of_mem _ ht)

theorem Variable.worded {s : Stmt} {ts : List Token} (h : Variable s ts)
    (hts : ∀ t ∈ ts, t.Worded) : s.Worded := by
  cases h with
  | mk hname hinitializer _ =>
    simp only [List.forall_mem_append, List.forall_mem_cons] at hts
    exact ⟨hts.1.named hname, hinitializer.worded hts.2.1⟩

theorem First.worded {first : Option Stmt} {ts : List Token} (h : First first ts)
    (hts : ∀ t ∈ ts, t.Worded) : ∀ s, first = some s → s.Worded := by
  rintro s rfl
  cases h with
  | var _ hvariable => exact hvariable.worded fun t ht => hts t (List.mem_cons_of_mem _ ht)
  | expression he _ => exact he.worded fun t ht => hts t (List.mem_append_left _ ht)

theorem Parameters.named {names : List Lexeme} {ts : List Token} (h : Parameters names ts)
    (hts : ∀ t ∈ ts, t.Worded) : ∀ p ∈ names, p.Named := by
  induction h with
  | last hkind => exact List.forall_mem_singleton.mpr ((hts _ List.mem_cons_self).named hkind)
  | more hkind _ _ ih =>
    simp only [List.forall_mem_cons] at hts
    exact List.forall_mem_cons.mpr ⟨hts.1.named hkind, ih hts.2.2⟩

theorem SuperclassClause.named {superclass : Option Occurrence} {ts : List Token}
    (h : SuperclassClause superclass ts) (hts : ∀ t ∈ ts, t.Worded) :
    ∀ use, superclass = Option.some use → use.name.Named := by
  rintro use rfl
  cases h with
  | some _ hname =>
    simp only [List.forall_mem_cons] at hts
    exact hts.2.1.named hname

/-- The words of a `for` are those of its parts, and perhaps a condition that is `true`. -/
theorem Parser.worded_forTree {first : Option Stmt} {condition increment : Option Expr}
    {body : Stmt} (hfirst : ∀ s, first = some s → s.Worded)
    (hcondition : Expr.OptionWorded condition) (hincrement : Expr.OptionWorded increment)
    (hbody : body.Worded) : (Parser.forTree first condition increment body).Worded := by
  have hcondition : (condition.getD (.literal (.bool true))).Worded := by
    cases condition with
    | none => exact .bool true
    | some e => exact hcondition
  have hloop : (Parser.forTree none condition increment body).Worded := by
    cases increment with
    | none => exact ⟨hcondition, hbody⟩
    | some e => exact ⟨hcondition, hbody, hincrement, trivial⟩
  cases first with
  | none => exact hloop
  | some s => exact ⟨hfirst s rfl, hloop, trivial⟩

def StmtPhrase.Worded : StmtPhrase → Prop
  | .declarations ss => Stmt.ListWorded ss
  | .declaration s => s.Worded
  | .statement _ s => s.Worded
  | .function decl => decl.Worded
  | .methods decls => FunctionDecl.ListWorded decls

theorem StmtPhrase.Derives.worded {phrase : StmtPhrase} {ts : List Token} (h : phrase.Derives ts)
    (hts : ∀ t ∈ ts, t.Worded) : phrase.Worded := by
  induction h with
  | noDeclarations => trivial
  | declarations _ _ ihs ihss =>
    simp only [List.forall_mem_append] at hts
    exact ⟨ihs hts.1, ihss hts.2⟩
  | «class» _ hname hsuperclass _ _ _ ih =>
    simp only [List.forall_mem_append, List.forall_mem_cons] at hts
    exact ⟨hts.2.1.named hname, hsuperclass.named hts.2.2.1, ih hts.2.2.2.2.1⟩
  | function _ _ ih => exact ih fun t ht => hts t (List.mem_cons_of_mem _ ht)
  | var _ hvariable => exact hvariable.worded fun t ht => hts t (List.mem_cons_of_mem _ ht)
  | statement _ ih => exact ih hts
  | noMethods => trivial
  | methods _ _ ihd ihds =>
    simp only [List.forall_mem_append] at hts
    exact ⟨ihd hts.1, ihds hts.2⟩
  | callable hname _ hnames _ _ _ _ ih =>
    simp only [List.forall_mem_append, List.forall_mem_cons] at hts
    refine ⟨hts.1.named hname, ?_, ih hts.2.2.2.2.2.1⟩
    rcases hnames with ⟨rfl, _⟩ | hparameters
    · nofun
    · exact hparameters.named hts.2.2.1
  | «break» _ _ => trivial
  | «for» _ _ hfirst hcondition _ hincrement _ _ ih =>
    simp only [List.forall_mem_append, List.forall_mem_cons] at hts
    obtain ⟨_, _, hfs, hcs, _, his, _, hbs⟩ := hts
    exact Parser.worded_forTree (hfirst.worded hfs) (hcondition.worded hcs)
      (hincrement.worded his) (ih hbs)
  | «if» _ _ hcondition _ _ ih =>
    simp only [List.forall_mem_append, List.forall_mem_cons] at hts
    exact ⟨hcondition.worded hts.2.2.1, ih hts.2.2.2.2⟩
  | ifElse _ _ hcondition _ _ _ _ ihyes ihno =>
    simp only [List.forall_mem_append, List.forall_mem_cons] at hts
    obtain ⟨_, _, hcs, _, hys, _, hns⟩ := hts
    exact ⟨hcondition.worded hcs, ihyes hys, ihno hns⟩
  | print _ he _ =>
    simp only [List.forall_mem_append, List.forall_mem_cons] at hts
    exact he.worded hts.2.1
  | «return» _ he _ =>
    simp only [List.forall_mem_append, List.forall_mem_cons] at hts
    exact he.worded hts.2.1
  | «while» _ _ hcondition _ _ ih =>
    simp only [List.forall_mem_append, List.forall_mem_cons] at hts
    exact ⟨hcondition.worded hts.2.2.1, ih hts.2.2.2.2⟩
  | block _ _ _ ih =>
    simp only [List.forall_mem_append, List.forall_mem_cons] at hts
    exact ih hts.2.1
  | expression he _ =>
    simp only [List.forall_mem_append] at hts
    exact he.worded hts.1

theorem parseExpression_worded {source : String} {nextId : Nat} {e : Expr}
    (hsource : PlainConstants source)
    (h : (parseExpression (tokensOf (scan source)) nextId).result = .ok e) : e.Worded := by
  obtain ⟨read, rest, hread, he⟩ := Parser.read_of_scan
    (fun n => (Parser.reads_expression n).shorter (Nat.le_succ n)) h
  exact he.part.derives.worded fun t ht => hsource.worded (hread t ht).1 (hread t ht).2.1

theorem parseProgram_worded {source : String} {nextId : Nat} {program : List Stmt}
    (hsource : PlainConstants source)
    (h : (parseProgram (tokensOf (scan source)) nextId).result = .ok program) :
    Stmt.ListWorded program := by
  obtain ⟨read, rest, hread, hprogram, -⟩ := Parser.read_of_scan Parser.reads_program h
  exact hprogram.derives.worded fun t ht => hsource.worded (hread t ht).1 (hread t ht).2.1

/-! ## Trees inside trees -/

/-- A tree of one of the three sorts. -/
inductive Subtree where
  | expr (e : Expr)
  | stmt (s : Stmt)
  | decl (d : FunctionDecl)

namespace Subtree

/-- The first tree stands directly in the second one. -/
inductive Child : Subtree → Subtree → Prop
  | inner {e} : Child (.expr e) (.expr (.grouping e))
  | operand {op sign e} : Child (.expr e) (.expr (.unary op sign e))
  | left {op sign e e'} : Child (.expr e) (.expr (.binary op sign e e'))
  | right {op sign e e'} : Child (.expr e') (.expr (.binary op sign e e'))
  | logicalLeft {op sign e e'} : Child (.expr e) (.expr (.logical op sign e e'))
  | logicalRight {op sign e e'} : Child (.expr e') (.expr (.logical op sign e e'))
  | assigned {target e} : Child (.expr e) (.expr (.assign target e))
  | callee {e paren arguments} : Child (.expr e) (.expr (.call e paren arguments))
  | argument {e callee paren arguments} :
      e ∈ arguments → Child (.expr e) (.expr (.call callee paren arguments))
  | object {e property} : Child (.expr e) (.expr (.get e property))
  | setObject {e property e'} : Child (.expr e) (.expr (.set e property e'))
  | setValue {e property e'} : Child (.expr e') (.expr (.set e property e'))
  | expression {e} : Child (.expr e) (.stmt (.expression e))
  | print {e} : Child (.expr e) (.stmt (.print e))
  | initializer {name e} : Child (.expr e) (.stmt (.var name (some e)))
  | block {s body} : s ∈ body → Child (.stmt s) (.stmt (.block body))
  | ifCondition {e s no} : Child (.expr e) (.stmt (.ifElse e s no))
  | yes {e s no} : Child (.stmt s) (.stmt (.ifElse e s no))
  | no {e s s'} : Child (.stmt s') (.stmt (.ifElse e s (some s')))
  | condition {e s} : Child (.expr e) (.stmt (.while e s))
  | body {e s} : Child (.stmt s) (.stmt (.while e s))
  | function {d} : Child (.decl d) (.stmt (.function d))
  | returned {keyword e} : Child (.expr e) (.stmt (.return keyword (some e)))
  | method {d name superclass methods} :
      d ∈ methods → Child (.decl d) (.stmt (.class name superclass methods))
  | statement {s name parameters body} : s ∈ body → Child (.stmt s) (.decl ⟨name, parameters, body⟩)

def Worded : Subtree → Prop
  | .expr e => e.Worded
  | .stmt s => s.Worded
  | .decl d => d.Worded

end Subtree

theorem Expr.worded_of_mem {e : Expr} {es : List Expr} (h : Expr.ListWorded es) (he : e ∈ es) :
    e.Worded := by
  induction he with
  | head => exact h.1
  | tail _ _ ih => exact ih h.2

theorem Stmt.worded_of_mem {s : Stmt} {ss : List Stmt} (h : Stmt.ListWorded ss) (hs : s ∈ ss) :
    s.Worded := by
  induction hs with
  | head => exact h.1
  | tail _ _ ih => exact ih h.2

theorem FunctionDecl.worded_of_mem {d : FunctionDecl} {ds : List FunctionDecl}
    (h : FunctionDecl.ListWorded ds) (hd : d ∈ ds) : d.Worded := by
  induction hd with
  | head => exact h.1
  | tail _ _ ih => exact ih h.2

/-- What stands in a tree has its words. -/
theorem Subtree.Child.worded {t u : Subtree} (h : t.Child u) (hu : u.Worded) : t.Worded := by
  cases h with
  | inner | expression | print | function | returned => exact hu
  | assigned | initializer => exact hu.2
  | logicalLeft => exact hu.2.1
  | operand | logicalRight | setValue => exact hu.2.2
  | left => exact hu.2.2.1
  | right => exact hu.2.2.2
  | callee | object | setObject | condition => exact hu.1
  | argument hmem => exact Expr.worded_of_mem hu.2 hmem
  | block hmem => exact Stmt.worded_of_mem hu hmem
  | @ifCondition _ _ no => cases no <;> exact hu.1
  | @yes _ _ no =>
    cases no with
    | none => exact hu.2
    | some no => exact hu.2.1
  | no => exact hu.2.2
  | body => exact hu.2
  | method hmem => exact FunctionDecl.worded_of_mem hu.2.2 hmem
  | statement hmem => exact Stmt.worded_of_mem hu.2.2 hmem

/-- The trees that are made when a source is scanned and parsed: an expression, the
    statements of a program, and what stands in them. -/
inductive Made (source : String) : Subtree → Prop
  | expression {nextId e} :
      (parseExpression (tokensOf (scan source)) nextId).result = .ok e → Made source (.expr e)
  | statement {nextId program s} :
      (parseProgram (tokensOf (scan source)) nextId).result = .ok program → s ∈ program →
      Made source (.stmt s)
  | inside {t u} : t.Child u → Made source u → Made source t

theorem Made.worded {source : String} {t : Subtree} (h : Made source t)
    (hsource : PlainConstants source) : t.Worded := by
  induction h with
  | expression he => exact parseExpression_worded hsource he
  | statement hprogram hs => exact Stmt.worded_of_mem (parseProgram_worded hsource hprogram) hs
  | inside hchild _ ih => exact hchild.worded ih

/-! ## Main statement -/

/-- Of trees that are made from sources without strings and with finite numbers only, the
    text tells what they are: two expressions have the same text exactly if they are equal
    up to numbers of occurrences, lines, closing parentheses and the words that are kept for
    errors, and so have two statements. -/
theorem treeText_identifies {source source' : String} (hsource : PlainConstants source)
    (hsource' : PlainConstants source') :
    (∀ e e', Made source (.expr e) → Made source' (.expr e') →
      (e.treeText = e'.treeText ↔ e.stripped = e'.stripped)) ∧
    (∀ s s', Made source (.stmt s) → Made source' (.stmt s') →
      (s.treeText = s'.treeText ↔ s.stripped = s'.stripped)) :=
  ⟨fun _ _ he he' => Expr.treeText_eq_iff (he.worded hsource) (he'.worded hsource'),
    fun _ _ hs hs' => Stmt.treeText_eq_iff (hs.worded hsource) (hs'.worded hsource')⟩

/-- A line end before an operator is in the tree, but not in the text. -/
theorem treeText_identifies_lines : ∃ e e', PlainConstants "-1.50" ∧ PlainConstants "\n-1.50" ∧
    Made "-1.50" (.expr e) ∧ Made "\n-1.50" (.expr e') ∧ e ≠ e' ∧ e.treeText = e'.treeText := by
  obtain ⟨x, hx⟩ : ∃ x, (Number.Decimal.ofLexeme (['1'] ++ '.' :: ['5', '0'])).toFloat = x :=
    ⟨_, rfl⟩
  have hfinite : x.isFinite = true := by
    rw [← hx]
    decide +kernel
  have hspells : (TokenKind.number x).Spells "1.50".toList := by
    rw [← hx]
    exact Piece.spells_fraction (by simp) (by simp [Piece.isDigit]) (by simp)
      (by simp [Piece.isDigit])
  have hnumber : pieces "1.50".toList = [.token (.number x) "1.50".toList] := pieces_lexeme hspells
  have hcut : pieces "-1.50".toList = .token (.symbol .minus) ['-'] :: pieces "1.50".toList := by
    rw [show "-1.50".toList = '-' :: "1.50".toList from rfl, pieces]
    rfl
  have hcut' : pieces "\n-1.50".toList = .blank ['\n'] :: pieces "-1.50".toList := by
    rw [show "\n-1.50".toList = '\n' :: "-1.50".toList from rfl, pieces]
    rfl
  have htokens : tokensOf (scan "-1.50") =
      [⟨.symbol .minus, "-", 1⟩, ⟨.number x, "1.50", 1⟩, ⟨.eof, "", 1⟩] := by
    rw [scan, hcut, hnumber]
    rfl
  have htokens' : tokensOf (scan "\n-1.50") =
      [⟨.symbol .minus, "-", 2⟩, ⟨.number x, "1.50", 2⟩, ⟨.eof, "", 2⟩] := by
    rw [scan, hcut', hcut, hnumber]
    rfl
  have hplain : PlainConstants "-1.50" := by
    rw [PlainConstants, htokens]
    simp [hfinite]
  have hplain' : PlainConstants "\n-1.50" := by
    rw [PlainConstants, htokens']
    simp [hfinite]
  have hmade :
      Made "-1.50" (.expr (.unary (.symbol .minus) ⟨"-", 1⟩ (.literal (.number x)))) := by
    refine @Made.expression _ 0 _ ?_
    rw [htokens]
    cbv
  have hmade' :
      Made "\n-1.50" (.expr (.unary (.symbol .minus) ⟨"-", 2⟩ (.literal (.number x)))) := by
    refine @Made.expression _ 0 _ ?_
    rw [htokens']
    cbv
  refine ⟨_, _, hplain, hplain', hmade, hmade', fun heq => ?_, ?_⟩
  · cases heq
  · exact ((treeText_identifies hplain hplain').1 _ _ hmade hmade').mpr rfl

end Lox
