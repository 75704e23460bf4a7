/-
  Lox.Proofs.Sites.Wording

  Which tokens the faults of scopes stand at.

    * `Event.lexemes`, `Site.Words` — the tokens of which a site speaks, and what holds of
      them;
    * `Token.WordsAre` — what holds of the names and reserved words of a text;
    * `ExprPhrase.Derives.words`, `StmtPhrase.Derives.words` — then it holds at all sites
      of a tree that is read from the text;
    * `scopeFaults_at_words` — so scopes are only ever at fault at a name or a reserved word.
-/
import Lox.Proofs.Scoping.Agreement
import Lox.Proofs.Sites.Violations

namespace Lox

/-- The tokens of which a site speaks. -/
def Event.lexemes : Event → List Lexeme
  | .declaration name => [name]
  | .use written => [written.occurrence.name]
  | .return keyword _ => [keyword]
  | .inheritance name parent => [name, parent]

/-- All tokens of which a site speaks have some property. -/
def Site.Words (P : Lexeme → Prop) (site : Site) : Prop := ∀ name ∈ site.event.lexemes, P name

/-- So have the tokens of all uses in a list. -/
def Use.WordsOf (P : Lexeme → Prop) (uses : List Use) : Prop :=
  ∀ use ∈ uses, P use.occurrence.name

/-- A token has some property if it is a name or a reserved word. -/
def Token.WordsAre (P : Lexeme → Prop) (t : Token) : Prop :=
  (t.kind = .identifier → P t.toLexeme) ∧ ∀ k, t.kind = .keyword k → P t.toLexeme

variable {P : Lexeme → Prop}

theorem Site.Violates.name_mem {before : List Site} {site : Site} {fault : ScopeFault}
    {name : Lexeme} (h : site.Violates before fault name) : name ∈ site.event.lexemes := by
  cases h <;> simp [Event.lexemes]

/-! ## Expressions -/

theorem Use.wordsOf_append {us vs : List Use} :
    WordsOf P (us ++ vs) ↔ WordsOf P us ∧ WordsOf P vs :=
  List.forall_mem_append

theorem Use.wordsOf_single {kind : UseKind} {id : Nat} {name : Lexeme} (h : P name) :
    WordsOf P [⟨kind, ⟨id, name⟩⟩] :=
  List.forall_mem_singleton.mpr h

def ExprPhrase.Words (P : Lexeme → Prop) : ExprPhrase → Prop
  | .expr _ e => Use.WordsOf P e.uses
  | .arguments es => Use.WordsOf P (Expr.listUses es)

theorem Between.words {rule : Rule} {kind : TokenKind} {node : Lexeme → Expr → Expr → Expr}
    (h : Between rule kind node) (sign : Lexeme) {left right : Expr}
    (hleft : Use.WordsOf P left.uses) (hright : Use.WordsOf P right.uses) :
    Use.WordsOf P (node sign left right).uses := by
  cases h <;> exact Use.wordsOf_append.mpr ⟨hleft, hright⟩

theorem ExprPhrase.Derives.words {phrase : ExprPhrase} {ts : List Token} (h : phrase.Derives ts)
    (hts : ∀ t ∈ ts, t.WordsAre P) : phrase.Words P := by
  induction h with
  | operand _ ih => exact ih hts
  | assignName hname _ _ ih =>
    simp only [List.forall_mem_cons] at hts
    exact List.forall_mem_cons.mpr ⟨hts.1.1 hname, ih hts.2.2⟩
  | assignProperty _ _ _ _ _ ihobject ihvalue =>
    simp only [List.forall_mem_append, List.forall_mem_cons] at hts
    exact Use.wordsOf_append.mpr ⟨ihobject hts.1, ihvalue hts.2.2.2.2⟩
  | between hnode _ _ ihleft ihright =>
    simp only [List.forall_mem_append, List.forall_mem_cons] at hts
    exact hnode.words _ (ihleft hts.1) (ihright hts.2.2)
  | inFront _ _ ih =>
    simp only [List.forall_mem_cons] at hts
    exact ih hts.2
  | callEmpty _ _ _ ih =>
    simp only [List.forall_mem_append] at hts
    exact Use.wordsOf_append.mpr ⟨ih hts.1, List.forall_mem_nil _⟩
  | call _ _ _ _ ihcallee iharguments =>
    simp only [List.forall_mem_append, List.forall_mem_cons] at hts
    exact Use.wordsOf_append.mpr ⟨ihcallee hts.1, iharguments hts.2.2.1⟩
  | property _ _ _ ih =>
    simp only [List.forall_mem_append] at hts
    exact ih hts.1
  | constant _ => exact List.forall_mem_nil _
  | name hkind => exact Use.wordsOf_single ((hts _ List.mem_cons_self).1 hkind)
  | this hkind => exact Use.wordsOf_single ((hts _ List.mem_cons_self).2 _ hkind)
  | super hkind _ _ => exact Use.wordsOf_single ((hts _ List.mem_cons_self).2 _ hkind)
  | grouping _ _ _ ih =>
    simp only [List.forall_mem_append, List.forall_mem_cons] at hts
    exact ih hts.2.1
  | lastArgument _ ih => exact Use.wordsOf_append.mpr ⟨ih hts, List.forall_mem_nil _⟩
  | argument _ _ _ ihe ihes =>
    simp only [List.forall_mem_append, List.forall_mem_cons] at hts
    exact Use.wordsOf_append.mpr ⟨ihe hts.1, ihes hts.2.2⟩

/-! ## Sites -/

/-- All sites of a list have words with the property. -/
def Site.WordsOf (P : Lexeme → Prop) (sites : List Site) : Prop := ∀ site ∈ sites, site.Words P

namespace Site

variable {around : List Opening} {initializing : Option String}

theorem wordsOf_append {sites more : List Site} :
    WordsOf P (sites ++ more) ↔ WordsOf P sites ∧ WordsOf P more :=
  List.forall_mem_append

theorem wordsOf_cons {site : Site} {sites : List Site} :
    WordsOf P (site :: sites) ↔ site.Words P ∧ WordsOf P sites :=
  List.forall_mem_cons

theorem words_single {event : Event} {name : Lexeme} (hevent : event.lexemes = [name])
    (h : P name) : Words P ⟨around, initializing, event⟩ := by
  unfold Words
  rw [hevent]
  exact List.forall_mem_singleton.mpr h

theorem words_declaration {name : Lexeme} (h : P name) :
    Words P ⟨around, initializing, .declaration name⟩ :=
  words_single rfl h

theorem wordsOf_ofUses {uses : List Use} (h : Use.WordsOf P uses) :
    WordsOf P (ofUses around initializing uses) := by
  intro site hsite
  obtain ⟨use, huse, rfl⟩ := List.mem_map.mp hsite
  exact words_single rfl (h use huse)

end Site

/-- Wherever a statement stands, its sites have words with the property. -/
def Stmt.Words (P : Lexeme → Prop) (s : Stmt) : Prop :=
  ∀ around place, Site.WordsOf P (s.sites around place)

def Stmt.ListWords (P : Lexeme → Prop) (ss : List Stmt) : Prop :=
  ∀ around place index, Site.WordsOf P (Stmt.listSites around place index ss)

def StmtPhrase.Words (P : Lexeme → Prop) : StmtPhrase → Prop
  | .declarations ss => Stmt.ListWords P ss
  | .declaration s => s.Words P
  | .statement _ s => s.Words P
  | .function decl =>
    P decl.name ∧ ∀ kind around place, Site.WordsOf P (decl.sites kind around place)
  | .methods decls =>
    ∀ around place index, Site.WordsOf P (FunctionDecl.listSites around place index decls)

/-! ## Statements -/

theorem Optional.words {e : Option Expr} {ts : List Token} (h : Optional e ts)
    (hts : ∀ t ∈ ts, t.WordsAre P) : Use.WordsOf P (Expr.optionUses e) := by
  cases h with
  | none => exact nofun
  | some he => exact he.words hts

theorem Initializer.words {e : Option Expr} {ts : List Token} (h : Initializer e ts)
    (hts : ∀ t ∈ ts, t.WordsAre P) : Use.WordsOf P (Expr.optionUses e) := by
  cases h with
  | none => exact nofun
  | some _ he => exact he.words fun t ht => hts t (List.mem_cons_of_mem _ ht)

theorem Variable.words {s : Stmt} {ts : List Token} (h : Variable s ts)
    (hts : ∀ t ∈ ts, t.WordsAre P) : s.Words P := by
  cases h with
  | mk hname hinitializer _ =>
    simp only [List.forall_mem_append, List.forall_mem_cons] at hts
    exact fun around place => Site.wordsOf_cons.mpr
      ⟨Site.words_declaration (hts.1.1 hname), Site.wordsOf_ofUses (hinitializer.words hts.2.1)⟩

theorem First.words {first : Option Stmt} {ts : List Token} (h : First first ts)
    (hts : ∀ t ∈ ts, t.WordsAre P) : ∀ s, first = some s → s.Words P := by
  rintro s rfl
  cases h with
  | var _ hvariable => exact hvariable.words fun t ht => hts t (List.mem_cons_of_mem _ ht)
  | expression he _ =>
    exact fun around place => Site.wordsOf_ofUses
      (ExprPhrase.Derives.words he fun t ht => hts t (List.mem_append_left _ ht))

theorem Parameters.words {names : List Lexeme} {ts : List Token} (h : Parameters names ts)
    (hts : ∀ t ∈ ts, t.WordsAre P) : ∀ p ∈ names, P p := by
  induction h with
  | last hkind => exact List.forall_mem_singleton.mpr ((hts _ List.mem_cons_self).1 hkind)
  | more hkind _ _ ih =>
    simp only [List.forall_mem_cons] at hts
    exact List.forall_mem_cons.mpr ⟨hts.1.1 hkind, ih hts.2.2⟩

theorem SuperclassClause.words {superclass : Option Occurrence} {ts : List Token}
    (h : SuperclassClause superclass ts) (hts : ∀ t ∈ ts, t.WordsAre P) :
    ∀ use, superclass = Option.some use → P use.name := by
  rintro use rfl
  cases h with
  | some _ hname =>
    simp only [List.forall_mem_cons] at hts
    exact hts.2.1.1 hname

/-- Statements one after another in a block. -/
theorem Stmt.listWords_pair {s s' : Stmt} (hs : s.Words P) (hs' : s'.Words P) :
    Stmt.ListWords P [s, s'] := fun around _ _ =>
  Site.wordsOf_append.mpr ⟨hs around _, Site.wordsOf_append.mpr ⟨hs' around _, nofun⟩⟩

theorem Stmt.words_block {ss : List Stmt} (h : Stmt.ListWords P ss) : (Stmt.block ss).Words P :=
  fun _ _ => h _ _ _

theorem Stmt.words_while {condition : Expr} {body : Stmt}
    (hcondition : Use.WordsOf P condition.uses) (hbody : body.Words P) : (Stmt.while condition body).Words P := fun _ _ =>
  Site.wordsOf_append.mpr ⟨Site.wordsOf_ofUses hcondition, hbody _ _⟩

/-- The words of a `for` are those of its parts. -/
theorem Parser.words_forTree {first : Option Stmt} {condition increment : Option Expr} {body : Stmt}
    (hfirst : ∀ s, first = some s → s.Words P)
    (hcondition : Use.WordsOf P (Expr.optionUses condition))
    (hincrement : Use.WordsOf P (Expr.optionUses increment)) (hbody : body.Words P) :
    (Parser.forTree first condition increment body).Words P := by
  have hcondition : Use.WordsOf P (condition.getD (.literal (.bool true))).uses := by
    cases condition with
    | none => exact nofun
    | some e => exact hcondition
  have hloop : (Parser.forTree none condition increment body).Words P := by
    cases increment with
    | none => exact Stmt.words_while hcondition hbody
    | some e =>
      have hmore : (Stmt.expression e).Words P := fun _ _ => Site.wordsOf_ofUses hincrement
      exact Stmt.words_while hcondition (Stmt.words_block (Stmt.listWords_pair hbody hmore))
  cases first with
  | none => exact hloop
  | some s => exact Stmt.words_block (Stmt.listWords_pair (hfirst s rfl) hloop)

theorem StmtPhrase.Derives.words {phrase : StmtPhrase} {ts : List Token} (h : phrase.Derives ts)
    (hts : ∀ t ∈ ts, t.WordsAre P) : phrase.Words P := by
  induction h with
  | noDeclarations => exact fun _ _ _ => nofun
  | declarations _ _ ihs ihss =>
    simp only [List.forall_mem_append] at hts
    exact fun around _ _ => Site.wordsOf_append.mpr ⟨ihs hts.1 around _, ihss hts.2 _ _ _⟩
  | @«class» _ _ _ _ superclass _ _ _ _ hname hsuperclass _ _ _ ih =>
    simp only [List.forall_mem_append, List.forall_mem_cons] at hts
    have hdeclared := hts.2.1.1 hname
    have hmethods := ih hts.2.2.2.2.1
    intro around place
    cases superclass with
    | none => exact Site.wordsOf_cons.mpr ⟨Site.words_declaration hdeclared, hmethods _ _ _⟩
    | some use =>
      have hparent := hsuperclass.words hts.2.2.1 use rfl
      have hboth : ∀ name ∈ [_, use.name], P name :=
        List.forall_mem_cons.mpr ⟨hdeclared, List.forall_mem_singleton.mpr hparent⟩
      exact Site.wordsOf_cons.mpr ⟨Site.words_declaration hdeclared, Site.wordsOf_cons.mpr
        ⟨hboth, Site.wordsOf_cons.mpr ⟨Site.words_single rfl hparent, hmethods _ _ _⟩⟩⟩
  | function _ _ ih =>
    have hdecl := ih fun t ht => hts t (List.mem_cons_of_mem _ ht)
    exact fun _ _ => Site.wordsOf_cons.mpr ⟨Site.words_declaration hdecl.1, hdecl.2 _ _ _⟩
  | var _ hvariable => exact hvariable.words fun t ht => hts t (List.mem_cons_of_mem _ ht)
  | statement _ ih => exact ih hts
  | noMethods => exact fun _ _ _ => nofun
  | methods _ _ ihd ihds =>
    simp only [List.forall_mem_append] at hts
    exact fun _ _ _ => Site.wordsOf_append.mpr ⟨(ihd hts.1).2 _ _ _, ihds hts.2 _ _ _⟩
  | callable hname _ hnames _ _ _ _ ih =>
    simp only [List.forall_mem_append, List.forall_mem_cons] at hts
    refine ⟨hts.1.1 hname, fun kind around place => Site.wordsOf_append.mpr ⟨?_, ?_⟩⟩
    · intro site hsite
      obtain ⟨p, hp, rfl⟩ := List.mem_map.mp hsite
      rcases hnames with ⟨rfl, _⟩ | hparameters
      · cases hp
      · exact Site.words_declaration (hparameters.words hts.2.2.1 p hp)
    · exact ih hts.2.2.2.2.2.1 _ _ _
  | «break» _ _ => exact fun _ _ => nofun
  | «for» _ _ hfirst hcondition _ hincrement _ _ ih =>
    simp only [List.forall_mem_append, List.forall_mem_cons] at hts
    obtain ⟨_, _, hfs, hcs, _, his, _, hbs⟩ := hts
    exact Parser.words_forTree (hfirst.words hfs) (hcondition.words hcs) (hincrement.words his)
      (ih hbs)
  | «if» _ _ hcondition _ _ ih =>
    simp only [List.forall_mem_append, List.forall_mem_cons] at hts
    exact fun _ _ => Site.wordsOf_append.mpr
      ⟨Site.wordsOf_ofUses (ExprPhrase.Derives.words hcondition hts.2.2.1), ih hts.2.2.2.2 _ _⟩
  | ifElse _ _ hcondition _ _ _ _ ihyes ihno =>
    simp only [List.forall_mem_append, List.forall_mem_cons] at hts
    obtain ⟨_, _, hcs, _, hys, _, hns⟩ := hts
    exact fun _ _ => Site.wordsOf_append.mpr ⟨Site.wordsOf_append.mpr
      ⟨Site.wordsOf_ofUses (ExprPhrase.Derives.words hcondition hcs), ihyes hys _ _⟩, ihno hns _ _⟩
  | print _ he _ =>
    simp only [List.forall_mem_append, List.forall_mem_cons] at hts
    exact fun _ _ => Site.wordsOf_ofUses (ExprPhrase.Derives.words he hts.2.1)
  | «return» hkind he _ =>
    simp only [List.forall_mem_append, List.forall_mem_cons] at hts
    exact fun _ _ => Site.wordsOf_cons.mpr
      ⟨Site.words_single rfl (hts.1.2 _ hkind), Site.wordsOf_ofUses (he.words hts.2.1)⟩
  | «while» _ _ hcondition _ _ ih =>
    simp only [List.forall_mem_append, List.forall_mem_cons] at hts
    exact Stmt.words_while (ExprPhrase.Derives.words hcondition hts.2.2.1) (ih hts.2.2.2.2)
  | block _ _ _ ih =>
    simp only [List.forall_mem_append, List.forall_mem_cons] at hts
    exact Stmt.words_block (ih hts.2.1)
  | expression he _ =>
    simp only [List.forall_mem_append] at hts
    exact fun _ _ => Site.wordsOf_ofUses (ExprPhrase.Derives.words he hts.1)

/-! ## Faults of scopes -/

/-- A fault of scopes at a token with some property. -/
def Diagnostic.ScopeAt (P : Lexeme → Prop) (d : Diagnostic) : Prop :=
  ∃ name fault, P name ∧ d = .scope name.line (.atLexeme name.text) fault

theorem resolveProgram_faults {program : List Stmt} {ds : List Diagnostic}
    (hprogram : Stmt.ListWords P program) (h : resolveProgram program = .error ds) :
    ∀ d ∈ ds, d.ScopeAt P := by
  obtain ⟨found, -, hfound, hresult⟩ := resolveProgram_reports program
  rw [h] at hresult
  intro d hd
  obtain ⟨⟨i, fault, name⟩, hmem, rfl⟩ := List.mem_map.mp (hresult.2.mem_iff.mp hd)
  obtain ⟨site, hsite, hviolates⟩ := (hfound i fault name).mp hmem
  exact ⟨name, fault,
    hprogram _ _ _ site (List.mem_of_getElem? hsite) name hviolates.name_mem, rfl⟩

variable {source : String} {nextId : Nat} {ds : List Diagnostic}
  (hsource : ∀ t ∈ tokensOf (scan source), t.WordsAre P)
include hsource

/-- Scopes are at fault only at names and reserved words of the text. -/
theorem scopeFaults_at_words {program : List Stmt}
    (hparse : (parseProgram (tokensOf (scan source)) nextId).result = .ok program)
    (h : resolveProgram program = .error ds) : ∀ d ∈ ds, d.ScopeAt P := by
  obtain ⟨read, rest, hread, hprogram, -⟩ := Parser.read_of_scan Parser.reads_program hparse
  exact resolveProgram_faults
    (StmtPhrase.Derives.words hprogram.derives fun t ht => hsource t (hread t ht).1) h

/-- So it is in an expression that stands alone. -/
theorem expression_scopeFaults_at_words {e : Expr}
    (hparse : (parseExpression (tokensOf (scan source)) nextId).result = .ok e)
    (h : resolveExpression e = .error ds) : ∀ d ∈ ds, d.ScopeAt P := by
  obtain ⟨read, rest, hread, he⟩ := Parser.read_of_scan
    (fun n => (Parser.reads_expression n).shorter (Nat.le_succ n)) hparse
  have huses : Use.WordsOf P e.uses :=
    ExprPhrase.Derives.words he.part.derives fun t ht => hsource t (hread t ht).1
  -- An expression is walked as the one that a program prints.
  have hprogram : Stmt.ListWords P [.print e] :=
    fun _ _ _ => Site.wordsOf_append.mpr ⟨Site.wordsOf_ofUses huses, nofun⟩
  exact resolveProgram_faults hprogram h

end Lox
