/-
  Lox.Proofs.Scoping.Wording

  What is certain about the words of a tree that was read from a source text.

    * `Token.Spelled` — a reserved word has its own spelling, and a name is no
      reserved word;
    * `tokensOf_scan` — scanning yields such tokens, and one end mark at the end;
    * `ExprPhrase.Derives.proper`, `StmtPhrase.Derives.proper` — so the grammar lets
      no variable be called `this` or `super`; `StmtPhrase.Derives.plain` — and whatever
      the words are, no statement of it is a declaration.
-/
import Lox.Proofs.Grammar.Rules
import Lox.Proofs.Scoping.Static
import Lox.Token.Piece

namespace Lox

/-! ## Tokens of a text -/

/-- Reserved words are spelled as such, and names are spelled otherwise. -/
structure Token.Spelled (t : Token) : Prop where
  name : t.kind = .identifier → Keyword.ofText? t.lexeme = none
  word : ∀ k, t.kind = .keyword k → t.lexeme = k.text

/-- A piece that is a token is no end mark and spelled as it should be. -/
def Piece.Spelled (p : Piece) : Prop :=
  ∀ kind text, p = .token kind text →
    kind ≠ .eof ∧ ∀ line, Token.Spelled ⟨kind, String.ofList text, line⟩

namespace Piece

theorem spelled_blank (text : List Char) : (blank text).Spelled := nofun

theorem spelled_fault (cause : LexicalFault) (text : List Char) :
    (fault cause text).Spelled := nofun

theorem spelled_symbol (s : Symbol) (text : List Char) : (token (.symbol s) text).Spelled := by
  rintro kind text' ⟨⟩
  exact ⟨nofun, fun line => ⟨nofun, nofun⟩⟩

theorem spelled_string (content : String) (text : List Char) :
    (token (.string content) text).Spelled := by
  rintro kind text' ⟨⟩
  exact ⟨nofun, fun line => ⟨nofun, nofun⟩⟩

theorem spelled_number (value : Float) (text : List Char) :
    (token (.number value) text).Spelled := by
  rintro kind text' ⟨⟩
  exact ⟨nofun, fun line => ⟨nofun, nofun⟩⟩

/-- A word is reserved exactly if its spelling is. -/
theorem spelled_word (text : List Char) : (token (wordKind (String.ofList text)) text).Spelled := by
  rintro kind text' ⟨⟩
  unfold wordKind
  cases hword : Keyword.ofText? (String.ofList text) with
  | none => exact ⟨nofun, fun line => ⟨fun _ => hword, nofun⟩⟩
  | some k =>
    refine ⟨nofun, fun line => ⟨nofun, ?_⟩⟩
    rintro _ ⟨⟩
    have hfound := List.find?_some hword
    exact (of_decide_eq_true hfound).symm

theorem spelled_first (c : Char) (cs : List Char) : (first c cs).1.Spelled := by
  unfold first
  split
  · exact spelled_blank _
  split
  · unfold ofQuote
    split
    · exact spelled_fault _ _
    · exact spelled_string _ _
  split
  · exact spelled_blank _
  split
  · exact spelled_number _ _
  split
  · exact spelled_word _
  split
  · unfold ofSymbol
    split
    · exact spelled_symbol _ _
    · exact spelled_symbol _ _
  · exact spelled_fault _ _

end Piece

theorem pieces_spelled (cs : List Char) : ∀ p ∈ pieces cs, p.Spelled := by
  fun_induction pieces cs with
  | case1 => exact fun p hp => absurd hp List.not_mem_nil
  | case2 c cs ih =>
    intro p hp
    rcases List.mem_cons.mp hp with rfl | hmem
    · exact Piece.spelled_first c cs
    · exact ih p hmem

theorem tokensOf_itemsOf {ps : List Piece} (hps : ∀ p ∈ ps, p.Spelled) (line : Nat) :
    ∃ before ending, tokensOf (itemsOf line ps) = before ++ [Token.endMark ending] ∧
      ∀ t ∈ before, t.kind ≠ .eof ∧ t.Spelled := by
  induction ps generalizing line with
  | nil => exact ⟨[], line, rfl, nofun⟩
  | cons p ps ih =>
    obtain ⟨before, ending, hbefore, hspelled⟩ :=
      ih (fun q hq => hps q (List.mem_cons_of_mem _ hq)) (line + newlines p.text)
    have hitems : tokensOf (itemsOf line (p :: ps)) =
        tokensOf (p.item? (line + newlines p.text)).toList ++
          tokensOf (itemsOf (line + newlines p.text) ps) := by
      rw [itemsOf, tokensOf, List.filterMap_append]
      rfl
    rw [hitems, hbefore]
    cases p with
    | blank text => exact ⟨before, ending, rfl, hspelled⟩
    | fault cause text => exact ⟨before, ending, rfl, hspelled⟩
    | token kind text =>
      obtain ⟨hkind, hword⟩ := hps _ List.mem_cons_self kind text rfl
      refine ⟨⟨kind, String.ofList text, _⟩ :: before, ending, rfl, ?_⟩
      intro t ht
      rcases List.mem_cons.mp ht with rfl | hmem
      · exact ⟨hkind, hword _⟩
      · exact hspelled t hmem

/-- The tokens of a text are spelled as they should be, and only the last one is an
    end mark. -/
theorem tokensOf_scan (source : String) :
    ∃ before ending, tokensOf (scan source) = before ++ [Token.endMark ending] ∧
      ∀ t ∈ before, t.kind ≠ .eof ∧ t.Spelled :=
  tokensOf_itemsOf (pieces_spelled source.toList) 1

theorem exists_endMark {source : String} : ∃ t ∈ tokensOf (scan source), t.kind = .eof := by
  obtain ⟨before, ending, htokens, -⟩ := tokensOf_scan source
  exact ⟨Token.endMark ending, by rw [htokens]; simp, rfl⟩

/-! ## Names in derived trees -/

/-- A name is neither `this` nor `super`. -/
theorem Token.Spelled.ordinary {t : Token} (h : t.Spelled) (hkind : t.kind = .identifier) :
    t.toLexeme.Ordinary := by
  have hname := h.name hkind
  constructor <;> intro htext
  · have hword : Keyword.ofText? t.lexeme = some .thisWord := by
      rw [show t.lexeme = "this" from htext]
      decide
    simp [hname] at hword
  · have hword : Keyword.ofText? t.lexeme = some .superWord := by
      rw [show t.lexeme = "super" from htext]
      decide
    simp [hname] at hword

def ExprPhrase.Proper : ExprPhrase → Prop
  | .expr _ e => e.Proper
  | .arguments es => Expr.ListProper es

theorem Between.proper {rule : Rule} {kind : TokenKind} {node : Lexeme → Expr → Expr → Expr}
    (h : Between rule kind node) (sign : Lexeme) {left right : Expr} (hleft : left.Proper)
    (hright : right.Proper) : (node sign left right).Proper := by
  cases h with
  | or => exact ⟨hleft, hright⟩
  | and => exact ⟨hleft, hright⟩
  | values hop => exact ⟨⟨_, hop⟩, hleft, hright⟩

theorem ExprPhrase.Derives.proper {phrase : ExprPhrase} {ts : List Token} (h : phrase.Derives ts)
    (hts : ∀ t ∈ ts, t.Spelled) : phrase.Proper := by
  induction h with
  | operand _ ih => exact ih hts
  | assignName hname _ _ ih =>
    simp only [List.forall_mem_cons] at hts
    exact ⟨hts.1.ordinary hname, ih hts.2.2⟩
  | assignProperty _ _ _ _ _ ihobject ihvalue =>
    simp only [List.forall_mem_append, List.forall_mem_cons] at hts
    exact ⟨ihobject hts.1, ihvalue hts.2.2.2.2⟩
  | between hnode _ _ ihleft ihright =>
    simp only [List.forall_mem_append, List.forall_mem_cons] at hts
    exact hnode.proper _ (ihleft hts.1) (ihright hts.2.2)
  | inFront hop _ ih =>
    simp only [List.forall_mem_cons] at hts
    exact ⟨hop, ih hts.2⟩
  | callEmpty _ _ _ ih =>
    simp only [List.forall_mem_append] at hts
    exact ⟨ih hts.1, trivial⟩
  | call _ _ _ _ ihcallee iharguments =>
    simp only [List.forall_mem_append, List.forall_mem_cons] at hts
    exact ⟨ihcallee hts.1, iharguments hts.2.2.1⟩
  | property _ _ _ ih =>
    simp only [List.forall_mem_append] at hts
    exact ih hts.1
  | constant _ => trivial
  | name _ => trivial
  | this hkind => exact (hts _ List.mem_cons_self).word _ hkind
  | super hkind _ _ => exact (hts _ List.mem_cons_self).word _ hkind
  | grouping _ _ _ ih =>
    simp only [List.forall_mem_append, List.forall_mem_cons] at hts
    exact ih hts.2.1
  | lastArgument _ ih => exact ⟨ih hts, trivial⟩
  | argument _ _ _ ihe ihes =>
    simp only [List.forall_mem_append, List.forall_mem_cons] at hts
    exact ⟨ihe hts.1, ihes hts.2.2⟩

theorem Optional.proper {e : Option Expr} {ts : List Token} (h : Optional e ts)
    (hts : ∀ t ∈ ts, t.Spelled) : Expr.OptionProper e := by
  cases h with
  | none => trivial
  | some he => exact he.proper hts

theorem Initializer.proper {e : Option Expr} {ts : List Token} (h : Initializer e ts)
    (hts : ∀ t ∈ ts, t.Spelled) : Expr.OptionProper e := by
  cases h with
  | none => trivial
  | some _ he => exact he.proper fun t ht => hts t (List.mem_cons_of_mem _ ht)

theorem Variable.proper {s : Stmt} {ts : List Token} (h : Variable s ts)
    (hts : ∀ t ∈ ts, t.Spelled) : s.Proper := by
  cases h with
  | mk hname hinitializer _ =>
    simp only [List.forall_mem_append, List.forall_mem_cons] at hts
    exact ⟨hts.1.ordinary hname, hinitializer.proper hts.2.1⟩

theorem First.proper {first : Option Stmt} {ts : List Token} (h : First first ts)
    (hts : ∀ t ∈ ts, t.Spelled) : ∀ s, first = some s → s.Proper := by
  rintro s rfl
  cases h with
  | var _ hvariable => exact hvariable.proper fun t ht => hts t (List.mem_cons_of_mem _ ht)
  | expression he _ => exact he.proper fun t ht => hts t (List.mem_append_left _ ht)

theorem Parameters.ordinary {names : List Lexeme} {ts : List Token} (h : Parameters names ts)
    (hts : ∀ t ∈ ts, t.Spelled) : ∀ p ∈ names, p.Ordinary := by
  induction h with
  | last hkind =>
    intro p hp
    cases List.mem_singleton.mp hp
    exact (hts _ List.mem_cons_self).ordinary hkind
  | more hkind _ _ ih =>
    simp only [List.forall_mem_cons] at hts
    intro p hp
    rcases List.mem_cons.mp hp with rfl | hmem
    · exact hts.1.ordinary hkind
    · exact ih hts.2.2 p hmem

/-- A `for` is a statement without declarations around it. -/
theorem Parser.proper_forTree {first : Option Stmt} {condition increment : Option Expr}
    {body : Stmt} (hfirst : ∀ s, first = some s → s.Proper)
    (hcondition : Expr.OptionProper condition) (hincrement : Expr.OptionProper increment)
    (hbody : body.Proper ∧ body.Plain) :
    (Parser.forTree first condition increment body).Proper ∧
      (Parser.forTree first condition increment body).Plain := by
  have hcondition : (condition.getD (.literal (.bool true))).Proper := by
    cases condition with
    | none => trivial
    | some e => exact hcondition
  -- The loop around the body, with the increment behind it if there is one.
  have hloop : (Parser.forTree none condition increment body).Proper := by
    cases increment with
    | none => exact ⟨hcondition, hbody⟩
    | some e => exact ⟨hcondition, ⟨hbody.1, hincrement, trivial⟩, trivial⟩
  cases first with
  | none => exact ⟨hloop, trivial⟩
  | some s => exact ⟨⟨hfirst s rfl, hloop, trivial⟩, trivial⟩

/-- A statement of the grammar is no declaration. -/
theorem StmtPhrase.Derives.plain {open_ : Bool} {s : Stmt} {ts : List Token}
    (h : (StmtPhrase.statement open_ s).Derives ts) : s.Plain := by
  cases h with
  | @«for» _ _ _ _ _ first => cases first <;> trivial
  | _ => trivial

def StmtPhrase.Proper : StmtPhrase → Prop
  | .declarations ss => Stmt.ListProper ss
  | .declaration s => s.Proper
  | .statement _ s => s.Proper ∧ s.Plain
  | .function decl => decl.name.Ordinary ∧ decl.Proper
  | .methods decls => FunctionDecl.ListProper decls

theorem StmtPhrase.Derives.proper {phrase : StmtPhrase} {ts : List Token} (h : phrase.Derives ts)
    (hts : ∀ t ∈ ts, t.Spelled) : phrase.Proper := by
  induction h with
  | noDeclarations => trivial
  | declarations _ _ ihs ihss =>
    simp only [List.forall_mem_append] at hts
    exact ⟨ihs hts.1, ihss hts.2⟩
  | «class» _ hname _ _ _ _ ih =>
    simp only [List.forall_mem_append, List.forall_mem_cons] at hts
    exact ⟨hts.2.1.ordinary hname, ih hts.2.2.2.2.1⟩
  | function _ _ ih => exact ih fun t ht => hts t (List.mem_cons_of_mem _ ht)
  | var _ hvariable => exact hvariable.proper fun t ht => hts t (List.mem_cons_of_mem _ ht)
  | statement _ ih => exact (ih hts).1
  | noMethods => trivial
  | methods _ _ ihd ihds =>
    simp only [List.forall_mem_append] at hts
    exact ⟨(ihd hts.1).2, ihds hts.2⟩
  | callable hname _ hnames _ _ _ _ ih =>
    simp only [List.forall_mem_append, List.forall_mem_cons] at hts
    refine ⟨hts.1.ordinary hname, ?_, ih hts.2.2.2.2.2.1⟩
    rcases hnames with ⟨rfl, _⟩ | hparameters
    · nofun
    · exact hparameters.ordinary hts.2.2.1
  | «break» _ _ => exact ⟨trivial, trivial⟩
  | «for» _ _ hfirst hcondition _ hincrement _ _ ih =>
    simp only [List.forall_mem_append, List.forall_mem_cons] at hts
    obtain ⟨_, _, hfs, hcs, _, his, _, hbs⟩ := hts
    exact Parser.proper_forTree (hfirst.proper hfs) (hcondition.proper hcs)
      (hincrement.proper his) (ih hbs)
  | «if» _ _ hcondition _ _ ih =>
    simp only [List.forall_mem_append, List.forall_mem_cons] at hts
    exact ⟨⟨hcondition.proper hts.2.2.1, ih hts.2.2.2.2⟩, trivial⟩
  | ifElse _ _ hcondition _ _ _ _ ihyes ihno =>
    simp only [List.forall_mem_append, List.forall_mem_cons] at hts
    obtain ⟨_, _, hcs, _, hys, _, hns⟩ := hts
    exact ⟨⟨hcondition.proper hcs, (ihyes hys).1, (ihyes hys).2, ihno hns⟩, trivial⟩
  | print _ he _ =>
    simp only [List.forall_mem_append, List.forall_mem_cons] at hts
    exact ⟨he.proper hts.2.1, trivial⟩
  | «return» _ he _ =>
    simp only [List.forall_mem_append, List.forall_mem_cons] at hts
    exact ⟨he.proper hts.2.1, trivial⟩
  | «while» _ _ hcondition _ _ ih =>
    simp only [List.forall_mem_append, List.forall_mem_cons] at hts
    exact ⟨⟨hcondition.proper hts.2.2.1, ih hts.2.2.2.2⟩, trivial⟩
  | block _ _ _ ih =>
    simp only [List.forall_mem_append, List.forall_mem_cons] at hts
    exact ⟨ih hts.2.1, trivial⟩
  | expression he _ =>
    simp only [List.forall_mem_append] at hts
    exact ⟨he.proper hts.1, trivial⟩

end Lox
