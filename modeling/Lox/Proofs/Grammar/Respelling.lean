/-
  Lox.Proofs.Grammar.Respelling

  The grammar does not look at names: a tree that is like a derived one is derived
  from tokens that are like its tokens.  Only the tokens of the names that differ
  are others.
-/
import Lox.Proofs.Grammar.Alike

namespace Lox

variable {R : String → String → Prop}

/-! ## Tokens that stay -/

theorem Token.Alike.symbol {t : Token} {symbol : Symbol} (h : t.kind = .symbol symbol) :
    t.Alike R t :=
  .of_fixed (by rw [h]; nofun)

theorem Token.Alike.keyword {t : Token} {word : Keyword} (h : t.kind = .keyword word) :
    t.Alike R t :=
  .of_fixed (by rw [h]; nofun)

theorem Between.fixed {rule : Rule} {t : Token} {node : Lexeme → Expr → Expr → Expr}
    (h : Between rule t.kind node) : t.Alike R t := by
  apply Token.Alike.of_fixed
  generalize t.kind = kind at h
  cases h with
  | or => nofun
  | and => nofun
  | values hop => cases hop <;> nofun

theorem InFront.fixed {t : Token} (h : InFront t.kind) : t.Alike R t := by
  apply Token.Alike.of_fixed
  generalize t.kind = kind at h
  cases h <;> nofun

theorem Constant.fixed {t : Token} {value : Literal} (h : Constant t.kind value) :
    t.Alike R t := by
  apply Token.Alike.of_fixed
  generalize t.kind = kind at h
  cases h <;> nofun

/-- The nodes of operators keep their operators. -/
theorem Between.alike {rule : Rule} {kind : TokenKind} {node : Lexeme → Expr → Expr → Expr}
    {sign : Lexeme} {left right : Expr} {e : Expr} (hnode : Between rule kind node)
    (h : (node sign left right).Alike R e) :
    ∃ left' right', e = node sign left' right' ∧ left.Alike R left' ∧ right.Alike R right' := by
  cases hnode <;> cases h <;> exact ⟨_, _, rfl, ‹_›, ‹_›⟩

/-! ## Phrases -/

section

variable (R)

/-- Phrases that differ in names only. -/
inductive ExprPhrase.Alike : ExprPhrase → ExprPhrase → Prop
  | expr {rule e e'} : e.Alike R e' → Alike (.expr rule e) (.expr rule e')
  | arguments {es es'} : Expr.ListAlike R es es' → Alike (.arguments es) (.arguments es')

/-- Phrases that differ in names only. -/
inductive StmtPhrase.Alike : StmtPhrase → StmtPhrase → Prop
  | declarations {ss ss'} :
      Stmt.ListAlike R ss ss' → Alike (.declarations ss) (.declarations ss')
  | declaration {s s'} : s.Alike R s' → Alike (.declaration s) (.declaration s')
  | statement {open_ s s'} :
      s.Alike R s' → Alike (.statement open_ s) (.statement open_ s')
  | function {d d'} : Stmt.DeclAlike R d d' → Alike (.function d) (.function d')
  | methods {ds ds'} : Stmt.DeclsAlike R ds ds' → Alike (.methods ds) (.methods ds')

/-- Some tokens with the property differ from the given ones in names only. -/
def Respells (ts : List Token) (P : List Token → Prop) : Prop :=
  ∃ ts', List.Forall₂ (Token.Alike R) ts ts' ∧ P ts'

end

/-! ## Expressions -/

/-- An expression that is like a derived one is derived from tokens like its own. -/
theorem ExprPhrase.Derives.respell {p : ExprPhrase} {ts : List Token} (h : p.Derives ts)
    {p' : ExprPhrase} (halike : p.Alike R p') : Respells R ts p'.Derives := by
  induction h generalizing p' with
  | operand _ ih =>
    cases halike with | expr he =>
    obtain ⟨ts', hts, hderives⟩ := ih (.expr he)
    exact ⟨ts', hts, .operand hderives⟩
  | assignName hname hequals _ ih =>
    cases halike with | expr he =>
    cases he with | @assign _ target' _ _ ht hv =>
    obtain ⟨id', name'⟩ := target'
    obtain ⟨u, hu, hname', rfl⟩ := Token.Alike.of_name hname ht.name
    obtain ⟨vs', hvs, hvalue⟩ := ih (.expr hv)
    exact ⟨_, .cons hu (.cons (.symbol hequals) hvs), .assignName hname' hequals hvalue⟩
  | assignProperty _ hdot hname hequals _ iho ihv =>
    cases halike with | expr he =>
    cases he with | set ho hp hv =>
    obtain ⟨u, hu, hname', rfl⟩ := Token.Alike.of_name hname hp
    obtain ⟨os', hos, hobject⟩ := iho (.expr ho)
    obtain ⟨vs', hvs, hvalue⟩ := ihv (.expr hv)
    refine ⟨_, List.rel_append hos ?_, .assignProperty hobject hdot hname' hequals hvalue⟩
    exact .cons (.symbol hdot) (.cons hu (.cons (.symbol hequals) hvs))
  | between hbetween _ _ ihl ihr =>
    cases halike with | expr he =>
    obtain ⟨left', right', rfl, hl, hr⟩ := hbetween.alike he
    obtain ⟨ls', hls, hleft⟩ := ihl (.expr hl)
    obtain ⟨rs', hrs, hright⟩ := ihr (.expr hr)
    exact ⟨_, List.rel_append hls (.cons hbetween.fixed hrs), .between hbetween hleft hright⟩
  | inFront hfront _ ih =>
    cases halike with | expr he =>
    cases he with | unary ho =>
    obtain ⟨ts', hts, hoperand⟩ := ih (.expr ho)
    exact ⟨_, .cons hfront.fixed hts, .inFront hfront hoperand⟩
  | callEmpty _ hopening hclosing ih =>
    cases halike with | expr he =>
    cases he with | call hc hes =>
    cases hes
    obtain ⟨cs', hcs, hcallee⟩ := ih (.expr hc)
    refine ⟨_, List.rel_append hcs ?_, .callEmpty hcallee hopening hclosing⟩
    exact .cons (.symbol hopening) (.cons (.symbol hclosing) .nil)
  | call _ hopening _ hclosing ihc ihs =>
    cases halike with | expr he =>
    cases he with | call hc hes =>
    obtain ⟨cs', hcs, hcallee⟩ := ihc (.expr hc)
    obtain ⟨ts', hts, harguments⟩ := ihs (.arguments hes)
    refine ⟨_, List.rel_append hcs ?_, .call hcallee hopening harguments hclosing⟩
    exact .cons (.symbol hopening) (List.rel_append hts (.cons (.symbol hclosing) .nil))
  | property _ hdot hname ih =>
    cases halike with | expr he =>
    cases he with | get ho hp =>
    obtain ⟨u, hu, hname', rfl⟩ := Token.Alike.of_name hname hp
    obtain ⟨os', hos, hobject⟩ := ih (.expr ho)
    refine ⟨_, List.rel_append hos ?_, .property hobject hdot hname'⟩
    exact .cons (.symbol hdot) (.cons hu .nil)
  | constant hconstant =>
    cases halike with | expr he =>
    cases he
    exact ⟨_, .cons hconstant.fixed .nil, .constant hconstant⟩
  | name hname =>
    cases halike with | expr he =>
    cases he with | @name _ use' huse =>
    obtain ⟨id', name'⟩ := use'
    obtain ⟨u, hu, hname', rfl⟩ := Token.Alike.of_name hname huse.name
    exact ⟨_, .cons hu .nil, .name hname'⟩
  | this hthis =>
    cases halike with | expr he =>
    cases he
    exact ⟨_, .cons (.keyword hthis) .nil, .this hthis⟩
  | super hsuper hdot hmethod =>
    cases halike with | expr he =>
    cases he with | super hm =>
    obtain ⟨u, hu, hmethod', rfl⟩ := Token.Alike.of_name hmethod hm
    refine ⟨_, ?_, .super hsuper hdot hmethod'⟩
    exact .cons (.keyword hsuper) (.cons (.symbol hdot) (.cons hu .nil))
  | grouping hopening _ hclosing ih =>
    cases halike with | expr he =>
    cases he with | grouping hi =>
    obtain ⟨ts', hts, hinner⟩ := ih (.expr hi)
    refine ⟨_, .cons (.symbol hopening) ?_, .grouping hopening hinner hclosing⟩
    exact List.rel_append hts (.cons (.symbol hclosing) .nil)
  | lastArgument _ ih =>
    cases halike with | arguments hes =>
    cases hes with | cons he hes =>
    cases hes
    obtain ⟨ts', hts, hargument⟩ := ih (.expr he)
    exact ⟨ts', hts, .lastArgument hargument⟩
  | argument _ hcomma _ ihe ihes =>
    cases halike with | arguments hes =>
    cases hes with | cons he hes =>
    obtain ⟨ts', hts, hargument⟩ := ihe (.expr he)
    obtain ⟨us', hus, harguments⟩ := ihes (.arguments hes)
    exact ⟨_, List.rel_append hts (.cons (.symbol hcomma) hus),
      .argument hargument hcomma harguments⟩

theorem Expr.Derives.respell {e e' : Expr} {ts : List Token} (h : e.Derives ts)
    (halike : e.Alike R e') : Respells R ts e'.Derives :=
  ExprPhrase.Derives.respell h (.expr halike)

/-! ## Statements -/

theorem Parameters.respell {names names' : List Lexeme} {ts : List Token} (h : Parameters names ts)
    (halike : List.Forall₂ (Lexeme.Alike R) names names') : Respells R ts (Parameters names') := by
  induction h generalizing names' with
  | last hname =>
    cases halike with | cons hn hns =>
    cases hns
    obtain ⟨u, hu, hname', rfl⟩ := Token.Alike.of_name hname hn
    exact ⟨_, .cons hu .nil, .last hname'⟩
  | more hname hcomma _ ih =>
    cases halike with | cons hn hns =>
    obtain ⟨u, hu, hname', rfl⟩ := Token.Alike.of_name hname hn
    obtain ⟨ts', hts, hmore⟩ := ih hns
    exact ⟨_, .cons hu (.cons (.symbol hcomma) hts), .more hname' hcomma hmore⟩

theorem Parameters.respell_optional {names names' : List Lexeme} {ts : List Token}
    (h : names = [] ∧ ts = [] ∨ Parameters names ts)
    (halike : List.Forall₂ (Lexeme.Alike R) names names') :
    Respells R ts fun ts' => names' = [] ∧ ts' = [] ∨ Parameters names' ts' := by
  rcases h with ⟨rfl, rfl⟩ | h
  · cases halike
    exact ⟨[], .nil, .inl ⟨rfl, rfl⟩⟩
  · obtain ⟨ts', hts, h'⟩ := h.respell halike
    exact ⟨ts', hts, .inr h'⟩

theorem SuperclassClause.respell {parent parent' : Option Occurrence} {ts : List Token}
    (h : SuperclassClause parent ts) (halike : Option.Rel (Occurrence.Alike R) parent parent') :
    Respells R ts (SuperclassClause parent') := by
  cases h with
  | none =>
    cases halike
    exact ⟨[], .nil, .none⟩
  | some hless hname =>
    cases halike with | @some _ use' huse =>
    obtain ⟨id', name'⟩ := use'
    obtain ⟨u, hu, hname', rfl⟩ := Token.Alike.of_name hname huse.name
    exact ⟨_, .cons (.symbol hless) (.cons hu .nil), .some hless hname'⟩

theorem Optional.respell {e e' : Option Expr} {ts : List Token} (h : Optional e ts)
    (halike : Option.Rel (Expr.Alike R) e e') : Respells R ts (Optional e') := by
  cases h with
  | none =>
    cases halike
    exact ⟨[], .nil, .none⟩
  | some he =>
    cases halike with | some ha =>
    obtain ⟨ts', hts, he'⟩ := he.respell ha
    exact ⟨ts', hts, .some he'⟩

theorem Initializer.respell {e e' : Option Expr} {ts : List Token} (h : Initializer e ts)
    (halike : Option.Rel (Expr.Alike R) e e') : Respells R ts (Initializer e') := by
  cases h with
  | none =>
    cases halike
    exact ⟨[], .nil, .none⟩
  | some hequals he =>
    cases halike with | some ha =>
    obtain ⟨ts', hts, he'⟩ := he.respell ha
    exact ⟨_, .cons (.symbol hequals) hts, .some hequals he'⟩

theorem Variable.respell {s s' : Stmt} {ts : List Token} (h : Variable s ts)
    (halike : s.Alike R s') : Respells R ts (Variable s') := by
  cases h with
  | mk hname hinitializer hsemicolon =>
    cases halike with | var hn he =>
    obtain ⟨u, hu, hname', rfl⟩ := Token.Alike.of_name hname hn
    obtain ⟨ts', hts, hinitializer'⟩ := hinitializer.respell he
    refine ⟨_, .cons hu ?_, .mk hname' hinitializer' hsemicolon⟩
    exact List.rel_append hts (.cons (.symbol hsemicolon) .nil)

theorem First.respell {s s' : Option Stmt} {ts : List Token} (h : First s ts)
    (halike : Option.Rel (Stmt.Alike R) s s') : Respells R ts (First s') := by
  cases h with
  | none hsemicolon =>
    cases halike
    exact ⟨_, .cons (.symbol hsemicolon) .nil, .none hsemicolon⟩
  | var hword hvariable =>
    cases halike with | some hs =>
    obtain ⟨ts', hts, hvariable'⟩ := hvariable.respell hs
    exact ⟨_, .cons (.keyword hword) hts, .var hword hvariable'⟩
  | expression he hsemicolon =>
    cases halike with | some hs =>
    cases hs with | expression ha =>
    obtain ⟨ts', hts, he'⟩ := he.respell ha
    exact ⟨_, List.rel_append hts (.cons (.symbol hsemicolon) .nil), .expression he' hsemicolon⟩

/-- What is like the tree of a `for` is such a tree. -/
theorem Stmt.Alike.forTree {first : Option Stmt} {condition increment : Option Expr} {body s : Stmt}
    (h : (Parser.forTree first condition increment body).Alike R s) :
    ∃ first' condition' increment' body', s = Parser.forTree first' condition' increment' body' ∧
      Option.Rel (Stmt.Alike R) first first' ∧ Option.Rel (Expr.Alike R) condition condition' ∧
      Option.Rel (Expr.Alike R) increment increment' ∧ body.Alike R body' := by
  have hloop {s : Stmt} (h : (Parser.forTree none condition increment body).Alike R s) :
      ∃ condition' increment' body', s = Parser.forTree none condition' increment' body' ∧
        Option.Rel (Expr.Alike R) condition condition' ∧
        Option.Rel (Expr.Alike R) increment increment' ∧ body.Alike R body' := by
    cases h with | @«while» _ c' _ _ hc hround =>
    have hcondition : ∃ condition', c' = condition'.getD (.literal (.bool true)) ∧
        Option.Rel (Expr.Alike R) condition condition' := by
      cases condition with
      | none =>
        cases hc
        exact ⟨none, rfl, .none⟩
      | some c => exact ⟨some c', rfl, .some hc⟩
    obtain ⟨condition', rfl, hcondition⟩ := hcondition
    cases increment with
    | none => exact ⟨condition', none, _, rfl, hcondition, .none, hround⟩
    | some e =>
      cases hround with | block hround =>
      cases hround with | cons hbody hround =>
      cases hround with | cons he hround =>
      cases he with | expression he =>
      cases hround
      exact ⟨condition', some _, _, rfl, hcondition, .some he, hbody⟩
  cases first with
  | none =>
    obtain ⟨condition', increment', body', rfl, hparts⟩ := hloop h
    exact ⟨none, condition', increment', body', rfl, .none, hparts⟩
  | some first =>
    cases h with | block h =>
    cases h with | cons hfirst h =>
    cases h with | cons h hrest =>
    cases hrest
    obtain ⟨condition', increment', body', rfl, hparts⟩ := hloop h
    exact ⟨some _, condition', increment', body', rfl, .some hfirst, hparts⟩

/-- A program that is like a derived one is derived from tokens like its own. -/
theorem StmtPhrase.Derives.respell {p : StmtPhrase} {ts : List Token} (h : p.Derives ts)
    {p' : StmtPhrase} (halike : p.Alike R p') : Respells R ts p'.Derives := by
  induction h generalizing p' with
  | noDeclarations =>
    cases halike with | declarations hss =>
    cases hss
    exact ⟨[], .nil, .noDeclarations⟩
  | declarations _ _ ihs ihss =>
    cases halike with | declarations hss =>
    cases hss with | cons hs hss =>
    obtain ⟨ts', hts, hfirst⟩ := ihs (.declaration hs)
    obtain ⟨us', hus, hrest⟩ := ihss (.declarations hss)
    exact ⟨_, List.rel_append hts hus, .declarations hfirst hrest⟩
  | «class» hword hname hsuper hopening _ hclosing ih =>
    cases halike with | declaration hs =>
    cases hs with | «class» hn hp hds =>
    obtain ⟨u, hu, hname', rfl⟩ := Token.Alike.of_name hname hn
    obtain ⟨ss', hss, hsuper'⟩ := hsuper.respell hp
    obtain ⟨ms', hms, hmethods⟩ := ih (.methods hds)
    refine ⟨_, ?_, .class hword hname' hsuper' hopening hmethods hclosing⟩
    refine .cons (.keyword hword) (.cons hu (List.rel_append hss ?_))
    exact .cons (.symbol hopening) (List.rel_append hms (.cons (.symbol hclosing) .nil))
  | function hword _ ih =>
    cases halike with | declaration hs =>
    cases hs with | function hd =>
    obtain ⟨ts', hts, hdecl⟩ := ih (.function hd)
    exact ⟨_, .cons (.keyword hword) hts, .function hword hdecl⟩
  | var hword hvariable =>
    cases halike with | declaration hs =>
    obtain ⟨ts', hts, hvariable'⟩ := hvariable.respell hs
    exact ⟨_, .cons (.keyword hword) hts, .var hword hvariable'⟩
  | statement _ ih =>
    cases halike with | declaration hs =>
    obtain ⟨ts', hts, hstatement⟩ := ih (.statement hs)
    exact ⟨ts', hts, .statement hstatement⟩
  | noMethods =>
    cases halike with | methods hds =>
    cases hds
    exact ⟨[], .nil, .noMethods⟩
  | methods _ _ ihd ihds =>
    cases halike with | methods hds =>
    cases hds with | cons hd hds =>
    obtain ⟨ts', hts, hfirst⟩ := ihd (.function hd)
    obtain ⟨us', hus, hrest⟩ := ihds (.methods hds)
    exact ⟨_, List.rel_append hts hus, .methods hfirst hrest⟩
  | callable hname hopening hparameters hclosing hleft _ hright ih =>
    cases halike with | function hd =>
    cases hd with | mk hn hps hss =>
    obtain ⟨u, hu, hname', rfl⟩ := Token.Alike.of_name hname hn
    obtain ⟨ps', hps', hparameters'⟩ := Parameters.respell_optional hparameters hps
    obtain ⟨bs', hbs, hbody⟩ := ih (.declarations hss)
    refine ⟨_, ?_, .callable hname' hopening hparameters' hclosing hleft hbody hright⟩
    refine .cons hu (.cons (.symbol hopening) (List.rel_append hps' ?_))
    refine .cons (.symbol hclosing) (.cons (.symbol hleft) ?_)
    exact List.rel_append hbs (.cons (.symbol hright) .nil)
  | «break» hword hsemicolon =>
    cases halike with | statement hs =>
    cases hs
    exact ⟨_, .cons (.keyword hword) (.cons (.symbol hsemicolon) .nil), .break hword hsemicolon⟩
  | «for» hword hopening hfirst hcondition hsecond hincrement hclosing _ ih =>
    cases halike with | statement hs =>
    obtain ⟨first', condition', increment', body', rfl, hf, hc, hi, hb⟩ := hs.forTree
    obtain ⟨fs', hfs, hfirst'⟩ := hfirst.respell hf
    obtain ⟨cs', hcs, hcondition'⟩ := hcondition.respell hc
    obtain ⟨is', his, hincrement'⟩ := hincrement.respell hi
    obtain ⟨bs', hbs, hbody⟩ := ih (.statement hb)
    refine ⟨_, ?_, .for hword hopening hfirst' hcondition' hsecond hincrement' hclosing hbody⟩
    refine .cons (.keyword hword) (.cons (.symbol hopening) (List.rel_append hfs ?_))
    refine List.rel_append hcs (.cons (.symbol hsecond) (List.rel_append his ?_))
    exact .cons (.symbol hclosing) hbs
  | «if» hword hopening hcondition hclosing _ ih =>
    cases halike with | statement hs =>
    cases hs with | ifThen hc hy =>
    obtain ⟨cs', hcs, hcondition'⟩ := hcondition.respell hc
    obtain ⟨ys', hys, hyes⟩ := ih (.statement hy)
    refine ⟨_, ?_, .if hword hopening hcondition' hclosing hyes⟩
    refine .cons (.keyword hword) (.cons (.symbol hopening) (List.rel_append hcs ?_))
    exact .cons (.symbol hclosing) hys
  | ifElse hword hopening hcondition hclosing _ helse _ ihy ihn =>
    cases halike with | statement hs =>
    cases hs with | ifElse hc hy hn =>
    obtain ⟨cs', hcs, hcondition'⟩ := hcondition.respell hc
    obtain ⟨ys', hys, hyes⟩ := ihy (.statement hy)
    obtain ⟨ns', hns, hno⟩ := ihn (.statement hn)
    refine ⟨_, ?_, .ifElse hword hopening hcondition' hclosing hyes helse hno⟩
    refine .cons (.keyword hword) (.cons (.symbol hopening) (List.rel_append hcs ?_))
    exact .cons (.symbol hclosing) (List.rel_append hys (.cons (.keyword helse) hns))
  | print hword he hsemicolon =>
    cases halike with | statement hs =>
    cases hs with | print ha =>
    obtain ⟨ts', hts, he'⟩ := Expr.Derives.respell he ha
    refine ⟨_, .cons (.keyword hword) ?_, .print hword he' hsemicolon⟩
    exact List.rel_append hts (.cons (.symbol hsemicolon) .nil)
  | «return» hword hvalue hsemicolon =>
    cases halike with | statement hs =>
    cases hs with | «return» ha =>
    obtain ⟨ts', hts, hvalue'⟩ := hvalue.respell ha
    refine ⟨_, .cons (.keyword hword) ?_, .return hword hvalue' hsemicolon⟩
    exact List.rel_append hts (.cons (.symbol hsemicolon) .nil)
  | «while» hword hopening hcondition hclosing _ ih =>
    cases halike with | statement hs =>
    cases hs with | «while» hc hb =>
    obtain ⟨cs', hcs, hcondition'⟩ := hcondition.respell hc
    obtain ⟨bs', hbs, hbody⟩ := ih (.statement hb)
    refine ⟨_, ?_, .while hword hopening hcondition' hclosing hbody⟩
    refine .cons (.keyword hword) (.cons (.symbol hopening) (List.rel_append hcs ?_))
    exact .cons (.symbol hclosing) hbs
  | block hopening _ hclosing ih =>
    cases halike with | statement hs =>
    cases hs with | block hss =>
    obtain ⟨bs', hbs, hbody⟩ := ih (.declarations hss)
    refine ⟨_, .cons (.symbol hopening) ?_, .block hopening hbody hclosing⟩
    exact List.rel_append hbs (.cons (.symbol hclosing) .nil)
  | expression he hsemicolon =>
    cases halike with | statement hs =>
    cases hs with | expression ha =>
    obtain ⟨ts', hts, he'⟩ := Expr.Derives.respell he ha
    refine ⟨_, List.rel_append hts ?_, .expression he' hsemicolon⟩
    exact .cons (.symbol hsemicolon) .nil

end Lox
