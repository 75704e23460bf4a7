/-
  Lox.Proofs.Grammar.StmtComplete

  Whatever is a statement, a declaration or a program, the parser takes for one,
  and its tree is the one of the rules.

    * `StmtPhrase.Good` — the bounds within which nothing is reported;
    * `StmtComplete`, `DeclComplete` — from every statement or declaration of fewer
      than `n` tokens a step makes its tree;
    * `complete_program` — the parser for programs is complete.
-/
import Lox.Proofs.Grammar.ExprComplete
import Lox.Proofs.Grammar.StmtSound

namespace Lox

/-- Within bounds, with every `break` in a loop. -/
def StmtPhrase.Good (inLoop : Bool) (phrase : StmtPhrase) : Prop :=
  phrase.ArityFits ∧ phrase.BreaksInside inLoop

/-- There is no `else` next. -/
def ElseFree (rest : List Token) : Prop :=
  ∀ t, rest.head? = some t → t.kind ≠ .keyword .elseWord

theorem elseFree_cons {t : Token} {rest : List Token} (h : t.kind ≠ .keyword .elseWord) :
    ElseFree (t :: rest) := by
  rintro u ⟨⟩
  exact h

/-! ## How declarations begin -/

theorem Expr.Derives.begins {e : Expr} {ts : List Token} (h : e.Derives ts) :
    ∃ t us, ts = t :: us ∧ BeginsExpr t.kind :=
  ExprPhrase.Derives.begins h

/-- No symbol but three begins an expression. -/
theorem BeginsExpr.ne_symbol {kind : TokenKind} {symbol : Symbol} (h : BeginsExpr kind)
    (hsymbol : symbol ∉ [.leftParen, .bang, .minus]) : kind ≠ .symbol symbol := by
  rintro rfl
  rcases h with ⟨⟨⟨⟩⟩⟩ | ⟨⟨⟩⟩
  all_goals simp at hsymbol

/-- No keyword that begins a statement begins an expression, nor does `else`. -/
theorem BeginsExpr.ne_keyword {kind : TokenKind} {keyword : Keyword} (h : BeginsExpr kind)
    (hkeyword : keyword ∉ [.trueWord, .falseWord, .nilWord, .thisWord, .superWord]) :
    kind ≠ .keyword keyword := by
  rintro rfl
  rcases h with ⟨⟨⟨⟩⟩⟩ | ⟨⟨⟩⟩
  all_goals simp at hkeyword

/-- What a statement does not begin with. -/
theorem StmtPhrase.Derives.statement_begins {open_ : Bool} {s : Stmt} {ts : List Token}
    (h : (StmtPhrase.statement open_ s).Derives ts) :
    ∃ t us, ts = t :: us ∧ t.kind ≠ .symbol .rightBrace ∧
      ∀ keyword ∈ [Keyword.elseWord, .classWord, .funWord, .varWord],
        t.kind ≠ .keyword keyword := by
  -- It is enough to look at the kind of the first token.
  have token : ∀ {t : Token} {us : List Token} {kind : TokenKind}, t.kind = kind →
      kind ≠ .symbol .rightBrace →
      (∀ keyword ∈ [Keyword.elseWord, .classWord, .funWord, .varWord], kind ≠ .keyword keyword) →
      ∃ t' us', t :: us = t' :: us' ∧ t'.kind ≠ .symbol .rightBrace ∧
        ∀ keyword ∈ [Keyword.elseWord, .classWord, .funWord, .varWord],
          t'.kind ≠ .keyword keyword := by
    rintro t us _ rfl h₁ h₂
    exact ⟨t, us, rfl, h₁, h₂⟩
  cases h with
  | expression he =>
    obtain ⟨t, us, rfl, hbegins⟩ := he.begins
    refine token rfl (hbegins.ne_symbol (by decide)) fun keyword hkeyword => hbegins.ne_keyword ?_
    revert keyword
    decide
  | «break» hword => exact token hword nofun (by simp)
  | «for» hword => exact token hword nofun (by simp)
  | «if» hword => exact token hword nofun (by simp)
  | ifElse hword => exact token hword nofun (by simp)
  | print hword => exact token hword nofun (by simp)
  | «return» hword => exact token hword nofun (by simp)
  | «while» hword => exact token hword nofun (by simp)
  | block hopening => exact token hopening nofun (by simp)

/-- What a declaration does not begin with. -/
theorem StmtPhrase.Derives.declaration_begins {s : Stmt} {ts : List Token}
    (h : (StmtPhrase.declaration s).Derives ts) :
    ∃ t us, ts = t :: us ∧ t.kind ≠ .symbol .rightBrace ∧ t.kind ≠ .keyword .elseWord := by
  cases h with
  | statement h =>
    obtain ⟨t, us, hts, hbrace, hkeyword⟩ := h.statement_begins
    exact ⟨t, us, hts, hbrace, hkeyword _ (by simp)⟩
  | «class» hword => exact ⟨_, _, rfl, by simp [hword], by simp [hword]⟩
  | function hword => exact ⟨_, _, rfl, by simp [hword], by simp [hword]⟩
  | var hword => exact ⟨_, _, rfl, by simp [hword], by simp [hword]⟩

namespace Parser

variable {n : Nat}

/-- From every statement of fewer than `n` tokens, `p` makes its tree. -/
def StmtComplete (n : Nat) (p : Parser Stmt) : Prop :=
  ∀ ⦃open_ stmt ts rest s⦄, (StmtPhrase.statement open_ stmt).Derives ts → ts.length < n →
    s.rest = ts ++ rest → (open_ = true → ElseFree rest) →
    Yields (p s) s.loops s.faults rest
      ((StmtPhrase.statement open_ stmt).Good (decide (s.loops ≠ 0)))
      fun stmt' => stmt'.unnumbered = stmt.unnumbered

/-- From every declaration of fewer than `n` tokens, `p` makes its tree. -/
def DeclComplete (n : Nat) (p : Parser (Option Stmt)) : Prop :=
  ∀ ⦃stmt ts rest s⦄, (StmtPhrase.declaration stmt).Derives ts → ts.length < n →
    s.rest = ts ++ rest → ElseFree rest →
    Yields (p s) s.loops s.faults rest ((StmtPhrase.declaration stmt).Good (decide (s.loops ≠ 0)))
      fun r => ∃ stmt', r = some stmt' ∧ stmt'.unnumbered = stmt.unnumbered

/-- The parts of a statement are complete below `n` tokens. -/
structure InnerComplete (n : Nat) (inner : Inner) : Prop where
  bound : n ≤ inner.bound
  expression : Complete .assignment n inner.expression
  statement : StmtComplete n inner.statement
  declaration : DeclComplete n inner.declaration

/-! ## Declarations -/

/-- Where a list of declarations ends. -/
def DeclarationsEnd (braced : Bool) (rest : List Token) : Prop :=
  rest = [] ∨ braced = true ∧ ∃ t, rest.head? = some t ∧ t.kind = .symbol .rightBrace

theorem DeclarationsEnd.elseFree {braced : Bool} {rest : List Token}
    (h : DeclarationsEnd braced rest) : ElseFree rest := by
  intro t ht hkind
  rcases h with rfl | ⟨_, u, hu, hbrace⟩
  · cases ht
  · rw [hu] at ht
    cases ht
    rw [hkind] at hbrace
    cases hbrace

theorem declarationsFrom_end {declaration : Parser (Option Stmt)} {braced : Bool} (bound : Nat)
    (before : Array Stmt) {s : ParseState} (h : DeclarationsEnd braced s.rest) :
    declarationsFrom declaration braced bound before s = .ok before s := by
  cases bound with
  | zero => rfl
  | succ bound =>
    unfold declarationsFrom
    cases hrest : s.rest with
    | nil => rfl
    | cons t rest =>
      rw [hrest] at h
      rcases h with h | ⟨hbraced, u, hu, hbrace⟩
      · cases h
      · cases hu
        dsimp only
        rw [if_pos (by rw [hbraced, hbrace]; rfl)]

theorem declarationsFrom_more {declaration : Parser (Option Stmt)} (braced : Bool) (bound : Nat)
    (before : Array Stmt) {s : ParseState} {t : Token} {rest : List Token} (hs : s.rest = t :: rest)
    (ht : t.kind ≠ .symbol .rightBrace) :
    declarationsFrom declaration braced (bound + 1) before s = (declaration >>= fun stmt =>
      declarationsFrom declaration braced bound (stmt.elim before before.push)) s := by
  rw [declarationsFrom]
  dsimp only
  rw [hs]
  dsimp only
  rw [if_neg (by simp [ht])]

theorem yields_declarationsFrom {declaration : Parser (Option Stmt)} (braced : Bool)
    (hdeclaration : DeclComplete n declaration) {ss : List Stmt} {ts : List Token}
    (h : (StmtPhrase.declarations ss).Derives ts) {bound : Nat} (hn : ts.length < n)
    (hbound : ts.length ≤ bound) (before : Array Stmt) {s : ParseState} {rest : List Token}
    (hs : s.rest = ts ++ rest) (hend : DeclarationsEnd braced rest) :
    Yields (declarationsFrom declaration braced bound before s) s.loops s.faults rest
      ((StmtPhrase.declarations ss).Good (decide (s.loops ≠ 0)))
      fun all => ∃ ss', all.toList = before.toList ++ ss' ∧
        Stmt.listUnnumbered ss' = Stmt.listUnnumbered ss := by
  induction ss generalizing ts bound before s with
  | nil =>
    cases h
    rw [List.nil_append] at hs
    rw [declarationsFrom_end bound before (hs ▸ hend)]
    exact ⟨before, s, rfl, hs, rfl, fun _ => rfl, [], by simp, rfl⟩
  | cons stmt ss ih =>
    cases h with
    | @declarations _ ts _ us hstmt hss =>
      obtain ⟨first, ts', hts, hbrace, _⟩ := hstmt.declaration_begins
      have hpos := hstmt.declaration_length_pos
      rw [List.append_assoc] at hs
      rw [List.length_append] at hn hbound
      obtain ⟨m, rfl⟩ : ∃ m, bound = m + 1 := ⟨bound - 1, by omega⟩
      have hfollow : ElseFree (us ++ rest) := by
        cases hss with
        | noDeclarations => exact hend.elseFree
        | declarations hnext =>
          obtain ⟨next, vs, rfl, _, helse⟩ := hnext.declaration_begins
          exact elseFree_cons helse
      rw [declarationsFrom_more braced m before (hs.trans (by rw [hts]; rfl)) hbrace]
      refine ((hdeclaration hstmt (by omega) hs hfollow).mono
        (fun hgood => ⟨hgood.1.1, hgood.2.1⟩) fun _ h => h).bind fun r t ht hloops hr => ?_
      obtain ⟨stmt', rfl, hstmt'⟩ := hr
      refine (ih hss (by omega) (by omega) (before.push stmt') ht).mono ?_ ?_
      · rw [hloops]
        exact fun hgood => ⟨hgood.1.2, hgood.2.2⟩
      · rintro all ⟨ss', hall, hss'⟩
        exact ⟨stmt' :: ss', by simp [hall], by simp [Stmt.listUnnumbered, hstmt', hss']⟩

/-- The declarations of a block and its closing brace. -/
theorem yields_block {inner : Inner} (h : InnerComplete n inner) {body : List Stmt}
    {bs : List Token} (hbody : (StmtPhrase.declarations body).Derives bs) (hn : bs.length < n)
    {s : ParseState} {closing : Token} {rest : List Token} (hs : s.rest = bs ++ closing :: rest)
    (hclosing : closing.kind = .symbol .rightBrace) :
    Yields (block inner s) s.loops s.faults rest
      ((StmtPhrase.declarations body).Good (decide (s.loops ≠ 0)))
      fun body' => Stmt.listUnnumbered body' = Stmt.listUnnumbered body := by
  have hbound : bs.length ≤ inner.bound := by
    have := h.bound
    omega
  refine (yields_declarationsFrom true h.declaration hbody hn hbound #[] hs
    (.inr ⟨rfl, closing, rfl, hclosing⟩)).bind fun all t ht _ hall => ?_
  obtain ⟨body', hbody', hunnumbered⟩ := hall
  rw [List.nil_append] at hbody'
  rw [bind_expectSymbol ht hclosing, hbody']
  exact .done _ { t with rest } hunnumbered

theorem yields_parametersFrom {names : List Lexeme} {ps : List Token} (h : Parameters names ps)
    {bound : Nat} (hbound : ps.length ≤ bound) (before : Array Lexeme) {s : ParseState}
    {closing : Token} {rest : List Token} (hs : s.rest = ps ++ closing :: rest)
    (hclosing : closing.kind = .symbol .rightParen) :
    Yields (parametersFrom bound before s) s.loops s.faults (closing :: rest)
      (before.size + names.length ≤ 255) fun all => all.toList = before.toList ++ names := by
  induction h generalizing bound before s with
  | @last t hname =>
    obtain ⟨m, rfl⟩ : ∃ m, bound = m + 1 := ⟨bound - 1, by simp at hbound; omega⟩
    rw [parametersFrom]
    refine yields_reportIf ?_ fun faults => ?_
    · intro hfull hsize
      unfold maxArity at hfull
      simp at hsize
      omega
    · rw [bind_expectName (s := { s with faults }) hs hname, bind_acceptSymbol_none]
      · exact .done _ { s with rest := closing :: rest, faults } (by simp)
      · rintro u ⟨⟩ hkind
        rw [hclosing] at hkind
        cases hkind
  | @more t comma names ts hname hcomma hnames ih =>
    simp only [List.length_cons] at hbound
    obtain ⟨m, rfl⟩ : ∃ m, bound = m + 1 := ⟨bound - 1, by omega⟩
    rw [parametersFrom]
    refine yields_reportIf ?_ fun faults => ?_
    · intro hfull hsize
      unfold maxArity at hfull
      simp at hsize
      omega
    · rw [bind_expectName (s := { s with faults }) hs hname, bind_acceptSymbol rfl hcomma]
      refine (ih (by omega) (before.push t.toLexeme) rfl).mono ?_ ?_
      · intro hsize
        simp only [Array.size_push, List.length_cons] at hsize ⊢
        omega
      · intro all hall
        simp [hall]

/-- The rest of a function behind its parameters. -/
theorem yields_functionBody {inner : Inner} (h : InnerComplete n inner) {body : List Stmt}
    {bs : List Token} (hbody : (StmtPhrase.declarations body).Derives bs) (hn : bs.length < n)
    (kind : CallableKind) (name : Lexeme) (parameters : List Lexeme) {s : ParseState}
    {closing left right : Token} {rest : List Token}
    (hs : s.rest = closing :: left :: (bs ++ right :: rest))
    (hclosing : closing.kind = .symbol .rightParen) (hleft : left.kind = .symbol .leftBrace)
    (hright : right.kind = .symbol .rightBrace) :
    Yields ((do
      let _ ← expectSymbol .rightParen .parenAfterParameters
      let _ ← expectSymbol .leftBrace (.braceBeforeCallableBody kind)
      let body ← outsideLoops (block inner)
      return (⟨name, parameters, body⟩ : FunctionDecl) : Parser FunctionDecl) s) s.loops s.faults
      rest ((StmtPhrase.declarations body).Good false)
      fun decl => decl.unnumbered = (FunctionDecl.mk name parameters body).unnumbered := by
  rw [bind_expectSymbol hs hclosing, bind_expectSymbol rfl hleft]
  refine Yields.bind (yields_withLoops (s := { s with rest := bs ++ right :: rest }) (fun _ => 0)
    (yields_block h hbody hn rfl hright)) fun body' t ht _ hbody' => ?_
  refine ht ▸ .done _ t ?_
  rw [FunctionDecl.unnumbered, hbody']
  rfl

theorem yields_function {inner : Inner} (h : InnerComplete n inner) {decl : FunctionDecl}
    {ts : List Token} (hdecl : (StmtPhrase.function decl).Derives ts) (hn : ts.length < n)
    (kind : CallableKind) (inLoop : Bool) {s : ParseState} {rest : List Token}
    (hs : s.rest = ts ++ rest) :
    Yields (function inner kind s) s.loops s.faults rest ((StmtPhrase.function decl).Good inLoop)
      fun decl' => decl'.unnumbered = decl.unnumbered := by
  cases hdecl with
  | @callable name opening closing left right names ps body bs hname hopening hps hclosing hleft
      hbody hright =>
    simp only [List.length_cons, List.length_append] at hn
    simp only [List.append_assoc, List.cons_append] at hs
    have hbound := h.bound
    rw [function, bind_expectName hs hname, bind_expectSymbol rfl hopening]
    rcases hps with ⟨rfl, rfl⟩ | hps
    · rw [bind_check rfl, TokenKind.sameType_symbol.mpr hclosing]
      exact (yields_functionBody h hbody (by omega) kind name.toLexeme []
        (s := { s with rest := closing :: left :: (bs ++ right :: rest) }) rfl hclosing hleft
        hright).mono (fun hgood => ⟨hgood.1.2, hgood.2⟩) fun _ h => h
    · obtain ⟨first, ps', rfl, hne⟩ : ∃ t us, ps = t :: us ∧
          t.kind.sameType (.symbol .rightParen) = false := by
        cases hps with
        | last hname => exact ⟨_, _, rfl, by rw [hname]; rfl⟩
        | more hname => exact ⟨_, _, rfl, by rw [hname]; rfl⟩
      rw [bind_check rfl, hne]
      have hlength : (first :: ps').length ≤ inner.bound := by omega
      refine ((yields_parametersFrom hps hlength #[]
        (s := { s with rest := (first :: ps') ++ closing :: left :: (bs ++ right :: rest) }) rfl
        hclosing).mono (fun hgood => ?_) fun _ h => h).bind fun all t ht hloops hall => ?_
      · show (#[] : Array Lexeme).size + names.length ≤ 255
        rw [Array.size_empty, Nat.zero_add]
        exact hgood.1.1
      · rw [List.nil_append] at hall
        subst hall
        exact (yields_functionBody h hbody (by omega) kind name.toLexeme all.toList ht hclosing
          hleft hright).mono (fun hgood => ⟨hgood.1.2, hgood.2⟩) fun _ h => h

theorem yields_methodsFrom {inner : Inner} (h : InnerComplete n inner) {ds : List FunctionDecl}
    {ts : List Token} (hds : (StmtPhrase.methods ds).Derives ts) {bound : Nat} (hn : ts.length < n)
    (hbound : ts.length ≤ bound) (before : Array FunctionDecl) (inLoop : Bool) {s : ParseState}
    {closing : Token} {rest : List Token} (hs : s.rest = ts ++ closing :: rest)
    (hclosing : closing.kind = .symbol .rightBrace) :
    Yields (methodsFrom (function inner .method) bound before s) s.loops s.faults (closing :: rest)
      ((StmtPhrase.methods ds).Good inLoop) fun all => ∃ ds', all.toList = before.toList ++ ds' ∧
        FunctionDecl.listUnnumbered ds' = FunctionDecl.listUnnumbered ds := by
  induction ds generalizing ts bound before s with
  | nil =>
    cases hds
    refine ⟨before, s, ?_, hs, rfl, fun _ => rfl, [], by simp, rfl⟩
    cases bound with
    | zero => rfl
    | succ bound =>
      rw [methodsFrom]
      dsimp only
      rw [hs]
      exact if_pos hclosing
  | cons d ds ih =>
    cases hds with
    | @methods _ ts _ us hd hds =>
      have hpos := hd.function_length_pos
      rw [List.append_assoc] at hs
      rw [List.length_append] at hn hbound
      obtain ⟨m, rfl⟩ : ∃ m, bound = m + 1 := ⟨bound - 1, by omega⟩
      have hstep : methodsFrom (function inner .method) (m + 1) before s =
          (function inner .method >>= fun d =>
            methodsFrom (function inner .method) m (before.push d)) s := by
        cases hd with
        | callable hname =>
          rw [methodsFrom]
          dsimp only
          rw [hs]
          exact if_neg (by rw [hname]; nofun)
      rw [hstep]
      refine ((yields_function h hd (by omega) .method inLoop hs).mono
        (fun hgood => ⟨hgood.1.1, hgood.2.1⟩) fun _ h => h).bind fun d' t ht _ hd' => ?_
      refine (ih hds (by omega) (by omega) (before.push d') ht).mono
        (fun hgood => ⟨hgood.1.2, hgood.2.2⟩) ?_
      rintro all ⟨ds', hall, hds'⟩
      exact ⟨d' :: ds', by simp [hall], by simp [FunctionDecl.listUnnumbered, hd', hds']⟩

/-- The rest of a class behind its superclass clause. -/
theorem yields_classBody {inner : Inner} (h : InnerComplete n inner) {ds : List FunctionDecl}
    {ms : List Token} (hds : (StmtPhrase.methods ds).Derives ms) (hn : ms.length < n)
    (name : Lexeme) (superclass : Option Occurrence) (inLoop : Bool) {s : ParseState}
    {opening closing : Token} {rest : List Token}
    (hs : s.rest = opening :: (ms ++ closing :: rest))
    (hopening : opening.kind = .symbol .leftBrace) (hclosing : closing.kind = .symbol .rightBrace) :
    Yields ((do
      let _ ← expectSymbol .leftBrace .braceBeforeClassBody
      let methods ← methodsFrom (function inner .method) inner.bound #[]
      let _ ← expectSymbol .rightBrace .braceAfterClassBody
      return .class name superclass methods.toList : Parser Stmt) s) s.loops s.faults rest
      ((StmtPhrase.methods ds).Good inLoop)
      fun stmt => stmt.unnumbered = (Stmt.class name superclass ds).unnumbered := by
  have hlength : ms.length ≤ inner.bound := by
    have := h.bound
    omega
  rw [bind_expectSymbol hs hopening]
  refine (yields_methodsFrom h hds hn hlength #[] inLoop
    (s := { s with rest := ms ++ closing :: rest }) rfl hclosing).bind fun all t ht _ hall => ?_
  obtain ⟨ds', hds', hunnumbered⟩ := hall
  rw [List.nil_append] at hds'
  rw [bind_expectSymbol ht hclosing, hds']
  exact .done _ { t with rest } (by rw [Stmt.unnumbered, hunnumbered, Stmt.unnumbered])

theorem yields_classDeclaration {inner : Inner} (h : InnerComplete n inner) {name : Token}
    {superclass : Option Occurrence} {ss : List Token} (hss : SuperclassClause superclass ss)
    {ds : List FunctionDecl} {ms : List Token} (hds : (StmtPhrase.methods ds).Derives ms)
    (hn : ms.length < n) (inLoop : Bool) {s : ParseState} {opening closing : Token}
    {rest : List Token} (hs : s.rest = name :: (ss ++ opening :: (ms ++ closing :: rest)))
    (hname : name.kind = .identifier) (hopening : opening.kind = .symbol .leftBrace)
    (hclosing : closing.kind = .symbol .rightBrace) :
    Yields (classDeclaration inner s) s.loops s.faults rest ((StmtPhrase.methods ds).Good inLoop)
      fun stmt => stmt.unnumbered = (Stmt.class name.toLexeme superclass ds).unnumbered := by
  rw [classDeclaration, bind_expectName hs hname]
  cases hss with
  | none =>
    rw [bind_acceptSymbol_none]
    · exact yields_classBody h hds hn name.toLexeme none inLoop
        (s := { s with rest := opening :: (ms ++ closing :: rest) }) rfl hopening hclosing
    · rintro u ⟨⟩ hkind
      rw [hopening] at hkind
      cases hkind
  | @some less parent id hless hparent =>
    rw [bind_acceptSymbol rfl hless, if_pos rfl, bind_expectName rfl hparent]
    exact yields_classBody h hds hn name.toLexeme (some ⟨s.nextId, parent.toLexeme⟩) inLoop
      (s := { s with rest := opening :: (ms ++ closing :: rest), nextId := s.nextId + 1 }) rfl
      hopening hclosing

theorem yields_varDeclaration {inner : Inner} (h : InnerComplete n inner) {stmt : Stmt}
    {ts : List Token} (hstmt : Variable stmt ts) (hn : ts.length < n) {s : ParseState}
    {rest : List Token} (hs : s.rest = ts ++ rest) :
    Yields (varDeclaration inner s) s.loops s.faults rest stmt.ArityFits
      fun stmt' => stmt'.unnumbered = stmt.unnumbered := by
  cases hstmt with
  | @mk name semicolon initializer ts hname hinitializer hsemicolon =>
    simp only [List.length_cons, List.length_append] at hn
    simp only [List.append_assoc, List.cons_append] at hs
    rw [varDeclaration, bind_expectName hs hname]
    cases hinitializer with
    | none =>
      rw [bind_acceptSymbol_none]
      · exact ⟨_, _, bind_expectSymbol rfl hsemicolon _, rfl, rfl, fun _ => rfl, rfl⟩
      · rintro u ⟨⟩ hkind
        rw [hsemicolon] at hkind
        cases hkind
    | @some equals e ts hequals he =>
      rw [bind_acceptSymbol rfl hequals]
      simp only [List.length_cons] at hn
      refine (h.expression he (s := { s with rest := ts ++ ([semicolon] ++ rest) }) (by omega) rfl
        (Rule.stops_cons _ (by rw [hsemicolon]; rfl))).bind fun e' t ht _ he' => ?_
      refine ⟨_, _, bind_expectSymbol ht hsemicolon _, rfl, rfl, fun _ => rfl, ?_⟩
      simp only [Stmt.unnumbered, Option.map_some, he']

/-! ## Statements -/

theorem yields_expressionUnless {inner : Inner} (h : InnerComplete n inner) {e : Option Expr}
    {ts : List Token} (he : Optional e ts) (hn : ts.length < n) {stop : Symbol}
    (hstop : stop = .semicolon ∨ stop = .rightParen) {s : ParseState} {t : Token}
    {rest : List Token} (hs : s.rest = ts ++ t :: rest) (ht : t.kind = .symbol stop) :
    Yields (expressionUnless inner stop s) s.loops s.faults (t :: rest) (Expr.OptionArityFits e)
      fun e' => e'.map Expr.unnumbered = e.map Expr.unnumbered := by
  unfold expressionUnless
  cases he with
  | none =>
    rw [bind_check hs, TokenKind.sameType_symbol.mpr ht]
    exact ⟨none, s, rfl, hs, rfl, fun _ => rfl, rfl⟩
  | @some e ts he =>
    obtain ⟨first, us, rfl, hbegins⟩ := he.begins
    have hne : first.kind.sameType (.symbol stop) = false := by
      rw [Bool.eq_false_iff]
      intro hsame
      refine hbegins.ne_symbol ?_ (TokenKind.sameType_symbol.mp hsame)
      rcases hstop with rfl | rfl <;> decide
    rw [bind_check hs, hne]
    refine (h.expression he hn hs (Rule.stops_cons _ ?_)).bind fun e' u hu _ he' => ?_
    · rw [ht]
      rcases hstop with rfl | rfl <;> rfl
    · exact hu ▸ .done _ u (congrArg some he')

theorem yields_expressionStatement {inner : Inner} (h : InnerComplete n inner) {e : Expr}
    {ts : List Token} (he : e.Derives ts) (hn : ts.length < n) {s : ParseState} {semicolon : Token}
    {rest : List Token} (hs : s.rest = ts ++ semicolon :: rest)
    (hsemicolon : semicolon.kind = .symbol .semicolon) :
    Yields (expressionStatement inner s) s.loops s.faults rest e.ArityFits
      fun stmt => stmt.unnumbered = (Stmt.expression e).unnumbered := by
  unfold expressionStatement
  refine (h.expression he hn hs (Rule.stops_cons _ (by rw [hsemicolon]; rfl))).bind
    fun e' t ht _ he' => ?_
  exact ⟨_, _, bind_expectSymbol ht hsemicolon _, rfl, rfl, fun _ => rfl,
    congrArg Stmt.expression he'⟩

theorem yields_forInitializer {inner : Inner} (h : InnerComplete n inner) {first : Option Stmt}
    {fs : List Token} (hfirst : First first fs) (hn : fs.length < n) {s : ParseState}
    {rest : List Token} (hs : s.rest = fs ++ rest) :
    Yields (forInitializer inner s) s.loops s.faults rest
      (∀ stmt, first = some stmt → stmt.ArityFits)
      fun first' => first'.map Stmt.unnumbered = first.map Stmt.unnumbered := by
  unfold forInitializer
  cases hfirst with
  | none hsemicolon =>
    rw [bind_acceptSymbol hs hsemicolon]
    exact ⟨none, _, rfl, rfl, rfl, fun _ => rfl, rfl⟩
  | @var word stmt ts hword hstmt =>
    simp only [List.length_cons] at hn
    have hne : ∀ t, s.rest.head? = some t → t.kind ≠ .symbol .semicolon := by
      intro t ht
      rw [hs] at ht
      cases ht
      rw [hword]
      nofun
    rw [bind_acceptSymbol_none hne, if_neg Bool.false_ne_true,
      bind_accept hs (TokenKind.sameType_keyword.mpr hword)]
    refine ((yields_varDeclaration h hstmt (by omega) (s := { s with rest := ts ++ rest })
      rfl).mono (fun hgood => hgood stmt rfl) fun _ h => h).bind fun stmt' t ht _ hstmt' => ?_
    exact ht ▸ .done _ t (congrArg some hstmt')
  | @expression semicolon e ts he hsemicolon =>
    simp only [List.length_append, List.length_cons] at hn
    simp only [List.append_assoc, List.cons_append, List.nil_append] at hs
    obtain ⟨head, us, rfl, hbegins⟩ := he.begins
    have hhead : ∀ t, s.rest.head? = some t → BeginsExpr t.kind := by
      intro t ht
      rw [hs] at ht
      cases ht
      exact hbegins
    rw [bind_acceptSymbol_none fun t ht => (hhead t ht).ne_symbol (by decide),
      if_neg Bool.false_ne_true, bind_accept_none]
    · refine ((yields_expressionStatement h he (by omega) hs hsemicolon).mono
        (fun hgood => hgood (.expression e) rfl) fun _ h => h).bind fun stmt' t ht _ hstmt' => ?_
      exact ht ▸ .done _ t (congrArg some hstmt')
    · intro t ht
      rw [Bool.eq_false_iff]
      exact fun hsame => (hhead t ht).ne_keyword (by decide) (TokenKind.sameType_keyword.mp hsame)

theorem forTree_unnumbered (first : Option Stmt) (condition increment : Option Expr) (body : Stmt) :
    (forTree first condition increment body).unnumbered =
      forTree (first.map Stmt.unnumbered) (condition.map Expr.unnumbered)
        (increment.map Expr.unnumbered) body.unnumbered := by
  cases first <;> cases condition <;> cases increment <;>
    simp [forTree, Stmt.unnumbered, Stmt.listUnnumbered, Expr.unnumbered]

/-- What the tree of a `for` has to fulfil, its parts have to. -/
theorem good_of_forTree {first : Option Stmt} {condition increment : Option Expr} {body : Stmt}
    (hfits : (forTree first condition increment body).ArityFits) {inLoop : Bool}
    (hbreaks : (forTree first condition increment body).BreaksInside inLoop) :
    (∀ stmt, first = some stmt → stmt.ArityFits) ∧ Expr.OptionArityFits condition ∧
      Expr.OptionArityFits increment ∧ body.ArityFits ∧ body.BreaksInside true := by
  cases first <;> cases condition <;> cases increment <;>
    simp_all [forTree, Stmt.ArityFits, Stmt.ListArityFits, Expr.OptionArityFits,
      Stmt.BreaksInside, Stmt.ListBreaksInside]

theorem yields_forStatement {inner : Inner} (h : InnerComplete n inner) {open_ inLoop : Bool}
    {first : Option Stmt} {fs : List Token} (hfirst : First first fs) {condition : Option Expr}
    {cs : List Token} (hcondition : Optional condition cs) {increment : Option Expr}
    {is : List Token} (hincrement : Optional increment is) {body : Stmt} {bs : List Token}
    (hbody : (StmtPhrase.statement open_ body).Derives bs)
    (hn : fs.length + cs.length + is.length + bs.length < n) {s : ParseState}
    {opening second closing : Token} {rest : List Token}
    (hs : s.rest = opening :: (fs ++ (cs ++ second :: (is ++ closing :: (bs ++ rest)))))
    (hopening : opening.kind = .symbol .leftParen) (hsecond : second.kind = .symbol .semicolon)
    (hclosing : closing.kind = .symbol .rightParen) (helse : open_ = true → ElseFree rest) :
    Yields (forStatement inner s) s.loops s.faults rest
      ((StmtPhrase.statement open_ (forTree first condition increment body)).Good inLoop)
      fun stmt => stmt.unnumbered = (forTree first condition increment body).unnumbered := by
  have hgood : (StmtPhrase.statement open_ (forTree first condition increment body)).Good inLoop →
      _ := fun hgood => good_of_forTree hgood.1 hgood.2
  rw [forStatement, bind_expectSymbol hs hopening]
  refine ((yields_forInitializer h hfirst (by omega) (s := { s with
    rest := fs ++ (cs ++ second :: (is ++ closing :: (bs ++ rest))) }) rfl).mono
    (fun hg => (hgood hg).1) fun _ h => h).bind fun first' t ht _ hfirst' => ?_
  refine ((yields_expressionUnless h hcondition (by omega) (.inl rfl) ht hsecond).mono
    (fun hg => (hgood hg).2.1) fun _ h => h).bind fun condition' u hu _ hcondition' => ?_
  rw [bind_expectSymbol hu hsecond]
  refine ((yields_expressionUnless h hincrement (by omega) (.inr rfl) (s := { u with
    rest := is ++ closing :: (bs ++ rest) }) rfl hclosing).mono
    (fun hg => (hgood hg).2.2.1) fun _ h => h).bind fun increment' v hv _ hincrement' => ?_
  rw [bind_expectSymbol hv hclosing]
  -- The body is one loop further in, where a `break` may stand.
  have hinside := yields_withLoops (s := { v with rest := bs ++ rest }) (· + 1)
    (h.statement hbody (by omega) rfl helse)
  refine (hinside.mono (fun hg => ⟨(hgood hg).2.2.2.1, (hgood hg).2.2.2.2⟩) fun _ h => h).bind
    fun body' w hw _ hbody' => ?_
  refine hw ▸ .done _ w ?_
  rw [forTree_unnumbered, forTree_unnumbered, hfirst', hcondition', hincrement', hbody']

theorem yields_whileStatement {inner : Inner} (h : InnerComplete n inner) {open_ inLoop : Bool}
    {condition : Expr} {cs : List Token} (hcondition : condition.Derives cs) {body : Stmt}
    {bs : List Token} (hbody : (StmtPhrase.statement open_ body).Derives bs)
    (hn : cs.length + bs.length < n) {s : ParseState} {opening closing : Token}
    {rest : List Token} (hs : s.rest = opening :: (cs ++ closing :: (bs ++ rest)))
    (hopening : opening.kind = .symbol .leftParen) (hclosing : closing.kind = .symbol .rightParen)
    (helse : open_ = true → ElseFree rest) :
    Yields (whileStatement inner s) s.loops s.faults rest
      ((StmtPhrase.statement open_ (.while condition body)).Good inLoop)
      fun stmt => stmt.unnumbered = (Stmt.while condition body).unnumbered := by
  rw [whileStatement, bind_expectSymbol hs hopening]
  refine ((h.expression hcondition (s := { s with rest := cs ++ closing :: (bs ++ rest) })
    (by omega) rfl (Rule.stops_cons _ (by rw [hclosing]; rfl))).mono (fun hg => hg.1.1)
    fun _ h => h).bind fun condition' t ht _ hcondition' => ?_
  rw [bind_expectSymbol ht hclosing]
  have hinside := yields_withLoops (s := { t with rest := bs ++ rest }) (· + 1)
    (h.statement hbody (by omega) rfl helse)
  refine (hinside.mono (fun hg => ⟨hg.1.2, hg.2⟩) fun _ h => h).bind fun body' u hu _ hbody' => ?_
  refine hu ▸ .done _ u ?_
  rw [Stmt.unnumbered, hcondition', hbody', Stmt.unnumbered]

theorem yields_breakStatement (keyword : Token) {s : ParseState} {semicolon : Token}
    {rest : List Token} (hs : s.rest = semicolon :: rest)
    (hsemicolon : semicolon.kind = .symbol .semicolon) :
    Yields (breakStatement keyword s) s.loops s.faults rest (decide (s.loops ≠ 0) = true)
      fun stmt => stmt = .break keyword.toLexeme := by
  have hsemi : ∀ faults, (expectSymbol .semicolon .semicolonAfterBreak >>= fun _ =>
      (pure (.break keyword.toLexeme) : Parser Stmt)) { s with faults } =
        .ok (.break keyword.toLexeme) { s with rest, faults } := fun faults =>
    bind_expectSymbol (s := { s with faults }) hs hsemicolon _
  by_cases hloops : s.loops = 0
  · let faults := s.faults.push (diagnostic keyword .breakOutsideLoop)
    refine ⟨.break keyword.toLexeme, { s with rest, faults }, ?_, rfl, rfl,
      fun hg => absurd hloops (of_decide_eq_true hg), rfl⟩
    refine Eq.trans ?_ (hsemi faults)
    unfold breakStatement
    show (if s.loops = 0 then _ else _ : Parser Stmt) s = _
    rw [if_pos hloops]
    rfl
  · refine ⟨.break keyword.toLexeme, { s with rest }, ?_, rfl, rfl, fun _ => rfl, rfl⟩
    refine Eq.trans ?_ (hsemi s.faults)
    unfold breakStatement
    show (if s.loops = 0 then _ else _ : Parser Stmt) s = _
    rw [if_neg hloops]

theorem yields_printStatement {inner : Inner} (h : InnerComplete n inner) {e : Expr}
    {ts : List Token} (he : e.Derives ts) (hn : ts.length < n) {s : ParseState} {semicolon : Token}
    {rest : List Token} (hs : s.rest = ts ++ semicolon :: rest)
    (hsemicolon : semicolon.kind = .symbol .semicolon) :
    Yields (printStatement inner s) s.loops s.faults rest e.ArityFits
      fun stmt => stmt.unnumbered = (Stmt.print e).unnumbered := by
  unfold printStatement
  refine (h.expression he hn hs (Rule.stops_cons _ (by rw [hsemicolon]; rfl))).bind
    fun e' t ht _ he' => ?_
  exact ⟨_, _, bind_expectSymbol ht hsemicolon _, rfl, rfl, fun _ => rfl, congrArg Stmt.print he'⟩

theorem yields_returnStatement {inner : Inner} (h : InnerComplete n inner) (keyword : Token)
    {e : Option Expr} {ts : List Token} (he : Optional e ts) (hn : ts.length < n) {s : ParseState}
    {semicolon : Token} {rest : List Token} (hs : s.rest = ts ++ semicolon :: rest)
    (hsemicolon : semicolon.kind = .symbol .semicolon) :
    Yields (returnStatement inner keyword s) s.loops s.faults rest (Expr.OptionArityFits e)
      fun stmt => stmt.unnumbered = (Stmt.return keyword.toLexeme e).unnumbered := by
  unfold returnStatement
  refine (yields_expressionUnless h he hn (.inl rfl) hs hsemicolon).bind fun e' t ht _ he' => ?_
  exact ⟨_, _, bind_expectSymbol ht hsemicolon _, rfl, rfl, fun _ => rfl,
    congrArg (Stmt.return keyword.toLexeme) he'⟩

/-- An `if` without an `else`. -/
theorem yields_if {inner : Inner} (h : InnerComplete n inner) {open_ : Bool} {condition : Expr}
    {cs : List Token} (hcondition : condition.Derives cs) {yes : Stmt} {ys : List Token}
    (hyes : (StmtPhrase.statement open_ yes).Derives ys) (hn : cs.length + ys.length < n)
    {s : ParseState} {opening closing : Token} {rest : List Token}
    (hs : s.rest = opening :: (cs ++ closing :: (ys ++ rest)))
    (hopening : opening.kind = .symbol .leftParen) (hclosing : closing.kind = .symbol .rightParen)
    (helse : ElseFree rest) :
    Yields (ifStatement inner s) s.loops s.faults rest
      ((StmtPhrase.statement true (.ifElse condition yes none)).Good (decide (s.loops ≠ 0)))
      fun stmt => stmt.unnumbered = (Stmt.ifElse condition yes none).unnumbered := by
  rw [ifStatement, bind_expectSymbol hs hopening]
  refine ((h.expression hcondition (s := { s with rest := cs ++ closing :: (ys ++ rest) })
    (by omega) rfl (Rule.stops_cons _ (by rw [hclosing]; rfl))).mono (fun hg => hg.1.1)
    fun _ h => h).bind fun condition' t ht hloops hcondition' => ?_
  rw [bind_expectSymbol ht hclosing]
  refine ((h.statement hyes (s := { t with rest := ys ++ rest }) (by omega) rfl
    fun _ => helse).mono (fun hg => ⟨hg.1.2, ?_⟩) fun _ h => h).bind fun yes' u hu _ hyes' => ?_
  · dsimp only
    rw [hloops]
    exact hg.2
  · rw [bind_accept_none]
    · refine hu ▸ .done _ u ?_
      simp only [Stmt.unnumbered, hcondition', hyes']
    · intro w hw
      rw [hu] at hw
      rw [Bool.eq_false_iff]
      exact fun hsame => helse w hw (TokenKind.sameType_keyword.mp hsame)

/-- An `if` with its `else`. -/
theorem yields_ifElse {inner : Inner} (h : InnerComplete n inner) {open_ : Bool} {condition : Expr}
    {cs : List Token} (hcondition : condition.Derives cs) {yes : Stmt} {ys : List Token}
    (hyes : (StmtPhrase.statement false yes).Derives ys) {no : Stmt} {ns : List Token}
    (hno : (StmtPhrase.statement open_ no).Derives ns)
    (hn : cs.length + ys.length + ns.length < n) {s : ParseState} {opening closing elseWord : Token}
    {rest : List Token}
    (hs : s.rest = opening :: (cs ++ closing :: (ys ++ elseWord :: (ns ++ rest))))
    (hopening : opening.kind = .symbol .leftParen) (hclosing : closing.kind = .symbol .rightParen)
    (hword : elseWord.kind = .keyword .elseWord) (helse : open_ = true → ElseFree rest) :
    Yields (ifStatement inner s) s.loops s.faults rest
      ((StmtPhrase.statement open_ (.ifElse condition yes (some no))).Good (decide (s.loops ≠ 0)))
      fun stmt => stmt.unnumbered = (Stmt.ifElse condition yes (some no)).unnumbered := by
  rw [ifStatement, bind_expectSymbol hs hopening]
  refine ((h.expression hcondition (s := { s with
    rest := cs ++ closing :: (ys ++ elseWord :: (ns ++ rest)) }) (by omega) rfl
    (Rule.stops_cons _ (by rw [hclosing]; rfl))).mono (fun hg => hg.1.1) fun _ h => h).bind
    fun condition' t ht hloops hcondition' => ?_
  rw [bind_expectSymbol ht hclosing]
  refine ((h.statement hyes (s := { t with rest := ys ++ elseWord :: (ns ++ rest) }) (by omega) rfl
    nofun).mono (fun hg => ⟨hg.1.2.1, ?_⟩) fun _ h => h).bind fun yes' u hu hloops' hyes' => ?_
  · dsimp only
    rw [hloops]
    exact hg.2.1
  · rw [bind_accept hu (TokenKind.sameType_keyword.mpr hword)]
    refine ((h.statement hno (s := { u with rest := ns ++ rest }) (by omega) rfl helse).mono
      (fun hg => ⟨hg.1.2.2, ?_⟩) fun _ h => h).bind fun no' v hv _ hno' => ?_
    · dsimp only at hloops' ⊢
      rw [hloops', hloops]
      exact hg.2.2
    · refine hv ▸ .done _ v ?_
      simp only [Stmt.unnumbered, hcondition', hyes', hno']

theorem complete_statementRule {inner : Inner} (h : InnerComplete n inner) :
    StmtComplete (n + 1) (statementRule inner) := by
  intro open_ stmt ts rest s hstmt hn hs helse
  cases hstmt with
  | @«break» word semicolon hword hsemicolon =>
    rw [statementRule, bind_peek hs]
    simp only [hword]
    rw [bind_advance hs]
    exact (yields_breakStatement word (s := { s with rest := semicolon :: rest }) rfl
      hsemicolon).mono (fun hg => hg.2) fun _ h => congrArg _ h
  | @«for» word opening second closing open_ first fs condition cs increment is body bs hword
      hopening hfirst hcondition hsecond hincrement hclosing hbody =>
    simp only [List.length_cons, List.length_append] at hn
    simp only [List.append_assoc, List.cons_append] at hs
    rw [statementRule, bind_peek hs]
    simp only [hword]
    rw [bind_advance hs]
    exact yields_forStatement h hfirst hcondition hincrement hbody (by omega) (s := { s with
      rest := opening :: (fs ++ (cs ++ second :: (is ++ closing :: (bs ++ rest)))) }) rfl hopening
      hsecond hclosing helse
  | @«if» word opening closing open_ condition cs yes ys hword hopening hcondition hclosing hyes =>
    simp only [List.length_cons, List.length_append] at hn
    simp only [List.append_assoc, List.cons_append] at hs
    rw [statementRule, bind_peek hs]
    simp only [hword]
    rw [bind_advance hs]
    exact yields_if h hcondition hyes (by omega) (s := { s with
      rest := opening :: (cs ++ closing :: (ys ++ rest)) }) rfl hopening hclosing (helse rfl)
  | @ifElse word opening closing elseWord open_ condition cs yes ys no ns hword hopening hcondition
      hclosing hyes helseWord hno =>
    simp only [List.length_cons, List.length_append] at hn
    simp only [List.append_assoc, List.cons_append] at hs
    rw [statementRule, bind_peek hs]
    simp only [hword]
    rw [bind_advance hs]
    exact yields_ifElse h hcondition hyes hno (by omega) (s := { s with
      rest := opening :: (cs ++ closing :: (ys ++ elseWord :: (ns ++ rest))) }) rfl hopening
      hclosing helseWord helse
  | @print word semicolon e ts hword he hsemicolon =>
    simp only [List.length_cons, List.length_append] at hn
    simp only [List.append_assoc, List.cons_append] at hs
    rw [statementRule, bind_peek hs]
    simp only [hword]
    rw [bind_advance hs]
    exact (yields_printStatement h he (by omega) (s := { s with rest := ts ++ semicolon :: rest })
      rfl hsemicolon).mono (fun hg => hg.1) fun _ h => h
  | @«return» word semicolon e ts hword he hsemicolon =>
    simp only [List.length_cons, List.length_append] at hn
    simp only [List.append_assoc, List.cons_append] at hs
    rw [statementRule, bind_peek hs]
    simp only [hword]
    rw [bind_advance hs]
    exact (yields_returnStatement h word he (by omega)
      (s := { s with rest := ts ++ semicolon :: rest }) rfl hsemicolon).mono (fun hg => hg.1)
      fun _ h => h
  | @«while» word opening closing open_ condition cs body bs hword hopening hcondition hclosing
      hbody =>
    simp only [List.length_cons, List.length_append] at hn
    simp only [List.append_assoc, List.cons_append] at hs
    rw [statementRule, bind_peek hs]
    simp only [hword]
    rw [bind_advance hs]
    exact yields_whileStatement h hcondition hbody (by omega) (s := { s with
      rest := opening :: (cs ++ closing :: (bs ++ rest)) }) rfl hopening hclosing helse
  | @block opening closing body bs hopening hbody hclosing =>
    simp only [List.length_cons, List.length_append] at hn
    simp only [List.append_assoc, List.cons_append] at hs
    rw [statementRule, bind_peek hs]
    simp only [hopening]
    rw [bind_advance hs]
    refine (yields_block h hbody (by omega) (s := { s with rest := bs ++ closing :: rest }) rfl
      hclosing).bind fun body' t ht _ hbody' => ?_
    exact ht ▸ .done _ t (congrArg Stmt.block hbody')
  | @expression semicolon e ts he hsemicolon =>
    simp only [List.length_append, List.length_cons] at hn
    simp only [List.append_assoc, List.cons_append] at hs
    obtain ⟨head, us, rfl, hbegins⟩ := he.begins
    have hexpression : Yields (expressionStatement inner s) s.loops s.faults rest
        ((StmtPhrase.statement false (.expression e)).Good (decide (s.loops ≠ 0)))
        fun stmt => stmt.unnumbered = (Stmt.expression e).unnumbered :=
      (yields_expressionStatement h he (by omega) hs hsemicolon).mono (fun hg => hg.1) fun _ h => h
    rw [statementRule, bind_peek hs]
    -- No other statement begins like an expression.
    generalize head.kind = kind at hbegins
    cases hbegins with
    | primary hprimary =>
      cases hprimary with
      | constant hvalue => cases hvalue <;> exact hexpression
      | _ => exact hexpression
    | inFront hop => cases hop <;> exact hexpression

/-! ## Declarations and programs -/

theorem complete_declarationRule {inner : Inner} (h : InnerComplete n inner) :
    DeclComplete (n + 1) (declarationRule inner) := by
  intro stmt ts rest s hstmt hn hs helse
  unfold declarationRule
  refine yields_recovering ?_
  cases hstmt with
  | @«class» word name opening closing superclass ss methods ms hword hname hss hopening hmethods
      hclosing =>
    simp only [List.length_cons, List.length_append] at hn
    simp only [List.append_assoc, List.cons_append] at hs
    rw [bind_peek hs]
    simp only [hword]
    rw [bind_advance hs]
    exact yields_classDeclaration h hss hmethods (by omega) (decide (s.loops ≠ 0)) (s := { s with
      rest := name :: (ss ++ opening :: (ms ++ closing :: rest)) }) rfl hname hopening hclosing
  | @function word decl ts hword hdecl =>
    simp only [List.length_cons] at hn
    rw [bind_peek hs]
    simp only [hword]
    rw [bind_advance hs]
    refine (yields_function h hdecl (by omega) .function (decide (s.loops ≠ 0))
      (s := { s with rest := ts ++ rest }) rfl).bind fun decl' t ht _ hdecl' => ?_
    exact ht ▸ .done _ t (congrArg Stmt.function hdecl')
  | @var word stmt ts hword hstmt =>
    simp only [List.length_cons] at hn
    rw [bind_peek hs]
    simp only [hword]
    rw [bind_advance hs]
    exact (yields_varDeclaration h hstmt (by omega) (s := { s with rest := ts ++ rest }) rfl).mono
      (fun hg => hg.1) fun _ h => h
  | @statement open_ stmt ts hstmt =>
    have hrule := complete_statementRule h hstmt hn hs fun _ => helse
    obtain ⟨t, us, rfl, _, hkeyword⟩ := hstmt.statement_begins
    rw [bind_peek hs]
    generalize t.kind = kind at hkeyword
    cases kind with
    | keyword keyword =>
      cases keyword with
      | classWord => exact absurd rfl (hkeyword .classWord (by simp))
      | funWord => exact absurd rfl (hkeyword .funWord (by simp))
      | varWord => exact absurd rfl (hkeyword .varWord (by simp))
      | _ => exact hrule
    | _ => exact hrule

theorem innerComplete (n : Nat) :
    InnerComplete n ⟨n + 1, expression n, statement n, declaration n⟩ := by
  induction n with
  | zero =>
    refine ⟨Nat.zero_le _, complete_expression 0, ?_, ?_⟩
    · exact fun _ _ _ _ _ _ hn => absurd hn (Nat.not_lt_zero _)
    · exact fun _ _ _ _ _ hn => absurd hn (Nat.not_lt_zero _)
  | succ n ih =>
    exact ⟨Nat.le_succ _, complete_expression _, complete_statementRule ih,
      complete_declarationRule ih⟩

theorem complete_program {ss : List Stmt} {ts : List Token}
    (h : (StmtPhrase.declarations ss).Derives ts) {n : Nat} (hn : ts.length < n) {s : ParseState}
    (hs : s.rest = ts) :
    Yields (program n s) s.loops s.faults []
      ((StmtPhrase.declarations ss).Good (decide (s.loops ≠ 0)))
      fun ss' => Stmt.listUnnumbered ss' = Stmt.listUnnumbered ss := by
  unfold program
  refine (yields_declarationsFrom false (innerComplete n).declaration h hn (Nat.le_of_lt hn) #[]
    (hs.trans (List.append_nil ts).symm) (.inl rfl)).bind fun all t ht _ hall => ?_
  obtain ⟨ss', hss', hunnumbered⟩ := hall
  rw [List.nil_append] at hss'
  exact ht ▸ .done _ t (hss' ▸ hunnumbered)

end Parser

end Lox
