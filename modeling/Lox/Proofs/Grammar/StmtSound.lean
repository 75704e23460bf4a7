/-
  Lox.Proofs.Grammar.StmtSound

  What the parser takes for a statement or a declaration is one.

    * `StmtPhrase.Part` — the tokens are a phrase of the given kind, within bounds,
      with every `break` in a loop and with the occurrences numbered;
    * `reads_statement`, `reads_declaration`, `reads_program` — the parser reads
      such parts.
-/
import Lox.Proofs.Grammar.ExprSound

namespace Lox

/-! ## Parts -/

namespace StmtPhrase

/-- The uses in a phrase. -/
def uses : StmtPhrase → List Use
  | declarations ss => Stmt.listUses ss
  | declaration s => s.uses
  | statement _ s => s.uses
  | function decl => decl.uses
  | methods decls => FunctionDecl.listUses decls

/-- Calls and declarations in a phrase are within bounds. -/
def ArityFits : StmtPhrase → Prop
  | declarations ss => Stmt.ListArityFits ss
  | declaration s => s.ArityFits
  | statement _ s => s.ArityFits
  | function decl => decl.ArityFits
  | methods decls => FunctionDecl.ListArityFits decls

/-- Every `break` in a phrase has a loop around it. -/
def BreaksInside (inLoop : Bool) : StmtPhrase → Prop
  | declarations ss => Stmt.ListBreaksInside inLoop ss
  | declaration s => s.BreaksInside inLoop
  | statement _ s => s.BreaksInside inLoop
  | function decl => decl.BreaksInside
  | methods decls => FunctionDecl.ListBreaksInside decls

/-- The tokens are such a phrase, within bounds, with every `break` in a loop and
    with its occurrences numbered. -/
structure Part (phrase : StmtPhrase) (inLoop : Bool) (ts : List Token) (first next : Nat) :
    Prop where
  derives : phrase.Derives ts
  fits : phrase.ArityFits
  breaks : phrase.BreaksInside inLoop
  fresh : Fresh phrase.uses first next

end StmtPhrase

/-- Whether there is a loop around a stretch. -/
def Stretch.inLoop (w : Stretch) : Bool := decide (w.loops ≠ 0)

/-- A phrase was read. -/
abbrev PhraseRead (w : Stretch) (phrase : StmtPhrase) : Prop :=
  phrase.Part w.inLoop w.read w.first w.next

/-- A statement was read, and if it could have taken an `else`, there was none. -/
def StmtRead (w : Stretch) (s : Stmt) : Prop :=
  ∃ open_, PhraseRead w (.statement open_ s) ∧
    (open_ = true → ∀ t, w.rest.head? = some t → t.kind ≠ .keyword .elseWord)

theorem StmtPhrase.Derives.statement_length_pos {open_ : Bool} {s : Stmt} {ts : List Token}
    (h : (StmtPhrase.statement open_ s).Derives ts) : 0 < ts.length := by
  cases h <;> simp

theorem StmtPhrase.Derives.declaration_length_pos {s : Stmt} {ts : List Token}
    (h : (StmtPhrase.declaration s).Derives ts) : 0 < ts.length := by
  cases h with
  | statement hs => exact hs.statement_length_pos
  | _ => simp

theorem StmtPhrase.Derives.function_length_pos {decl : FunctionDecl} {ts : List Token}
    (h : (StmtPhrase.function decl).Derives ts) : 0 < ts.length := by
  cases h
  simp

namespace Parser

variable {n : Nat}

/-- What the parts of a statement read when fewer than `n` tokens are left. -/
structure InnerReads (n : Nat) (inner : Inner) : Prop where
  bound : n ≤ inner.bound
  expression : Reads (n + 1) inner.expression (ExprRead .assignment)
  statement : Reads n inner.statement StmtRead
  declaration : Reads n inner.declaration fun w r =>
    ∃ s, r = some s ∧ PhraseRead w (.declaration s)

/-! ## Declarations -/

/-- Nothing more is read of a list of declarations. -/
theorem phraseRead_noDeclarations (s : ParseState) (before : Array Stmt) :
    ∃ ss, before.toList = before.toList ++ ss ∧
      PhraseRead ⟨s.loops, [], s.rest, s.nextId, s.nextId⟩ (.declarations ss) :=
  ⟨[], by simp, .noDeclarations, trivial, trivial, .nil (Nat.le_refl _)⟩

theorem reads_declarationsFrom {declaration : Parser (Option Stmt)} (braced : Bool)
    (hdeclaration : Reads n declaration fun w r =>
      ∃ s, r = some s ∧ PhraseRead w (.declaration s))
    {bound : Nat} (hbound : n ≤ bound + 1) (before : Array Stmt) :
    Reads n (declarationsFrom declaration braced bound before) fun w all =>
      (∃ ss, all.toList = before.toList ++ ss ∧ PhraseRead w (.declarations ss)) ∧
        (braced = false → w.rest = []) := by
  induction bound generalizing n before with
  | zero =>
    refine .still (fun _ => before) (fun _ => rfl) fun s _ hlt =>
      ⟨phraseRead_noDeclarations s before, fun _ => ?_⟩
    exact List.eq_nil_of_length_eq_zero (by dsimp only; omega)
  | succ bound ih =>
    have hmore : Reads n (declaration >>= fun stmt =>
        declarationsFrom declaration braced bound (stmt.elim before before.push)) fun w all =>
        (∃ ss, all.toList = before.toList ++ ss ∧ PhraseRead w (.declarations ss)) ∧
          (braced = false → w.rest = []) := by
      refine hdeclaration.bindAfter (fun _ => 1) ?_ fun r => ?_
      · rintro w r ⟨s, _, hs⟩
        exact hs.derives.declaration_length_pos
      · refine (ih (hdeclaration.shorter (Nat.sub_le n 1)) (by omega) _).mono ?_
        rintro w all ⟨⟨ss, hall, hss⟩, hend⟩ read first ⟨s, rfl, hs⟩
        exact ⟨⟨s :: ss, by simp [hall], .declarations hs.derives hss.derives,
          ⟨hs.fits, hss.fits⟩, ⟨hs.breaks, hss.breaks⟩, hs.fresh.append hss.fresh⟩, hend⟩
    intro s
    unfold declarationsFrom
    cases hrest : s.rest with
    | nil =>
      refine ⟨.refl s, fun _ _ _ => ⟨[], by simp [hrest], ?_, fun _ => hrest⟩⟩
      exact phraseRead_noDeclarations s before
    | cons t rest =>
      dsimp only
      by_cases hstop : (braced && decide (t.kind = .symbol .rightBrace)) = true
      · rw [if_pos hstop]
        refine ⟨.refl s, fun _ _ _ => ⟨[], by simp [hrest], phraseRead_noDeclarations s before, ?_⟩⟩
        intro hbraced
        simp [hbraced] at hstop
      · rw [if_neg hstop, ← hrest]
        exact hmore s

/-- Declarations and a closing brace were read. -/
def BodyRead (w : Stretch) (body : List Stmt) : Prop :=
  ∃ (ts : List Token) (closing : Token), w.read = ts ++ [closing] ∧
    closing.kind = .symbol .rightBrace ∧
    (StmtPhrase.declarations body).Part w.inLoop ts w.first w.next

theorem reads_block {inner : Inner} (h : InnerReads n inner) : Reads n (block inner) BodyRead := by
  refine (reads_declarationsFrom true h.declaration (Nat.le_succ_of_le h.bound) #[]).bind
    fun body => (reads_expectSymbol _ _).bindToken fun _ => .done _ ?_
  rintro loops rest id closing ⟨_, hclosing⟩ read first ⟨⟨ss, hbody, hss⟩, _⟩
  rw [List.nil_append] at hbody
  subst hbody
  exact ⟨read, closing, rfl, hclosing, hss⟩

theorem reads_parametersFrom (bound : Nat) (hbound : n ≤ bound) (before : Array Lexeme) :
    Reads n (parametersFrom bound before) fun w all =>
      ∃ names, all.toList = before.toList ++ names ∧ Parameters names w.read ∧
        w.next = w.first ∧ all.size ≤ 255 := by
  induction bound generalizing n before with
  | zero =>
    exact .still (fun _ => before) (fun _ => rfl) fun s _ hlt => absurd hlt (by omega)
  | succ bound ih =>
    have hparameter : Reads n (do
        let parameter ← expectName .parameterName
        if ← acceptSymbol .comma then parametersFrom bound (before.push parameter)
        else pure (before.push parameter)) fun w all => before.size < 255 →
          ∃ names, all.toList = before.toList ++ names ∧ Parameters names w.read ∧
            w.next = w.first ∧ all.size ≤ 255 := by
      refine (reads_expectName _).bindToken fun name => .bindSymbol ?_ ?_
      · refine .done _ fun loops rest id _ t ⟨hname, hkind⟩ hsize => ⟨[name], by simp, ?_, rfl, ?_⟩
        · exact hname ▸ .last hkind
        · rw [Array.size_push]
          omega
      · refine (ih (by omega) (before.push name)).mono ?_
        rintro w all ⟨names, hall, hnames, hnext, hsize⟩ comma hcomma t ⟨hname, hkind⟩ _
        exact ⟨name :: names, by simp [hall], hname ▸ .more hkind hcomma hnames, hnext, hsize⟩
    unfold parametersFrom
    split
    · refine reads_peek.bindStill fun t => (reads_report t _).bind fun _ => hparameter.mono ?_
      intro w all _ read first hfalse
      exact hfalse.elim
    · next hsize => exact hparameter.mono fun w all h => h (by unfold maxArity at hsize; omega)

/-- The rest of a function behind its parameters. -/
theorem reads_functionBody {inner : Inner} (h : InnerReads n inner) {m : Nat} (hm : m ≤ n)
    (kind : CallableKind) (name : Lexeme) (parameters : List Lexeme) :
    Reads m (do
      let _ ← expectSymbol .rightParen .parenAfterParameters
      let _ ← expectSymbol .leftBrace (.braceBeforeCallableBody kind)
      let body ← outsideLoops (block inner)
      return (⟨name, parameters, body⟩ : FunctionDecl)) fun w decl =>
      ∀ (nameToken opening : Token) (ps : List Token), name = nameToken.toLexeme →
        nameToken.kind = .identifier → opening.kind = .symbol .leftParen →
        (parameters = [] ∧ ps = [] ∨ Parameters parameters ps) → parameters.length ≤ 255 →
        PhraseRead ⟨w.loops, nameToken :: opening :: (ps ++ w.read), w.rest, w.first, w.next⟩
          (.function decl) := by
  refine (reads_expectSymbol _ _).bindToken fun _ => (reads_expectSymbol _ _).bindToken fun _ => ?_
  refine ((reads_withLoops (fun _ => 0) (reads_block h)).shorter (by omega)).bind fun body =>
    .done _ ?_
  rintro loops rest id read first ⟨bs, right, hread, hright, hbody⟩ left ⟨_, hleft⟩ closing
    ⟨_, hclosing⟩ nameToken opening ps rfl hname hopening hps hsize
  dsimp only at hread hbody ⊢
  subst hread
  rw [List.append_nil]
  exact ⟨.callable hname hopening hps hclosing hleft hbody.derives hright, ⟨hsize, hbody.fits⟩,
    hbody.breaks, hbody.fresh⟩

theorem reads_function {inner : Inner} (h : InnerReads n inner) (kind : CallableKind) :
    Reads n (function inner kind) fun w decl => PhraseRead w (.function decl) := by
  unfold function
  refine (reads_expectName _).bindToken fun name => (reads_expectSymbol _ _).bindToken fun _ => ?_
  refine (reads_check _).bindStill fun empty => ?_
  cases empty with
  | true =>
    refine (reads_functionBody h (by omega) kind name []).mono ?_
    rintro w decl hdecl _ opening ⟨_, hopening⟩ nameToken ⟨hname, hkind⟩
    exact hdecl nameToken opening [] hname hkind hopening (.inl ⟨rfl, rfl⟩) (by decide)
  | false =>
    refine (reads_parametersFrom inner.bound ?_ #[]).bind fun parameters => ?_
    · have := h.bound
      omega
    refine (reads_functionBody h (by omega) kind name parameters.toList).mono ?_
    rintro w decl hdecl read first ⟨names, hnames, hps, hnext, hsize⟩ _ opening ⟨_, hopening⟩
      nameToken ⟨hname, hkind⟩
    rw [List.nil_append] at hnames
    subst hnames
    dsimp only at hnext hps
    subst hnext
    exact hdecl nameToken opening read hname hkind hopening (.inr hps) hsize

theorem reads_methodsFrom {method : Parser FunctionDecl}
    (hmethod : Reads n method fun w decl => PhraseRead w (.function decl)) (bound : Nat)
    (before : Array FunctionDecl) :
    Reads n (methodsFrom method bound before) fun w all =>
      ∃ ds, all.toList = before.toList ++ ds ∧ PhraseRead w (.methods ds) := by
  have hnone : ∀ (s : ParseState) (before : Array FunctionDecl),
      ∃ ds, before.toList = before.toList ++ ds ∧
        PhraseRead ⟨s.loops, [], s.rest, s.nextId, s.nextId⟩ (.methods ds) := fun s before =>
    ⟨[], by simp, .noMethods, trivial, trivial, .nil (Nat.le_refl _)⟩
  induction bound generalizing before with
  | zero => exact .still (fun _ => before) (fun _ => rfl) fun s _ _ => hnone s before
  | succ bound ih =>
    have hmore : Reads n (method >>= fun d => methodsFrom method bound (before.push d)) fun w all =>
        ∃ ds, all.toList = before.toList ++ ds ∧ PhraseRead w (.methods ds) := by
      refine hmethod.bind fun d => (ih (before.push d)).mono ?_
      rintro w all ⟨ds, hall, hds⟩ read first hd
      exact ⟨d :: ds, by simp [hall], .methods hd.derives hds.derives, ⟨hd.fits, hds.fits⟩,
        ⟨hd.breaks, hds.breaks⟩, hd.fresh.append hds.fresh⟩
    intro s
    unfold methodsFrom
    cases hrest : s.rest with
    | nil => exact ⟨.refl s, fun _ _ _ => ⟨[], by simp [hrest], hnone s before⟩⟩
    | cons t rest =>
      dsimp only
      by_cases hstop : t.kind = .symbol .rightBrace
      · rw [if_pos hstop]
        exact ⟨.refl s, fun _ _ _ => ⟨[], by simp [hrest], hnone s before⟩⟩
      · rw [if_neg hstop, ← hrest]
        exact hmore s

/-- The rest of a class behind its superclass clause. -/
theorem reads_classBody {inner : Inner} (h : InnerReads n inner) {m : Nat} (hm : m ≤ n)
    (name : Lexeme) (superclass : Option Occurrence) :
    Reads m (do
      let _ ← expectSymbol .leftBrace .braceBeforeClassBody
      let methods ← methodsFrom (function inner .method) inner.bound #[]
      let _ ← expectSymbol .rightBrace .braceAfterClassBody
      return .class name superclass methods.toList) fun w s =>
      ∀ (word nameToken : Token) (ss : List Token) (first : Nat),
        word.kind = .keyword .classWord → nameToken.kind = .identifier →
        name = nameToken.toLexeme → SuperclassClause superclass ss →
        Fresh (superclass.map (Use.mk .read)).toList first w.first →
        PhraseRead ⟨w.loops, word :: nameToken :: (ss ++ w.read), w.rest, first, w.next⟩
          (.declaration s) := by
  refine (reads_expectSymbol _ _).bindToken fun _ => ?_
  refine ((reads_methodsFrom (reads_function h .method) inner.bound #[]).shorter (by omega)).bind
    fun methods => (reads_expectSymbol _ _).bindToken fun _ => .done _ ?_
  rintro loops rest id closing ⟨_, hclosing⟩ read first ⟨ds, hmethods, hds⟩ opening ⟨_, hopening⟩
    word nameToken ss start hword hname rfl hss hfresh
  rw [List.nil_append] at hmethods
  subst hmethods
  exact ⟨.class hword hname hss hopening hds.derives hclosing, hds.fits, hds.breaks,
    hfresh.append hds.fresh⟩

theorem reads_classDeclaration {inner : Inner} (h : InnerReads n inner) :
    Reads n (classDeclaration inner) fun w s => ∀ word : Token, word.kind = .keyword .classWord →
      PhraseRead ⟨w.loops, word :: w.read, w.rest, w.first, w.next⟩ (.declaration s) := by
  unfold classDeclaration
  refine (reads_expectName _).bindToken fun name => .bindSymbol ?_ ?_
  · refine (reads_classBody h (by omega) name none).mono ?_
    rintro w s hs _ nameToken ⟨hname, hkind⟩ word hword
    exact hs word nameToken [] w.first hword hkind hname .none (.nil (Nat.le_refl _))
  · refine (reads_expectName _).bindToken fun parent => (reads_occurrence _).bind fun use => ?_
    refine (reads_classBody h (by omega) name (some use)).mono ?_
    rintro w s hs read first ⟨hread, huse, hnext⟩ parentToken ⟨hparent, hkind⟩ less hless
      nameToken ⟨hname, hkind'⟩ word hword
    dsimp only at hread huse hnext ⊢
    subst hread huse hparent
    refine hs word nameToken [less, parentToken] first hword hkind' hname (.some hless hkind) ?_
    rw [hnext]
    exact .single .read _ _

/-- A variable was read, without the word `var`. -/
structure VariableRead (w : Stretch) (s : Stmt) : Prop where
  derives : Variable s w.read
  fits : s.ArityFits
  breaks : ∀ inLoop, s.BreaksInside inLoop
  fresh : Fresh s.uses w.first w.next

theorem reads_varDeclaration {inner : Inner} (h : InnerReads n inner) :
    Reads n (varDeclaration inner) VariableRead := by
  unfold varDeclaration
  refine (reads_expectName _).bindToken fun name => .bindSymbol ?_ ?_
  · refine (reads_expectSymbol _ _).bindToken fun _ => .done _ ?_
    rintro loops rest id semicolon ⟨_, hsemicolon⟩ _ nameToken ⟨rfl, hname⟩
    exact ⟨.mk hname .none hsemicolon, trivial, fun _ => trivial, .nil (Nat.le_refl _)⟩
  · refine (h.expression.shorter (by omega)).bind fun value =>
      (reads_expectSymbol _ _).bindToken fun _ => .done _ ?_
    rintro loops rest id semicolon ⟨_, hsemicolon⟩ read first hvalue equals hequals nameToken
      ⟨rfl, hname⟩
    exact ⟨.mk hname (.some hequals hvalue.part.derives) hsemicolon, hvalue.part.fits,
      fun _ => trivial, hvalue.part.fresh⟩

/-! ## Statements -/

/-- An expression that may be missing was read. -/
structure OptionRead (w : Stretch) (e : Option Expr) : Prop where
  derives : Optional e w.read
  fits : Expr.OptionArityFits e
  fresh : Fresh (Expr.optionUses e) w.first w.next

theorem reads_expressionUnless {inner : Inner} (h : InnerReads n inner) (stop : Symbol) :
    Reads n (expressionUnless inner stop) OptionRead := by
  unfold expressionUnless
  refine (reads_check _).bindStill fun missing => ?_
  cases missing with
  | true => exact .done _ fun _ _ _ _ => ⟨.none, trivial, .nil (Nat.le_refl _)⟩
  | false =>
    refine (h.expression.shorter (by omega)).bind fun e => .done _ ?_
    intro loops rest id read first he _
    dsimp only at he ⊢
    rw [List.append_nil]
    exact ⟨.some he.part.derives, he.part.fits, he.part.fresh⟩

theorem reads_expressionStatement {inner : Inner} (h : InnerReads n inner) :
    Reads (n + 1) (expressionStatement inner) fun w s => ∃ (e : Expr) (ts : List Token)
      (semicolon : Token), s = .expression e ∧ w.read = ts ++ [semicolon] ∧
        semicolon.kind = .symbol .semicolon ∧ e.Part .assignment ts w.first w.next := by
  unfold expressionStatement
  refine h.expression.bind fun e => (reads_expectSymbol _ _).bindToken fun _ => .done _ ?_
  rintro loops rest id semicolon ⟨_, hsemicolon⟩ read first he
  exact ⟨e, read, semicolon, rfl, rfl, hsemicolon, he.part⟩

/-- A `break` outside a loop is a fault. -/
theorem reads_breakStatement (keyword : Token) :
    Reads n (breakStatement keyword) fun w s => keyword.kind = .keyword .breakWord →
      PhraseRead ⟨w.loops, keyword :: w.read, w.rest, w.first, w.next⟩ (.statement false s) := by
  have hrest : Reads n (do
      let _ ← expectSymbol .semicolon .semicolonAfterBreak
      return .break keyword.toLexeme) fun w s => w.inLoop = true →
        keyword.kind = .keyword .breakWord →
        PhraseRead ⟨w.loops, keyword :: w.read, w.rest, w.first, w.next⟩ (.statement false s) := by
    refine (reads_expectSymbol _ _).bindToken fun _ => .done _ ?_
    rintro loops rest id semicolon ⟨_, hsemicolon⟩ hloop hword
    exact ⟨.break hword hsemicolon, trivial, hloop, .nil (Nat.le_refl _)⟩
  unfold breakStatement
  refine reads_get.bindStill fun s => ?_
  dsimp only
  split
  · refine (reads_report _ _).bind fun _ => hrest.mono ?_
    intro w all _ read first hfalse
    exact hfalse.elim
  · next hloops =>
    refine hrest.mono fun w all hall hs hword => hall ?_ hword
    unfold Stretch.inLoop
    rw [← hs]
    exact decide_eq_true hloops

/-- What stands first between the parentheses of a `for` was read. -/
structure FirstRead (w : Stretch) (s : Option Stmt) : Prop where
  derives : First s w.read
  fits : ∀ first, s = some first → first.ArityFits
  breaks : ∀ first, s = some first → first.BreaksInside w.inLoop
  fresh : Fresh (s.elim [] Stmt.uses) w.first w.next

theorem reads_forInitializer {inner : Inner} (h : InnerReads n inner) :
    Reads n (forInitializer inner) FirstRead := by
  unfold forInitializer
  refine .bindSymbol ?_ ?_
  · refine (reads_accept _).bindOption ?_ fun word => ?_
    · refine ((reads_expressionStatement h).shorter (by omega)).bind fun s => .done _ ?_
      rintro loops rest id read first ⟨e, ts, semicolon, rfl, hread, hsemicolon, he⟩ _ _
      dsimp only at hread he ⊢
      subst hread
      rw [List.append_nil]
      refine ⟨.expression he.derives hsemicolon, ?_, ?_, he.fresh⟩
      · rintro _ ⟨⟩
        exact he.fits
      · rintro _ ⟨⟩
        trivial
    · refine ((reads_varDeclaration h).shorter (by omega)).bind fun s => .done _ ?_
      rintro loops rest id read first hs t ⟨rfl, hword⟩ _
      dsimp only at hs ⊢
      rw [List.append_nil]
      refine ⟨.var (TokenKind.sameType_keyword.mp hword) hs.derives, ?_, ?_, hs.fresh⟩
      · rintro _ ⟨⟩
        exact hs.fits
      · rintro _ ⟨⟩
        exact hs.breaks _
  · refine .done _ fun loops rest id semicolon hsemicolon => ?_
    exact ⟨.none hsemicolon, nofun, nofun, .nil (Nat.le_refl _)⟩

/-- Without its numbers, the tree of a `for` has the uses of its parts. -/
theorem forTree_uses (first : Option Stmt) (condition increment : Option Expr) (body : Stmt) :
    (forTree first condition increment body).uses = first.elim [] Stmt.uses ++
      (Expr.optionUses condition ++ (body.uses ++ Expr.optionUses increment)) := by
  cases first <;> cases condition <;> cases increment <;>
    simp [forTree, Stmt.uses, Stmt.listUses, Expr.uses, Expr.optionUses]

theorem forTree_arityFits {first : Option Stmt} {condition increment : Option Expr} {body : Stmt}
    (hfirst : ∀ s, first = some s → s.ArityFits) (hcondition : Expr.OptionArityFits condition)
    (hincrement : Expr.OptionArityFits increment) (hbody : body.ArityFits) :
    (forTree first condition increment body).ArityFits := by
  cases first <;> cases condition <;> cases increment <;>
    simp_all [forTree, Stmt.ArityFits, Stmt.ListArityFits, Expr.ArityFits, Expr.OptionArityFits]

theorem forTree_breaksInside {first : Option Stmt} {condition increment : Option Expr} {body : Stmt}
    {inLoop : Bool} (hfirst : ∀ s, first = some s → s.BreaksInside inLoop)
    (hbody : body.BreaksInside true) :
    (forTree first condition increment body).BreaksInside inLoop := by
  cases first <;> cases increment <;>
    simp_all [forTree, Stmt.BreaksInside, Stmt.ListBreaksInside]

theorem reads_forStatement {inner : Inner} (h : InnerReads n inner) :
    Reads n (forStatement inner) fun w s => ∀ word : Token, word.kind = .keyword .forWord →
      StmtRead ⟨w.loops, word :: w.read, w.rest, w.first, w.next⟩ s := by
  unfold forStatement
  refine (reads_expectSymbol _ _).bindToken fun _ => ?_
  refine ((reads_forInitializer h).shorter (by omega)).bind fun initializer => ?_
  refine ((reads_expressionUnless h _).shorter (by omega)).bind fun condition => ?_
  refine (reads_expectSymbol _ _).bindToken fun _ => ?_
  refine ((reads_expressionUnless h _).shorter (by omega)).bind fun increment => ?_
  refine (reads_expectSymbol _ _).bindToken fun _ => ?_
  refine ((reads_withLoops (· + 1) h.statement).shorter (by omega)).bind fun body => .done _ ?_
  rintro loops rest id bs bsFirst ⟨open_, hbody, helse⟩ closing ⟨_, hclosing⟩ is isFirst hincrement
    second ⟨_, hsecond⟩ cs csFirst hcondition fs fsFirst hfirst opening ⟨_, hopening⟩ word hword
  dsimp only at hbody helse hincrement hcondition hfirst ⊢
  rw [List.append_nil]
  refine ⟨open_, ⟨.for hword hopening hfirst.derives hcondition.derives hsecond
    hincrement.derives hclosing hbody.derives, ?_, ?_, ?_⟩, helse⟩
  · exact forTree_arityFits hfirst.fits hcondition.fits hincrement.fits hbody.fits
  · exact forTree_breaksInside hfirst.breaks hbody.breaks
  · show Fresh (forTree initializer condition increment body).uses _ _
    rw [forTree_uses]
    exact hfirst.fresh.append (hcondition.fresh.append (hincrement.fresh.append_swap hbody.fresh))

theorem reads_ifStatement {inner : Inner} (h : InnerReads n inner) :
    Reads n (ifStatement inner) fun w s => ∀ word : Token, word.kind = .keyword .ifWord →
      StmtRead ⟨w.loops, word :: w.read, w.rest, w.first, w.next⟩ s := by
  unfold ifStatement
  refine (reads_expectSymbol _ _).bindToken fun _ => ?_
  refine (h.expression.shorter (by omega)).bind fun condition => ?_
  refine (reads_expectSymbol _ _).bindToken fun _ => ?_
  refine (h.statement.shorter (by omega)).bind fun yes => (reads_accept _).bindOption ?_ fun _ => ?_
  · refine .done _ ?_
    rintro loops rest id helse ys ysFirst ⟨open_, hyes, _⟩ closing ⟨_, hclosing⟩ cs csFirst
      hcondition opening ⟨_, hopening⟩ word hword
    dsimp only at hyes hcondition ⊢
    rw [List.append_nil]
    refine ⟨true, ⟨.if hword hopening hcondition.part.derives hclosing hyes.derives,
      ⟨hcondition.part.fits, hyes.fits⟩, hyes.breaks, hcondition.part.fresh.append hyes.fresh⟩, ?_⟩
    intro _ t ht hkind
    have hsame := helse t ht
    rw [TokenKind.sameType_keyword.mpr hkind] at hsame
    cases hsame
  · refine (h.statement.shorter (by omega)).bind fun no => .done _ ?_
    rintro loops rest id ns nsFirst ⟨open_, hno, hopen⟩ elseWord ⟨_, helse⟩ ys ysFirst
      ⟨openYes, hyes, hopenYes⟩ closing ⟨_, hclosing⟩ cs csFirst hcondition opening ⟨_, hopening⟩
      word hword
    have helse := TokenKind.sameType_keyword.mp helse
    -- The first branch ends before the `else`, so it could not have taken it.
    cases openYes with
    | true => exact absurd helse (hopenYes rfl elseWord rfl)
    | false =>
      dsimp only at hno hopen hyes hcondition ⊢
      rw [List.append_nil]
      exact ⟨open_, ⟨.ifElse hword hopening hcondition.part.derives hclosing hyes.derives helse
        hno.derives, ⟨hcondition.part.fits, hyes.fits, hno.fits⟩, ⟨hyes.breaks, hno.breaks⟩,
        (hcondition.part.fresh.append hyes.fresh).append hno.fresh⟩, hopen⟩

theorem reads_printStatement {inner : Inner} (h : InnerReads n inner) :
    Reads n (printStatement inner) fun w s => ∀ word : Token, word.kind = .keyword .printWord →
      PhraseRead ⟨w.loops, word :: w.read, w.rest, w.first, w.next⟩ (.statement false s) := by
  unfold printStatement
  refine (h.expression.shorter (by omega)).bind fun e =>
    (reads_expectSymbol _ _).bindToken fun _ => .done _ ?_
  rintro loops rest id semicolon ⟨_, hsemicolon⟩ read first he word hword
  exact ⟨.print hword he.part.derives hsemicolon, he.part.fits, trivial, he.part.fresh⟩

theorem reads_returnStatement {inner : Inner} (h : InnerReads n inner) (keyword : Token) :
    Reads n (returnStatement inner keyword) fun w s => keyword.kind = .keyword .returnWord →
      PhraseRead ⟨w.loops, keyword :: w.read, w.rest, w.first, w.next⟩ (.statement false s) := by
  unfold returnStatement
  refine (reads_expressionUnless h _).bind fun e =>
    (reads_expectSymbol _ _).bindToken fun _ => .done _ ?_
  rintro loops rest id semicolon ⟨_, hsemicolon⟩ read first he hword
  exact ⟨.return hword he.derives hsemicolon, he.fits, trivial, he.fresh⟩

theorem reads_whileStatement {inner : Inner} (h : InnerReads n inner) :
    Reads n (whileStatement inner) fun w s => ∀ word : Token, word.kind = .keyword .whileWord →
      StmtRead ⟨w.loops, word :: w.read, w.rest, w.first, w.next⟩ s := by
  unfold whileStatement
  refine (reads_expectSymbol _ _).bindToken fun _ => ?_
  refine (h.expression.shorter (by omega)).bind fun condition => ?_
  refine (reads_expectSymbol _ _).bindToken fun _ => ?_
  refine ((reads_withLoops (· + 1) h.statement).shorter (by omega)).bind fun body => .done _ ?_
  rintro loops rest id bs bsFirst ⟨open_, hbody, helse⟩ closing ⟨_, hclosing⟩ cs csFirst
    hcondition opening ⟨_, hopening⟩ word hword
  dsimp only at hbody helse hcondition ⊢
  rw [List.append_nil]
  exact ⟨open_, ⟨.while hword hopening hcondition.part.derives hclosing hbody.derives,
    ⟨hcondition.part.fits, hbody.fits⟩, hbody.breaks,
    hcondition.part.fresh.append hbody.fresh⟩, helse⟩

/-- A statement that an `else` cannot belong to. -/
theorem stmtRead_closed {w : Stretch} {s : Stmt} (h : PhraseRead w (.statement false s)) :
    StmtRead w s :=
  ⟨false, h, nofun⟩

theorem reads_statementRule {inner : Inner} (h : InnerReads n inner) :
    Reads (n + 1) (statementRule inner) StmtRead := by
  unfold statementRule
  refine reads_peek.bindStill fun t => ?_
  split
  · next hkind =>
    exact .bindAdvance (by simp [hkind])
      ((reads_breakStatement t).mono fun w s hs => stmtRead_closed (hs hkind))
  · next hkind =>
    exact .bindAdvance (by simp [hkind]) ((reads_forStatement h).mono fun w s hs => hs t hkind)
  · next hkind =>
    exact .bindAdvance (by simp [hkind]) ((reads_ifStatement h).mono fun w s hs => hs t hkind)
  · next hkind =>
    exact .bindAdvance (by simp [hkind])
      ((reads_printStatement h).mono fun w s hs => stmtRead_closed (hs t hkind))
  · next hkind =>
    exact .bindAdvance (by simp [hkind])
      ((reads_returnStatement h t).mono fun w s hs => stmtRead_closed (hs hkind))
  · next hkind =>
    exact .bindAdvance (by simp [hkind]) ((reads_whileStatement h).mono fun w s hs => hs t hkind)
  · next hkind =>
    refine .bindAdvance (by simp [hkind]) ((reads_block h).bind fun body => .done _ ?_)
    rintro loops rest id read first ⟨ts, closing, hread, hclosing, hbody⟩
    dsimp only at hread hbody ⊢
    subst hread
    rw [List.append_nil]
    exact stmtRead_closed ⟨.block hkind hbody.derives hclosing, hbody.fits, hbody.breaks,
      hbody.fresh⟩
  · refine (reads_expressionStatement h).mono ?_
    rintro w s ⟨e, ts, semicolon, rfl, hread, hsemicolon, he⟩ _
    refine stmtRead_closed ⟨?_, he.fits, trivial, he.fresh⟩
    rw [hread]
    exact .expression he.derives hsemicolon

/-! ## Declarations and programs -/

theorem reads_declarationRule {inner : Inner} (h : InnerReads n inner) :
    Reads (n + 1) (declarationRule inner) fun w r =>
      ∃ s, r = some s ∧ PhraseRead w (.declaration s) := by
  unfold declarationRule
  refine reads_recovering (reads_peek.bindStill fun t => ?_)
  split
  · next hkind =>
    exact .bindAdvance (by simp [hkind])
      ((reads_classDeclaration h).mono fun w s hs => hs t hkind)
  · next hkind =>
    refine .bindAdvance (by simp [hkind]) ((reads_function h .function).bind fun decl => .done _ ?_)
    intro loops rest id read first hdecl
    dsimp only at hdecl ⊢
    rw [List.append_nil]
    exact ⟨.function hkind hdecl.derives, hdecl.fits, hdecl.breaks, hdecl.fresh⟩
  · next hkind =>
    refine .bindAdvance (by simp [hkind]) ((reads_varDeclaration h).mono fun w s hs => ?_)
    exact ⟨.var hkind hs.derives, hs.fits, hs.breaks _, hs.fresh⟩
  · refine (reads_statementRule h).mono ?_
    rintro w s ⟨open_, hs, _⟩ _
    exact ⟨.statement hs.derives, hs.fits, hs.breaks, hs.fresh⟩

theorem innerReads (n : Nat) :
    InnerReads n ⟨n + 1, expression n, statement n, declaration n⟩ := by
  induction n with
  | zero =>
    refine ⟨Nat.zero_le _, reads_expression 0, reads_fail _ _, ?_⟩
    exact reads_recovering (reads_fail _ _)
  | succ n ih =>
    exact ⟨Nat.le_succ _, reads_expression _, reads_statementRule ih, reads_declarationRule ih⟩

theorem reads_program (n : Nat) : Reads n (program n) fun w ss =>
    PhraseRead w (.declarations ss) ∧ w.rest = [] := by
  unfold program
  refine (reads_declarationsFrom false (innerReads n).declaration (Nat.le_succ n) #[]).bind
    fun all => .done _ ?_
  rintro loops rest id read first ⟨⟨ss, hall, hss⟩, hend⟩
  rw [List.nil_append] at hall
  subst hall
  dsimp only at hss hend ⊢
  rw [List.append_nil]
  exact ⟨hss, hend rfl⟩

end Parser

end Lox
