/-
  Lox.Proofs.Grammar.ExprSound

  What the parser takes for an expression is one.

    * `Expr.Part` — the tokens are an expression with the given tree, calls have at
      most 255 arguments, and the occurrences are numbered as they should;
    * `ExprRead` — besides, the expression ends where it has to;
    * `reads_expression` — the parser reads such a part.
-/
import Lox.Proofs.Grammar.Reading
import Lox.Proofs.Grammar.Rules
import Lox.Proofs.Numbering

namespace Lox

/-! ## Tables of operators -/

/-- The operators of a rule are those that `select` knows, with the nodes that
    `node` makes. -/
def Rule.Selects {α : Type} (rule : Rule) (select : TokenKind → Option α)
    (node : α → Lexeme → Expr → Expr → Expr) : Prop :=
  ∀ kind n, Between rule kind n ↔ ∃ op, select kind = some op ∧ node op = n

namespace Parser

theorem selects_or : Rule.disjunction.Selects (logicalOp .or) .logical := by
  intro kind n
  constructor
  · intro hbetween
    cases hbetween with
    | or => exact ⟨.or, rfl, rfl⟩
    | values hop => cases hop
  · rintro ⟨op, hselect, rfl⟩
    unfold logicalOp at hselect
    split at hselect <;> simp at hselect
    subst hselect
    exact .or

theorem selects_and : Rule.conjunction.Selects (logicalOp .and) .logical := by
  intro kind n
  constructor
  · intro hbetween
    cases hbetween with
    | and => exact ⟨.and, rfl, rfl⟩
    | values hop => cases hop
  · rintro ⟨op, hselect, rfl⟩
    unfold logicalOp at hselect
    split at hselect <;> simp at hselect
    subst hselect
    exact .and

/-- A rule of which the operators are some symbols selects these. -/
theorem selects_oneOf {rule : Rule} {symbols : List Symbol}
    (hsymbols : ∀ kind, InBetween rule kind ↔ ∃ s ∈ symbols, kind = .symbol s)
    (hor : rule ≠ .disjunction) (hand : rule ≠ .conjunction) :
    rule.Selects (oneOf symbols) .binary := by
  intro kind n
  constructor
  · intro hbetween
    cases hbetween with
    | or => exact absurd rfl hor
    | and => exact absurd rfl hand
    | values hop =>
      obtain ⟨s, hs, hkind⟩ := (hsymbols kind).mp hop
      exact ⟨kind, oneOf_eq_some.mpr ⟨s, hs, hkind, hkind⟩, rfl⟩
  · rintro ⟨op, hselect, rfl⟩
    obtain ⟨s, hs, rfl, rfl⟩ := oneOf_eq_some.mp hselect
    exact .values ((hsymbols _).mpr ⟨s, hs, rfl⟩)

theorem selects_equality : Rule.equality.Selects equalityOp .binary := by
  refine selects_oneOf (fun kind => ⟨?_, ?_⟩) nofun nofun
  · rintro ⟨⟩ <;> simp
  · simp only [List.mem_cons, List.not_mem_nil, or_false]
    rintro ⟨s, rfl | rfl, rfl⟩ <;> constructor

theorem selects_comparison : Rule.comparison.Selects comparisonOp .binary := by
  refine selects_oneOf (fun kind => ⟨?_, ?_⟩) nofun nofun
  · rintro ⟨⟩ <;> simp
  · simp only [List.mem_cons, List.not_mem_nil, or_false]
    rintro ⟨s, rfl | rfl | rfl | rfl, rfl⟩ <;> constructor

theorem selects_term : Rule.term.Selects termOp .binary := by
  refine selects_oneOf (fun kind => ⟨?_, ?_⟩) nofun nofun
  · rintro ⟨⟩ <;> simp
  · simp only [List.mem_cons, List.not_mem_nil, or_false]
    rintro ⟨s, rfl | rfl, rfl⟩ <;> constructor

theorem selects_factor : Rule.factor.Selects factorOp .binary := by
  refine selects_oneOf (fun kind => ⟨?_, ?_⟩) nofun nofun
  · rintro ⟨⟩ <;> simp
  · simp only [List.mem_cons, List.not_mem_nil, or_false]
    rintro ⟨s, rfl | rfl, rfl⟩ <;> constructor

/-- In front of an operand exactly the operators are taken, each as its own kind. -/
theorem unaryOp_eq_some {kind op : TokenKind} :
    unaryOp kind = some op ↔ InFront kind ∧ op = kind := by
  constructor
  · intro hselect
    obtain ⟨s, hs, rfl, rfl⟩ := oneOf_eq_some.mp hselect
    simp only [List.mem_cons, List.not_mem_nil, or_false] at hs
    rcases hs with rfl | rfl
    · exact ⟨.not, rfl⟩
    · exact ⟨.negate, rfl⟩
  · rintro ⟨⟨⟩, rfl⟩ <;> rfl

end Parser

/-! ## Where expressions end -/

theorem Rule.Stops.inner {rule : Rule} {rest : List Token} (h : rule.Stops rest) :
    rule.tighter.Stops rest :=
  fun t ht hgoes => h t ht (.inside hgoes)

theorem Rule.Stops.outer {rule : Rule} {rest : List Token} (h : rule.tighter.Stops rest)
    (hhead : ∀ t, rest.head? = some t → ¬Extends rule t.kind) : rule.Stops rest := by
  rintro t ht (hhere | hinside)
  · exact hhead t ht hhere
  · exact h t ht hinside

/-! ## Trees of nodes -/

namespace Between

variable {rule : Rule} {kind : TokenKind} {node : Lexeme → Expr → Expr → Expr}

theorem uses (h : Between rule kind node) (sign : Lexeme) (left right : Expr) :
    (node sign left right).uses = left.uses ++ right.uses := by
  cases h <;> rfl

theorem arityFits (h : Between rule kind node) {sign : Lexeme} {left right : Expr} :
    (node sign left right).ArityFits ↔ left.ArityFits ∧ right.ArityFits := by
  cases h <;> exact Iff.rfl

/-- There are operators between the operands of six rules only. -/
theorem rule_ne (h : Between rule kind node) :
    rule ≠ .assignment ∧ rule ≠ .unary ∧ rule ≠ .call ∧ rule ≠ .primary := by
  cases h with
  | values hop => cases hop <;> exact ⟨nofun, nofun, nofun, nofun⟩
  | _ => exact ⟨nofun, nofun, nofun, nofun⟩

theorem node_eq (h : Between rule kind node) :
    (∃ op, node = .binary op) ∨ ∃ op, node = .logical op := by
  cases h <;> first | exact .inl ⟨_, rfl⟩ | exact .inr ⟨_, rfl⟩

end Between

theorem not_goesOn_primary {kind : TokenKind} : ¬GoesOn .primary kind := by
  intro hgoes
  generalize hrule : Rule.primary = rule at hgoes
  induction hgoes with
  | here hextends =>
    subst hrule
    cases hextends with
    | between hbetween => exact hbetween.rule_ne.2.2.2 rfl
  | inside _ ih =>
    subst hrule
    exact ih rfl

theorem Rule.stops_primary (rest : List Token) : Rule.primary.Stops rest :=
  fun _ _ => not_goesOn_primary

/-- An expression has at least one token. -/
theorem ExprPhrase.Derives.length_pos {phrase : ExprPhrase} {ts : List Token}
    (h : phrase.Derives ts) : 0 < ts.length := by
  induction h with
  | operand _ ih => exact ih
  | lastArgument _ ih => exact ih
  | _ =>
    simp only [List.length_append, List.length_cons, List.length_nil]
    omega

/-- What a name as an expression can be read from. -/
theorem ExprPhrase.Derives.of_name {rule : Rule} {use : Occurrence} {ts : List Token}
    (h : (ExprPhrase.expr rule (.name use)).Derives ts) :
    ∃ t : Token, ts = [t] ∧ t.kind = .identifier ∧ use.name = t.toLexeme := by
  generalize hphrase : ExprPhrase.expr rule (.name use) = phrase at h
  induction h generalizing rule with
  | operand _ ih =>
    cases hphrase
    exact ih rfl
  | between hbetween =>
    obtain ⟨op, rfl⟩ | ⟨op, rfl⟩ := hbetween.node_eq <;> cases hphrase
  | name hkind =>
    cases hphrase
    exact ⟨_, rfl, hkind, rfl⟩
  | _ => cases hphrase

/-- What a property as an expression can be read from. -/
theorem ExprPhrase.Derives.of_get {rule : Rule} {object : Expr} {property : Lexeme}
    {ts : List Token} (h : (ExprPhrase.expr rule (.get object property)).Derives ts) :
    ∃ (os : List Token) (dot name : Token), ts = os ++ [dot, name] ∧
      (ExprPhrase.expr .call object).Derives os ∧ dot.kind = .symbol .dot ∧
      name.kind = .identifier ∧ property = name.toLexeme := by
  generalize hphrase : ExprPhrase.expr rule (.get object property) = phrase at h
  induction h generalizing rule with
  | operand _ ih =>
    cases hphrase
    exact ih rfl
  | between hbetween =>
    obtain ⟨op, rfl⟩ | ⟨op, rfl⟩ := hbetween.node_eq <;> cases hphrase
  | property hobject hdot hname =>
    cases hphrase
    exact ⟨_, _, _, rfl, hobject, hdot, hname, rfl⟩
  | _ => cases hphrase

/-! ## Parts -/

/-- The tokens are an expression with the given tree, within bounds and with its
    occurrences numbered. -/
structure Expr.Part (rule : Rule) (e : Expr) (ts : List Token) (first next : Nat) : Prop where
  derives : (ExprPhrase.expr rule e).Derives ts
  fits : e.ArityFits
  fresh : Fresh e.uses first next

theorem Expr.Part.outer (rule : Rule) {e : Expr} {ts : List Token} {first next : Nat}
    (h : e.Part rule.tighter ts first next) : e.Part rule ts first next :=
  ⟨.operand h.derives, h.fits, h.fresh⟩

/-- A part that ends where it has to. -/
structure ExprRead (rule : Rule) (w : Stretch) (e : Expr) : Prop where
  part : e.Part rule w.read w.first w.next
  stops : rule.Stops w.rest

theorem ExprRead.length_pos {rule : Rule} {w : Stretch} {e : Expr} (h : ExprRead rule w e) :
    1 ≤ w.read.length :=
  h.part.derives.length_pos

namespace Parser

variable {n : Nat}

/-! ## Levels -/

/-- What is read behind `left` makes one expression of the rule with it. -/
def Completes (rule : Rule) (left : Expr) (w : Stretch) (e : Expr) : Prop :=
  ∀ read first, left.Part rule read first w.first → rule.tighter.Stops (w.read ++ w.rest) →
    ExprRead rule ⟨w.loops, read ++ w.read, w.rest, first, w.next⟩ e

/-- Nothing more is read. -/
theorem completes_still {rule : Rule} {left : Expr} {loops id : Nat} {rest : List Token}
    (hhead : ∀ t, rest.head? = some t → ¬Extends rule t.kind) :
    Completes rule left ⟨loops, [], rest, id, id⟩ left := by
  intro read first hleft hstops
  refine ⟨?_, hstops.outer hhead⟩
  rw [List.append_nil]
  exact hleft

theorem reads_chain {α : Type} {rule : Rule} {select : TokenKind → Option α}
    {node : α → Lexeme → Expr → Expr → Expr} {operand : Parser Expr}
    (hselects : rule.Selects select node)
    (hextends : ∀ kind, Extends rule kind → ∃ n, Between rule kind n)
    {bound : Nat} (hbound : bound ≤ n) (hoperand : Reads n operand (ExprRead rule.tighter))
    (left : Expr) :
    Reads (bound + 1) (chain select node operand bound left) (Completes rule left) := by
  induction bound generalizing left with
  | zero =>
    refine .still (fun _ => left) (fun _ => rfl) fun s _ hlt => completes_still fun t ht => ?_
    rw [List.eq_nil_of_length_eq_zero (Nat.lt_one_iff.mp hlt)] at ht
    cases ht
  | succ bound ih =>
    unfold chain
    refine (reads_take? select).bindOption ?_ fun ⟨op, sign⟩ => ?_
    · refine .done left fun loops rest id hhead => completes_still fun t ht hext => ?_
      obtain ⟨n, hbetween⟩ := hextends _ hext
      obtain ⟨op, hselect, _⟩ := (hselects _ _).mp hbetween
      rw [hhead t ht] at hselect
      cases hselect
    · refine (hoperand.shorter (by omega)).bindAfter (fun _ => 1) (fun w e h => h.length_pos)
        fun right => ?_
      refine ((ih (by omega) (node op sign.toLexeme left right)).shorter (by omega)).mono ?_
      intro w e h rightRead middle hright t ⟨hsign, hselect⟩ read first hleft _
      dsimp only at hsign hselect hright hleft ⊢
      subst hsign
      have hbetween := (hselects _ _).mpr ⟨op, hselect, rfl⟩
      have hnode : (node op sign.toLexeme left right).Part rule (read ++ sign :: rightRead) first
          w.first := by
        refine ⟨.between hbetween hleft.derives hright.part.derives,
          hbetween.arityFits.mpr ⟨hleft.fits, hright.part.fits⟩, ?_⟩
        rw [hbetween.uses]
        exact hleft.fresh.append hright.part.fresh
      have hall := h _ _ hnode hright.stops
      rw [List.append_assoc] at hall
      exact hall

theorem reads_level {α : Type} {rule : Rule} {select : TokenKind → Option α}
    {node : α → Lexeme → Expr → Expr → Expr} {operand : Parser Expr} {bound : Nat}
    (hselects : rule.Selects select node)
    (hextends : ∀ kind, Extends rule kind → ∃ n, Between rule kind n)
    (hoperand : Reads (bound + 1) operand (ExprRead rule.tighter)) :
    Reads (bound + 1) (level select node bound operand) (ExprRead rule) := by
  refine hoperand.bind fun left => ?_
  refine (reads_chain hselects hextends (Nat.le_succ bound) hoperand left).mono ?_
  intro w e h read first hleft
  exact h read first (hleft.part.outer rule) hleft.stops

/-! ## Operators in front -/

theorem applyUnary_append (later earlier : List (TokenKind × Lexeme)) (operand : Expr) :
    applyUnary (later ++ earlier) operand = applyUnary earlier (applyUnary later operand) :=
  List.foldl_append

/-- Operators in front of an operand that is yet to come. -/
structure InFrontOf (ops : List (TokenKind × Lexeme)) (read : List Token) : Prop where
  derives : ∀ operand ts, (ExprPhrase.expr .unary operand).Derives ts →
    (ExprPhrase.expr .unary (applyUnary ops operand)).Derives (read ++ ts)
  fits : ∀ operand : Expr, operand.ArityFits → (applyUnary ops operand).ArityFits
  uses : ∀ operand, (applyUnary ops operand).uses = operand.uses

theorem InFrontOf.none : InFrontOf [] [] :=
  ⟨fun _ _ h => h, fun _ h => h, fun _ => rfl⟩

/-- One more operator, farther out. -/
theorem InFrontOf.one {later : List (TokenKind × Lexeme)} {read : List Token} {sign : Token}
    (h : InFrontOf later read) (hop : InFront sign.kind) :
    InFrontOf (later ++ [(sign.kind, sign.toLexeme)]) (sign :: read) := by
  refine ⟨fun operand ts hts => ?_, fun operand hfits => ?_, fun operand => ?_⟩
  · rw [applyUnary_append]
    exact .inFront hop (h.derives operand ts hts)
  · rw [applyUnary_append]
    exact h.fits operand hfits
  · rw [applyUnary_append]
    exact h.uses operand

theorem reads_unaryOps (bound : Nat) (ops : List (TokenKind × Lexeme)) :
    Reads n (unaryOps bound ops) fun w all =>
      ∃ later, all = later ++ ops ∧ InFrontOf later w.read ∧ w.next = w.first := by
  induction bound generalizing n ops with
  | zero => exact .done ops fun _ _ _ => ⟨[], rfl, .none, rfl⟩
  | succ bound ih =>
    unfold unaryOps
    refine (reads_take? unaryOp).bindOption (.done ops fun _ _ _ _ => ⟨[], rfl, .none, rfl⟩)
      fun ⟨op, sign⟩ => ?_
    refine (ih ((op, sign.toLexeme) :: ops)).mono ?_
    rintro w all ⟨later, rfl, hlater, hnext⟩ t ⟨rfl, hselect⟩
    obtain ⟨hop, hkind⟩ := unaryOp_eq_some.mp hselect
    refine ⟨later ++ [(op, sign.toLexeme)], by simp, ?_, hnext⟩
    rw [show op = sign.kind from hkind]
    exact hlater.one hop

theorem reads_unary {bound : Nat} {call : Parser Expr} (hcall : Reads n call (ExprRead .call)) :
    Reads n (do
      let ops ← unaryOps bound []
      return applyUnary ops (← call)) (ExprRead .unary) := by
  refine (reads_unaryOps bound []).bind fun ops => hcall.bind fun operand => .done _ ?_
  intro loops rest id read first hoperand opsRead opsFirst hops
  obtain ⟨later, hlater, hfront, hnext⟩ := hops
  rw [List.append_nil] at hlater
  subst hlater
  dsimp only at hnext hfront hoperand ⊢
  refine ⟨⟨?_, hfront.fits _ hoperand.part.fits, ?_⟩, ?_⟩
  · rw [List.append_nil]
    exact hfront.derives _ _ (.operand hoperand.part.derives)
  · rw [hfront.uses, ← hnext]
    exact hoperand.part.fresh
  · refine Rule.Stops.outer hoperand.stops fun t _ hext => ?_
    cases hext with
    | between hbetween => exact hbetween.rule_ne.2.1 rfl

/-! ## Calls and properties -/

/-- Arguments with their commas. -/
structure ArgumentsRead (w : Stretch) (es : List Expr) : Prop where
  derives : (ExprPhrase.arguments es).Derives w.read
  fits : Expr.ListArityFits es
  fresh : Fresh (Expr.listUses es) w.first w.next

theorem reads_argumentsFrom {expression : Parser Expr}
    (hexpression : Reads n expression (ExprRead .assignment)) {bound : Nat} (hbound : bound ≤ n)
    (before : Array Expr) :
    Reads bound (argumentsFrom expression bound before) fun w all =>
      ∃ es, all.toList = before.toList ++ es ∧ ArgumentsRead w es ∧ all.size ≤ 255 := by
  induction bound generalizing before with
  | zero =>
    exact .still (fun _ => before) (fun _ => rfl) fun s _ hlt => absurd hlt (Nat.not_lt_zero _)
  | succ bound ih =>
    -- One argument and those behind it, provided there is room for it.
    have hargument : Reads (bound + 1) (do
        let argument ← expression
        if ← acceptSymbol .comma then argumentsFrom expression bound (before.push argument)
        else pure (before.push argument)) fun w all => before.size < 255 →
          ∃ es, all.toList = before.toList ++ es ∧ ArgumentsRead w es ∧ all.size ≤ 255 := by
      refine (hexpression.shorter hbound).bindAfter (fun _ => 1) (fun w e h => h.length_pos)
        fun e => .bindSymbol ?_ ?_
      · refine .done _ fun loops rest id _ read first he hsize => ⟨[e], by simp, ?_, ?_⟩
        · dsimp only at he ⊢
          rw [List.append_nil]
          exact ⟨.lastArgument he.part.derives, ⟨he.part.fits, trivial⟩, by
            simpa [Expr.listUses] using he.part.fresh⟩
        · rw [Array.size_push]
          omega
      · refine ((ih (by omega) (before.push e)).shorter (by omega)).mono ?_
        rintro w all ⟨es, hall, hes, hsize⟩ comma hcomma read first he _
        refine ⟨e :: es, by simp [hall], ⟨?_, ⟨he.part.fits, hes.fits⟩, ?_⟩, hsize⟩
        · exact .argument he.part.derives hcomma hes.derives
        · exact he.part.fresh.append hes.fresh
    unfold argumentsFrom
    split
    · refine reads_peek.bindStill fun t => (reads_report t _).bind fun _ => hargument.mono ?_
      intro w all _ read first hfalse
      exact hfalse.elim
    · next hsize => exact hargument.mono fun w all h => h (by unfold maxArity at hsize; omega)

/-- What `finishCall` reads behind a callee. -/
theorem reads_finishCall {expression : Parser Expr} {bound : Nat}
    (hexpression : Reads bound expression (ExprRead .assignment)) (callee : Expr) :
    Reads bound (finishCall bound expression callee) fun w e =>
      ∀ (opening : Token) (cs : List Token) (first : Nat), opening.kind = .symbol .leftParen →
        callee.Part .call cs first w.first →
        e.Part .call (cs ++ opening :: w.read) first w.next := by
  unfold finishCall
  refine (reads_check _).bindStill fun empty => ?_
  cases empty with
  | true =>
    refine (reads_expectSymbol _ _).bindToken fun paren => .done _ ?_
    intro loops rest id closing ⟨hparen, hclosing⟩ _ opening cs first hopening hcallee
    subst hparen
    refine ⟨.callEmpty hcallee.derives hopening hclosing, ⟨hcallee.fits, trivial, by decide⟩, ?_⟩
    simpa [Expr.uses, Expr.listUses] using hcallee.fresh
  | false =>
    refine (reads_argumentsFrom hexpression (Nat.le_refl bound) #[]).bind fun arguments => ?_
    refine (reads_expectSymbol _ _).bindToken fun paren => .done _ ?_
    intro loops rest id closing ⟨hparen, hclosing⟩ read middle hread _ opening cs first hopening
      hcallee
    obtain ⟨es, hes, harguments, hsize⟩ := hread
    rw [List.nil_append] at hes
    subst hparen hes
    refine ⟨.call hcallee.derives hopening harguments.derives hclosing,
      ⟨hcallee.fits, harguments.fits, hsize⟩, hcallee.fresh.append harguments.fresh⟩

/-- What `suffixes` reads behind `e` makes one expression with it. -/
theorem reads_suffixes {expression : Parser Expr} {bound : Nat}
    (hexpression : Reads bound expression (ExprRead .assignment)) {k : Nat} (hk : k ≤ bound)
    (e : Expr) :
    Reads (k + 1) (suffixes bound expression k e) (Completes .call e) := by
  induction k generalizing e with
  | zero =>
    refine .still (fun _ => e) (fun _ => rfl) fun s _ hlt => completes_still fun t ht => ?_
    rw [List.eq_nil_of_length_eq_zero (Nat.lt_one_iff.mp hlt)] at ht
    cases ht
  | succ k ih =>
    unfold suffixes
    refine (reads_take? suffixStart).bindOption ?_ fun ⟨suffix, sign⟩ => ?_
    · -- Nothing is read where neither a call nor a property follows.
      refine .done e fun loops rest id hhead => completes_still fun t ht hext => ?_
      have hnone := hhead t ht
      generalize t.kind = kind at hnone hext
      cases hext with
      | between hbetween => exact hbetween.rule_ne.2.2.1 rfl
      | call => cases hnone
      | property => cases hnone
    · have hstart : suffixStart sign.kind = some suffix → sign.kind = match suffix with
          | .call => .symbol .leftParen
          | .property => .symbol .dot := by
        intro h
        unfold suffixStart at h
        split at h <;> cases h <;> assumption
      cases suffix with
      | call =>
        refine ((reads_finishCall hexpression e).shorter hk).bind fun call => ?_
        refine (ih (by omega) call).mono ?_
        intro w all h callRead middle hcall t ⟨hsign, hselect⟩ read first hleft _
        dsimp only at hsign hselect hcall hleft ⊢
        subst hsign
        have hpart := hcall sign read first (hstart hselect) hleft
        have hread := h _ _ hpart (Rule.stops_primary _)
        rw [List.append_assoc] at hread
        exact hread
      | property =>
        refine (reads_expectName _).bindToken fun name => ?_
        refine ((ih (by omega) (.get e name)).shorter (by omega)).mono ?_
        intro w all h property ⟨hname, hidentifier⟩ t ⟨hsign, hselect⟩ read first hleft _
        dsimp only at hsign hselect hleft ⊢
        subst hsign hname
        have hpart : (Expr.get e property.toLexeme).Part .call (read ++ [sign, property]) first
            w.first :=
          ⟨.property hleft.derives (hstart hselect) hidentifier, hleft.fits, hleft.fresh⟩
        have hread := h _ _ hpart (Rule.stops_primary _)
        rw [List.append_assoc] at hread
        exact hread

/-! ## Primary expressions -/

theorem reads_primary {expression : Parser Expr}
    (hexpression : Reads (n - 1) expression (ExprRead .assignment)) :
    Reads n (primary expression) (ExprRead .primary) := by
  -- A token that is a constant, with its value.
  have hconstant : ∀ {t : Token} {value : Literal}, Constant t.kind value →
      Reads n (advance >>= fun _ => pure (.literal value)) fun w e =>
        ((w.read ++ w.rest).head? = some t ∨ w.read ++ w.rest = [] ∧ t.kind = .eof) →
          ExprRead .primary w e := by
    intro t value h
    refine .bindAdvance (fun heof => by rw [heof] at h; cases h) (.done _ fun loops rest id => ?_)
    exact ⟨⟨.constant h, trivial, .nil (Nat.le_refl id)⟩, Rule.stops_primary rest⟩
  unfold primary
  refine reads_peek.bindStill fun t => ?_
  split
  · next hkind => exact hconstant (hkind ▸ .false)
  · next hkind => exact hconstant (hkind ▸ .true)
  · next hkind => exact hconstant (hkind ▸ .nil)
  · next value hkind => exact hconstant (hkind ▸ .number value)
  · next content hkind => exact hconstant (hkind ▸ .string content)
  · next hkind =>
    refine .bindAdvance (by simp [hkind]) ?_
    refine (reads_expectSymbol _ _).bindToken fun _ =>
      (reads_expectName _).bindToken fun method => ?_
    refine (reads_occurrence _).bind fun use => .done _ ?_
    rintro loops rest id read first ⟨hread, huse, hnext⟩ name ⟨hmethod, hname⟩ dot ⟨_, hdot⟩
    dsimp only at hread huse hnext ⊢
    subst hread huse hmethod hnext
    exact ⟨⟨.super hkind hdot hname, trivial, .single _ _ _⟩, Rule.stops_primary rest⟩
  · next hkind =>
    refine .bindAdvance (by simp [hkind]) ?_
    refine (reads_occurrence _).bind fun use => .done _ ?_
    rintro loops rest id read first ⟨hread, huse, hnext⟩
    dsimp only at hread huse hnext ⊢
    subst hread huse hnext
    exact ⟨⟨.this hkind, trivial, .single _ _ _⟩, Rule.stops_primary rest⟩
  · next hkind =>
    refine .bindAdvance (by simp [hkind]) ?_
    refine (reads_occurrence _).bind fun use => .done _ ?_
    rintro loops rest id read first ⟨hread, huse, hnext⟩
    dsimp only at hread huse hnext ⊢
    subst hread huse hnext
    exact ⟨⟨.name hkind, trivial, .single _ _ _⟩, Rule.stops_primary rest⟩
  · next hkind =>
    refine .bindAdvance (by simp [hkind]) ?_
    refine hexpression.bind fun inner => (reads_expectSymbol _ _).bindToken fun _ => .done _ ?_
    rintro loops rest id closing ⟨_, hclosing⟩ read first hinner
    exact ⟨⟨.grouping hkind hinner.part.derives hclosing, hinner.part.fits, hinner.part.fresh⟩,
      Rule.stops_primary rest⟩
  · exact reads_fail _ _

/-! ## Expressions -/

theorem reads_operation {expression : Parser Expr} {bound : Nat}
    (hexpression : Reads bound expression (ExprRead .assignment)) :
    Reads (bound + 1) (operation bound expression) (ExprRead .disjunction) := by
  have hcall : Reads (bound + 1) (primary expression >>= suffixes bound expression bound)
      (ExprRead .call) := by
    refine (reads_primary (n := bound + 1) hexpression).bind fun e => ?_
    refine (reads_suffixes hexpression (Nat.le_refl bound) e).mono ?_
    intro w all h read first he
    exact h read first (.outer .call he.part) he.stops
  refine reads_level selects_or ?_ (reads_level selects_and ?_ (reads_level selects_equality ?_
    (reads_level selects_comparison ?_ (reads_level selects_term ?_ (reads_level selects_factor ?_
    (reads_unary hcall))))))
  all_goals
    rintro kind ⟨hbetween⟩
    exact ⟨_, hbetween⟩

theorem reads_assignment {expression : Parser Expr} {bound : Nat}
    (hexpression : Reads bound expression (ExprRead .assignment)) :
    Reads (bound + 1) (assignment bound expression) (ExprRead .assignment) := by
  unfold assignment
  refine (reads_operation hexpression).bind fun left => ?_
  refine (reads_accept _).bindOption ?_ fun equals => ?_
  · refine .done left fun loops rest id hhead read first hleft => ⟨?_, ?_⟩
    · dsimp only
      rw [List.append_nil]
      exact .outer .assignment hleft.part
    · refine Rule.Stops.outer hleft.stops fun t ht hext => ?_
      have hne := hhead t ht
      generalize t.kind = kind at hne hext
      cases hext with
      | between hbetween => exact hbetween.rule_ne.1 rfl
      | assign => cases hne
  · refine hexpression.bind fun value => ?_
    split
    · next use =>
      -- The target is numbered again, after the value.
      refine (reads_occurrence _).bind fun target => .done _ ?_
      intro loops rest id idRead middle huse valueRead valueFirst hvalue t ⟨hequals, hkind⟩ read
        first hleft
      obtain ⟨hread, htarget, hnext⟩ := huse
      obtain ⟨name, hone, hidentifier, hname⟩ := hleft.part.derives.of_name
      dsimp only at hread htarget hnext hvalue hleft hone ⊢
      subst hread htarget hnext hone
      simp only [List.append_nil, List.singleton_append]
      rw [hname]
      refine ⟨⟨?_, hvalue.part.fits, ?_⟩, hvalue.stops⟩
      · exact .assignName hidentifier (TokenKind.sameType_symbol.mp hkind) hvalue.part.derives
      · exact (hvalue.part.fresh.append_swap (.single .assign _ _)).widen hleft.part.fresh.le
          (Nat.le_refl _)
    · next object property =>
      refine .done _ fun loops rest id valueRead valueFirst hvalue t ⟨hequals, hkind⟩ read first
        hleft => ?_
      obtain ⟨os, dot, name, hread, hobject, hdot, hidentifier, hname⟩ := hleft.part.derives.of_get
      dsimp only at hvalue hleft hread ⊢
      subst hread hname
      simp only [List.append_nil, List.append_assoc, List.cons_append, List.nil_append]
      refine ⟨⟨?_, ⟨hleft.part.fits, hvalue.part.fits⟩, ?_⟩, hvalue.stops⟩
      · exact .assignProperty hobject hdot hidentifier (TokenKind.sameType_symbol.mp hkind)
          hvalue.part.derives
      · exact hleft.part.fresh.append hvalue.part.fresh
    · refine (reads_report _ _).bind fun _ => .done _ ?_
      intro loops rest id read first hfalse
      exact hfalse.elim

theorem reads_expression (n : Nat) : Reads (n + 1) (expression n) (ExprRead .assignment) := by
  induction n with
  | zero => exact reads_fail _ _
  | succ n ih => exact reads_assignment ih

end Parser

end Lox
