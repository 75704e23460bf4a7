/-
  Lox.Proofs.Grammar.ExprComplete

  Whatever is an expression, the parser takes for one, and its tree is the one of
  the rules.

    * `GoesOn.depth_le` — which tokens can carry on an expression of which rule;
    * `Complete rule n p` — from every expression of the rule with fewer than `n`
      tokens, followed by a token that does not carry it on, `p` makes its tree;
    * `complete_expression` — the parser for expressions is complete.
-/
import Lox.Proofs.Grammar.Accepting
import Lox.Proofs.Grammar.ExprSound

namespace Lox

/-! ## Tokens that carry on -/

/-- The place of a rule, from loose to tight. -/
def Rule.depth : Rule → Nat
  | assignment => 1
  | disjunction => 2
  | conjunction => 3
  | equality => 4
  | comparison => 5
  | term => 6
  | factor => 7
  | unary => 8
  | call => 9
  | primary => 10

/-- The place of the one rule that a token carries on, or zero. -/
def TokenKind.extendsAt : TokenKind → Nat
  | .symbol .equal => 1
  | .keyword .orWord => 2
  | .keyword .andWord => 3
  | .symbol .bangEqual | .symbol .equalEqual => 4
  | .symbol .greater | .symbol .greaterEqual | .symbol .less | .symbol .lessEqual => 5
  | .symbol .minus | .symbol .plus => 6
  | .symbol .slash | .symbol .star => 7
  | .symbol .leftParen | .symbol .dot => 9
  | _ => 0

theorem Rule.depth_tighter_le (rule : Rule) : rule.depth ≤ rule.tighter.depth := by
  cases rule <;> decide

theorem Between.depth {rule : Rule} {kind : TokenKind} {node : Lexeme → Expr → Expr → Expr}
    (h : Between rule kind node) :
    kind.extendsAt = rule.depth ∧ rule.depth < rule.tighter.depth := by
  cases h with
  | or => decide
  | and => decide
  | values hop => cases hop <;> decide

theorem GoesOn.depth_le {rule : Rule} {kind : TokenKind} (h : GoesOn rule kind) :
    rule.depth ≤ kind.extendsAt := by
  induction h with
  | here hextends =>
    cases hextends with
    | between hbetween => exact Nat.le_of_eq hbetween.depth.1.symm
    | _ => decide
  | inside _ ih => exact Nat.le_trans (Rule.depth_tighter_le _) ih

/-- An operand ends before an operator of its rule. -/
theorem Between.stops {rule : Rule} {sign : Token} {node : Lexeme → Expr → Expr → Expr}
    (h : Between rule sign.kind node) (rest : List Token) : rule.tighter.Stops (sign :: rest) := by
  rintro t ⟨⟩ hgoes
  have := hgoes.depth_le
  have := h.depth
  omega

/-- An expression ends before a token that carries none on. -/
theorem Rule.stops_cons (rule : Rule) {t : Token} {rest : List Token} (h : t.kind.extendsAt = 0) :
    rule.Stops (t :: rest) := by
  rintro u ⟨⟩ hgoes
  have hdepth := hgoes.depth_le
  rw [h] at hdepth
  cases rule <;> exact absurd hdepth (by decide)

/-- An operation ends before the sign of an assignment. -/
theorem Rule.stops_equal {equals : Token} (rest : List Token)
    (h : equals.kind = .symbol .equal) : Rule.disjunction.Stops (equals :: rest) := by
  rintro t ⟨⟩ hgoes
  have hdepth := hgoes.depth_le
  rw [h] at hdepth
  exact absurd hdepth (by decide)

/-! ## Tokens that begin -/

/-- The tokens that begin a primary expression. -/
inductive BeginsPrimary : TokenKind → Prop
  | constant {kind value} : Constant kind value → BeginsPrimary kind
  | name : BeginsPrimary .identifier
  | this : BeginsPrimary (.keyword .thisWord)
  | super : BeginsPrimary (.keyword .superWord)
  | grouping : BeginsPrimary (.symbol .leftParen)

/-- The tokens that begin an expression. -/
inductive BeginsExpr : TokenKind → Prop
  | primary {kind} : BeginsPrimary kind → BeginsExpr kind
  | inFront {kind} : InFront kind → BeginsExpr kind

/-- The tokens that begin an expression of a rule. -/
def Rule.Begins (kind : TokenKind) : Rule → Prop
  | call => BeginsPrimary kind
  | primary => BeginsPrimary kind
  | _ => BeginsExpr kind

theorem Rule.begins_of_tighter {rule : Rule} {kind : TokenKind} (h : rule.tighter.Begins kind) :
    rule.Begins kind := by
  cases rule with
  | unary => exact .primary h
  | _ => exact h

theorem Rule.Begins.expr {rule : Rule} {kind : TokenKind} (h : rule.Begins kind) :
    BeginsExpr kind := by
  cases rule with
  | call => exact .primary h
  | primary => exact .primary h
  | _ => exact h

/-- The rule that says how a phrase begins. -/
def ExprPhrase.rule : ExprPhrase → Rule
  | expr rule _ => rule
  | arguments _ => .assignment

theorem ExprPhrase.Derives.begins {phrase : ExprPhrase} {ts : List Token} (h : phrase.Derives ts) :
    ∃ t us, ts = t :: us ∧ phrase.rule.Begins t.kind := by
  -- What follows the first part does not change how the whole begins.
  have extend : ∀ {rule : Rule} {us : List Token} (vs : List Token),
      (∃ t ts, us = t :: ts ∧ rule.Begins t.kind) →
      ∃ t ts, us ++ vs = t :: ts ∧ rule.Begins t.kind := by
    rintro rule us vs ⟨t, ts, rfl, hbegins⟩
    exact ⟨t, ts ++ vs, rfl, hbegins⟩
  induction h with
  | operand _ ih =>
    obtain ⟨t, us, hts, hbegins⟩ := ih
    exact ⟨t, us, hts, Rule.begins_of_tighter hbegins⟩
  | assignName hname => exact ⟨_, _, rfl, hname ▸ .primary .name⟩
  | assignProperty _ _ _ _ _ ih =>
    obtain ⟨t, us, rfl, hbegins⟩ := ih
    exact ⟨t, _, rfl, Rule.Begins.expr hbegins⟩
  | between _ _ _ ih => exact extend _ ih
  | inFront hop => exact ⟨_, _, rfl, .inFront hop⟩
  | callEmpty _ _ _ ih => exact extend _ ih
  | call _ _ _ _ ih => exact extend _ ih
  | property _ _ _ ih => exact extend _ ih
  | constant hvalue => exact ⟨_, _, rfl, .constant hvalue⟩
  | name hkind => exact ⟨_, _, rfl, hkind ▸ .name⟩
  | this hkind => exact ⟨_, _, rfl, hkind ▸ .this⟩
  | super hkind => exact ⟨_, _, rfl, hkind ▸ .super⟩
  | grouping hkind => exact ⟨_, _, rfl, hkind ▸ .grouping⟩
  | lastArgument _ ih => exact ih
  | argument _ _ _ ih => exact extend _ ih

/-! ## Trees without numbers -/

theorem Between.unnumbered {rule : Rule} {kind : TokenKind} {node : Lexeme → Expr → Expr → Expr}
    (h : Between rule kind node) (sign : Lexeme) (left right : Expr) :
    (node sign left right).unnumbered = node sign left.unnumbered right.unnumbered := by
  cases h <;> rfl

/-- Only a name is a name without its number. -/
theorem Expr.eq_name_of_unnumbered {e : Expr} {use : Occurrence}
    (h : e.unnumbered = (Expr.name use).unnumbered) :
    ∃ use', e = .name use' ∧ use'.name = use.name := by
  cases e with
  | name use' =>
    simp only [Expr.unnumbered, Expr.name.injEq, Occurrence.unnumbered, Occurrence.mk.injEq,
      true_and] at h
    exact ⟨use', rfl, h⟩
  | _ => cases h

/-- Only a property is a property without its numbers. -/
theorem Expr.eq_get_of_unnumbered {e object : Expr} {property : Lexeme}
    (h : e.unnumbered = (Expr.get object property).unnumbered) :
    ∃ object', e = .get object' property ∧ object'.unnumbered = object.unnumbered := by
  cases e with
  | get object' property' =>
    simp only [Expr.unnumbered, Expr.get.injEq] at h
    exact ⟨object', by rw [h.2], h.1⟩
  | _ => cases h

namespace Parser

theorem applyUnary_unnumbered (ops : List (TokenKind × Lexeme)) (e : Expr) :
    (applyUnary ops e).unnumbered = applyUnary ops e.unnumbered := by
  induction ops generalizing e with
  | nil => rfl
  | cons op ops ih => exact ih (.unary op.1 op.2 e)

theorem unaryOp_eq_none {kind : TokenKind} (h : BeginsPrimary kind) : unaryOp kind = none := by
  cases h with
  | constant hvalue => cases hvalue <;> rfl
  | _ => rfl

/-! ## Levels -/

/-- From an expression of the rule with fewer than `n` tokens, `p` makes its tree. -/
def Complete (rule : Rule) (n : Nat) (p : Parser Expr) : Prop :=
  ∀ ⦃e ts rest s⦄, (ExprPhrase.expr rule e).Derives ts → ts.length < n → s.rest = ts ++ rest →
    rule.Stops rest →
    Yields (p s) s.loops s.faults rest e.ArityFits fun e' => e'.unnumbered = e.unnumbered

section Level

variable {α : Type} {rule : Rule} {select : TokenKind → Option α}
  {node : α → Lexeme → Expr → Expr → Expr} {operand : Parser Expr} {n : Nat}
  (hselects : rule.Selects select node) (hbinary : ∃ kind n, Between rule kind n)
  (hoperand : Complete rule.tighter n operand)
include hselects hbinary hoperand

/-- Reading a whole level goes the same way as going on behind its first part. -/
theorem level_eq_chain {e : Expr} {ts : List Token} (h : (ExprPhrase.expr rule e).Derives ts)
    {bound : Nat} (hn : ts.length < n) (hbound : ts.length ≤ bound) {s : ParseState}
    {rest : List Token} (hs : s.rest = ts ++ rest) (hstops : rule.tighter.Stops rest) :
    ∃ left t k, level select node bound operand s = chain select node operand (bound - k) left t ∧
      k < ts.length ∧ t.rest = rest ∧ t.loops = s.loops ∧ (e.ArityFits → t.faults = s.faults) ∧
      left.unnumbered = e.unnumbered := by
  generalize hphrase : ExprPhrase.expr rule e = phrase at h
  induction h generalizing e rest with
  | operand h =>
    cases hphrase
    obtain ⟨left, t, hrun, hrest, hloops, hfaults, hleft⟩ := hoperand h hn hs hstops
    exact ⟨left, t, 0, bind_of_ok hrun, h.length_pos, hrest, hloops, hfaults, hleft⟩
  | @between _ node' sign left ls right rs hbetween hl hr ihl ihr =>
    cases hphrase
    obtain ⟨op, hselect, rfl⟩ := (hselects _ _).mp hbetween
    simp only [List.length_append, List.length_cons] at hn hbound
    simp only [List.append_assoc, List.cons_append] at hs
    obtain ⟨left', t, k, hrun, hk, hrest, hloops, hfaults, hleft⟩ :=
      ihl (by omega) (by omega) hs (hbetween.stops _) rfl
    obtain ⟨right', u, hrun', hrest', hloops', hfaults', hright⟩ :=
      hoperand hr (s := { t with rest := rs ++ rest }) (by omega) rfl hstops
    refine ⟨node op sign.toLexeme left' right', u, k + 1, ?_, ?_, hrest', hloops'.trans hloops,
      ?_, ?_⟩
    · obtain ⟨m, hm⟩ : ∃ m, bound - k = m + 1 := ⟨bound - k - 1, by omega⟩
      rw [hrun, hm, chain, bind_take? hrest hselect, show bound - (k + 1) = m by omega]
      exact bind_of_ok hrun'
    · simp only [List.length_append, List.length_cons]
      omega
    · intro hfits
      have hfits := hbetween.arityFits.mp hfits
      exact (hfaults' hfits.2).trans (hfaults hfits.1)
    · rw [hbetween.unnumbered, hbetween.unnumbered, hleft, hright]
  | lastArgument => cases hphrase
  | argument => cases hphrase
  | _ =>
    cases hphrase
    obtain ⟨_, _, hbetween⟩ := hbinary
    simpa using hbetween.rule_ne

theorem complete_level {bound : Nat} (hbound : n ≤ bound + 1) :
    Complete rule n (level select node bound operand) := by
  intro e ts rest s h hn hs hstops
  have hlength : ts.length ≤ bound := by omega
  obtain ⟨left, t, k, hrun, hk, hrest, hloops, hfaults, hleft⟩ :=
    level_eq_chain hselects hbinary hoperand h hn hlength hs hstops.inner
  rw [hrun]
  refine ⟨left, t, ?_, hrest, hloops, hfaults, hleft⟩
  cases bound - k with
  | zero => rfl
  | succ m =>
    rw [chain, bind_take?_none]
    · rfl
    · intro u hu
      rw [hrest] at hu
      cases hselect : select u.kind with
      | none => rfl
      | some op =>
        have hbetween := (hselects _ _).mpr ⟨op, hselect, rfl⟩
        exact absurd (.here (.between hbetween)) (hstops u hu)

end Level

/-! ## Operators in front -/

theorem yields_unary {bound n : Nat} {call : Parser Expr} (hcall : Complete .call n call)
    {e : Expr} {ts : List Token} (h : (ExprPhrase.expr .unary e).Derives ts) (hn : ts.length < n)
    (hbound : ts.length ≤ bound) {s : ParseState} {rest : List Token} (hs : s.rest = ts ++ rest)
    (hstops : Rule.unary.Stops rest) (ops : List (TokenKind × Lexeme)) :
    Yields ((unaryOps bound ops >>= fun all => call >>= fun e => pure (applyUnary all e)) s) s.loops
      s.faults rest e.ArityFits fun e' => e'.unnumbered = applyUnary ops e.unnumbered := by
  generalize hphrase : ExprPhrase.expr .unary e = phrase at h
  induction h generalizing e s ops bound with
  | @operand rule _ _ h =>
    cases hphrase
    obtain ⟨first, us, rfl, hbegins⟩ := h.begins
    obtain ⟨m, rfl⟩ : ∃ m, bound = m + 1 := ⟨bound - 1, by simp at hbound; omega⟩
    rw [unaryOps, bind_assoc, bind_take?_none]
    · refine (hcall h hn hs hstops.inner).bind fun e' t ht _ he => ?_
      refine ht ▸ .done _ t ?_
      rw [applyUnary_unnumbered, he]
    · intro t ht
      rw [hs] at ht
      cases ht
      exact unaryOp_eq_none hbegins
  | inFront hop h ih =>
    cases hphrase
    obtain ⟨m, rfl⟩ : ∃ m, bound = m + 1 := ⟨bound - 1, by simp at hbound; omega⟩
    rw [unaryOps, bind_assoc, bind_take? hs (unaryOp_eq_some.mpr ⟨hop, rfl⟩)]
    simp only [List.length_cons] at hn hbound
    exact ih (by omega) (by omega) rfl _ rfl
  | between hbetween =>
    cases hphrase
    exact absurd rfl hbetween.rule_ne.2.1
  | _ => cases hphrase

theorem complete_unary {bound n : Nat} {call : Parser Expr} (hcall : Complete .call n call)
    (hbound : n ≤ bound + 1) :
    Complete .unary n
      (unaryOps bound [] >>= fun ops => call >>= fun e => pure (applyUnary ops e)) :=
  fun _ _ _ _ h hn hs hstops => yields_unary hcall h hn (by omega) hs hstops []

/-! ## Calls and properties -/

theorem yields_argumentsFrom {expression : Parser Expr} {n : Nat}
    (hexpression : Complete .assignment n expression) {es : List Expr} {us : List Token}
    (h : (ExprPhrase.arguments es).Derives us) {bound : Nat} (hn : us.length < n)
    (hbound : us.length ≤ bound) (before : Array Expr) {s : ParseState} {closing : Token}
    {rest : List Token} (hs : s.rest = us ++ closing :: rest)
    (hclosing : closing.kind = .symbol .rightParen) :
    Yields (argumentsFrom expression bound before s) s.loops s.faults (closing :: rest)
      (Expr.ListArityFits es ∧ before.size + es.length ≤ 255)
      fun all => ∃ es', all.toList = before.toList ++ es' ∧
        Expr.listUnnumbered es' = Expr.listUnnumbered es := by
  generalize hphrase : ExprPhrase.arguments es = phrase at h
  induction h generalizing es s bound before with
  | lastArgument he =>
    cases hphrase
    obtain ⟨m, rfl⟩ : ∃ m, bound = m + 1 := ⟨bound - 1, by have := he.length_pos; omega⟩
    rw [argumentsFrom]
    refine yields_reportIf ?_ fun faults => ?_
    · -- With as many arguments before it there would be too many.
      intro hfull ⟨_, hsize⟩
      unfold maxArity at hfull
      simp at hsize
      omega
    · refine ((hexpression he (s := { s with faults }) hn hs
        (Rule.stops_cons _ (by rw [hclosing]; rfl))).mono (fun hg => hg.1.1) fun _ he' => he').bind
        fun e' t ht _ he' => ?_
      rw [bind_acceptSymbol_none]
      · exact ht ▸ .done _ t ⟨[e'], by simp, by rw [Expr.listUnnumbered, he']; rfl⟩
      · intro u hu hkind
        rw [ht] at hu
        cases hu
        rw [hclosing] at hkind
        cases hkind
  | @argument comma e ts es us he hcomma hes ihe ihes =>
    cases hphrase
    simp only [List.length_append, List.length_cons] at hn hbound
    simp only [List.append_assoc, List.cons_append] at hs
    obtain ⟨m, rfl⟩ : ∃ m, bound = m + 1 := ⟨bound - 1, by omega⟩
    rw [argumentsFrom]
    refine yields_reportIf ?_ fun faults => ?_
    · intro hfull ⟨_, hsize⟩
      unfold maxArity at hfull
      simp at hsize
      omega
    · refine ((hexpression he (s := { s with faults }) (by omega) hs
        (Rule.stops_cons _ (by rw [hcomma]; rfl))).mono (fun hg => hg.1.1) fun _ he' => he').bind
        fun e' t ht _ he' => ?_
      rw [bind_acceptSymbol ht hcomma]
      refine (ihes (by omega) (by omega) (before.push e') rfl rfl).mono ?_ ?_
      · rintro ⟨hfits, hsize⟩
        refine ⟨hfits.2, ?_⟩
        simp only [Array.size_push, List.length_cons] at hsize ⊢
        omega
      · rintro all ⟨es', hall, hes'⟩
        exact ⟨e' :: es', by simp [hall], by rw [Expr.listUnnumbered, he', hes']; rfl⟩
  | _ => cases hphrase

theorem finishCall_empty {bound : Nat} {expression : Parser Expr} {callee : Expr}
    {s : ParseState} {closing : Token} {rest : List Token} (hs : s.rest = closing :: rest)
    (hclosing : closing.kind = .symbol .rightParen) :
    finishCall bound expression callee s =
      .ok (.call callee closing.toLexeme []) { s with rest } := by
  unfold finishCall
  rw [bind_check hs, TokenKind.sameType_symbol.mpr hclosing]
  exact bind_expectSymbol hs hclosing _

theorem yields_finishCall {expression : Parser Expr} {n : Nat}
    (hexpression : Complete .assignment n expression) {es : List Expr} {us : List Token}
    (h : (ExprPhrase.arguments es).Derives us) {bound : Nat} (hn : us.length < n)
    (hbound : us.length ≤ bound) (callee : Expr) {s : ParseState} {closing : Token}
    {rest : List Token} (hs : s.rest = us ++ closing :: rest)
    (hclosing : closing.kind = .symbol .rightParen) :
    Yields (finishCall bound expression callee s) s.loops s.faults rest
      (Expr.ListArityFits es ∧ es.length ≤ 255)
      fun e => ∃ es', e = .call callee closing.toLexeme es' ∧
        Expr.listUnnumbered es' = Expr.listUnnumbered es := by
  obtain ⟨first, vs, rfl, hbegins⟩ := h.begins
  -- Arguments begin like an expression, not with the closing parenthesis.
  have hne : first.kind.sameType (.symbol .rightParen) = false := by
    rw [Bool.eq_false_iff]
    intro hsame
    rw [TokenKind.sameType_symbol.mp hsame] at hbegins
    rcases hbegins with ⟨⟨⟨⟩⟩⟩ | ⟨⟨⟩⟩
  unfold finishCall
  rw [bind_check hs, hne]
  refine ((yields_argumentsFrom hexpression h hn hbound #[] hs hclosing).mono ?_ fun _ h => h).bind
    fun all t ht _ hall => ?_
  · intro ⟨hfits, hsize⟩
    exact ⟨hfits, by simpa using hsize⟩
  · obtain ⟨es', hes', hunnumbered⟩ := hall
    rw [List.nil_append] at hes'
    dsimp only
    rw [bind_expectSymbol ht hclosing]
    exact .done _ { t with rest } ⟨es', by rw [hes'], hunnumbered⟩

/-! ## Primary expressions -/

theorem complete_primary {expression : Parser Expr} {n : Nat}
    (hexpression : Complete .assignment n expression) :
    Complete .primary (n + 1) (primary expression) := by
  intro e ts rest s h hn hs _
  generalize hphrase : ExprPhrase.expr .primary e = phrase at h
  induction h generalizing e with
  | @operand rule _ _ h ih =>
    cases hphrase
    exact ih hn hs rfl
  | @constant t value hvalue =>
    cases hphrase
    rw [primary, bind_peek hs]
    have hone : Yields ((advance >>= fun _ => pure (.literal value) : Parser Expr) s) s.loops
        s.faults rest True fun e' => e'.unnumbered = (Expr.literal value).unnumbered := by
      rw [bind_advance hs]
      exact .done _ { s with rest } rfl
    generalize t.kind = kind at hvalue
    cases hvalue <;> exact hone.mono (fun _ => trivial) fun _ h => h
  | name hkind =>
    cases hphrase
    rw [primary, bind_peek hs]
    simp only [hkind]
    rw [bind_advance hs]
    exact ⟨_, _, rfl, rfl, rfl, fun _ => rfl, rfl⟩
  | this hkind =>
    cases hphrase
    rw [primary, bind_peek hs]
    simp only [hkind]
    rw [bind_advance hs]
    exact ⟨_, _, rfl, rfl, rfl, fun _ => rfl, rfl⟩
  | super hkind hdot hmethod =>
    cases hphrase
    rw [primary, bind_peek hs]
    simp only [hkind]
    rw [bind_advance hs, bind_expectSymbol rfl hdot, bind_expectName rfl hmethod]
    exact ⟨_, _, rfl, rfl, rfl, fun _ => rfl, rfl⟩
  | @grouping opening closing inner us hopening hinner hclosing =>
    cases hphrase
    simp only [List.length_cons, List.length_append] at hn
    simp only [List.cons_append, List.append_assoc] at hs
    rw [primary, bind_peek hs]
    simp only [hopening]
    rw [bind_advance hs]
    refine (hexpression hinner (s := { s with rest := us ++ ([closing] ++ rest) }) (by omega) rfl
      (Rule.stops_cons _ (by rw [hclosing]; rfl))).bind fun e' t ht _ he => ?_
    rw [bind_expectSymbol ht hclosing]
    exact .done _ { t with rest } (congrArg Expr.grouping he)
  | between hbetween =>
    cases hphrase
    exact absurd rfl hbetween.rule_ne.2.2.2
  | _ => cases hphrase

/-! ## Calls -/

theorem suffixes_call {bound m : Nat} {expression : Parser Expr} {left : Expr} {t : ParseState}
    {opening : Token} {rest : List Token} (ht : t.rest = opening :: rest)
    (hopening : opening.kind = .symbol .leftParen) :
    suffixes bound expression (m + 1) left t =
      (finishCall bound expression left >>= suffixes bound expression m) { t with rest } := by
  have hstart : suffixStart opening.kind = some .call := by rw [hopening]; rfl
  rw [suffixes, bind_take? ht hstart]

theorem suffixes_property {bound m : Nat} {expression : Parser Expr} {left : Expr} {t : ParseState}
    {dot name : Token} {rest : List Token} (ht : t.rest = dot :: name :: rest)
    (hdot : dot.kind = .symbol .dot) (hname : name.kind = .identifier) :
    suffixes bound expression (m + 1) left t =
      suffixes bound expression m (.get left name.toLexeme) { t with rest } := by
  have hstart : suffixStart dot.kind = some .property := by rw [hdot]; rfl
  rw [suffixes, bind_take? ht hstart]
  exact bind_expectName rfl hname _

/-- Reading a call goes the same way as going on behind its first part. -/
theorem call_eq_suffixes {expression : Parser Expr} {n : Nat}
    (hexpression : Complete .assignment n expression) {e : Expr} {ts : List Token}
    (h : (ExprPhrase.expr .call e).Derives ts) {bound : Nat} (hn : ts.length < n + 1)
    (hbound : ts.length ≤ bound) {s : ParseState} {rest : List Token} (hs : s.rest = ts ++ rest) :
    ∃ left t k, (primary expression >>= suffixes bound expression bound) s =
        suffixes bound expression (bound - k) left t ∧
      k < ts.length ∧ t.rest = rest ∧ t.loops = s.loops ∧ (e.ArityFits → t.faults = s.faults) ∧
      left.unnumbered = e.unnumbered := by
  generalize hphrase : ExprPhrase.expr .call e = phrase at h
  induction h generalizing e rest with
  | @operand rule _ _ h =>
    cases hphrase
    obtain ⟨left, t, hrun, hrest, hloops, hfaults, hleft⟩ :=
      complete_primary hexpression h hn hs (Rule.stops_primary rest)
    exact ⟨left, t, 0, bind_of_ok hrun, h.length_pos, hrest, hloops, hfaults, hleft⟩
  | @callEmpty opening closing callee cs hcallee hopening hclosing ih =>
    cases hphrase
    simp only [List.length_append, List.length_cons, List.length_nil] at hn hbound
    simp only [List.append_assoc] at hs
    obtain ⟨left, t, k, hrun, hk, hrest, hloops, hfaults, hleft⟩ := ih (by omega) (by omega) hs rfl
    obtain ⟨m, hm⟩ : ∃ m, bound - k = m + 1 := ⟨bound - k - 1, by omega⟩
    refine ⟨.call left closing.toLexeme [], { t with rest }, k + 1, ?_, ?_, rfl, hloops,
      fun hfits => hfaults hfits.1, ?_⟩
    · rw [hrun, hm, suffixes_call hrest hopening, show bound - (k + 1) = m by omega]
      exact bind_of_ok (finishCall_empty rfl hclosing)
    · simp only [List.length_append, List.length_cons]
      omega
    · rw [Expr.unnumbered, hleft]
      rfl
  | @call opening closing callee cs arguments us hcallee hopening harguments hclosing ih =>
    cases hphrase
    simp only [List.length_append, List.length_cons] at hn hbound
    simp only [List.append_assoc, List.cons_append] at hs
    obtain ⟨left, t, k, hrun, hk, hrest, hloops, hfaults, hleft⟩ := ih (by omega) (by omega) hs rfl
    obtain ⟨m, hm⟩ : ∃ m, bound - k = m + 1 := ⟨bound - k - 1, by omega⟩
    have hlength : us.length ≤ bound := by omega
    obtain ⟨all, u, hrun', hrest', hloops', hfaults', es', rfl, hes'⟩ :=
      yields_finishCall hexpression harguments (by omega) hlength left
        (s := { t with rest := us ++ closing :: rest }) rfl hclosing
    refine ⟨.call left closing.toLexeme es', u, k + 1, ?_, ?_, hrest', hloops'.trans hloops,
      fun hfits => (hfaults' ⟨hfits.2.1, hfits.2.2⟩).trans (hfaults hfits.1), ?_⟩
    · rw [hrun, hm, suffixes_call hrest hopening, show bound - (k + 1) = m by omega]
      exact bind_of_ok hrun'
    · simp only [List.length_append, List.length_cons]
      omega
    · rw [Expr.unnumbered, hleft, hes']
      rfl
  | @property dot name object os hobject hdot hname ih =>
    cases hphrase
    simp only [List.length_append, List.length_cons, List.length_nil] at hn hbound
    simp only [List.append_assoc] at hs
    obtain ⟨left, t, k, hrun, hk, hrest, hloops, hfaults, hleft⟩ := ih (by omega) (by omega) hs rfl
    obtain ⟨m, hm⟩ : ∃ m, bound - k = m + 1 := ⟨bound - k - 1, by omega⟩
    refine ⟨.get left name.toLexeme, { t with rest }, k + 1, ?_, ?_, rfl, hloops, hfaults, ?_⟩
    · rw [hrun, hm, suffixes_property hrest hdot hname, show bound - (k + 1) = m by omega]
      rfl
    · simp only [List.length_append, List.length_cons]
      omega
    · rw [Expr.unnumbered, hleft]
      rfl
  | between hbetween =>
    cases hphrase
    exact absurd rfl hbetween.rule_ne.2.2.1
  | _ => cases hphrase

theorem complete_call {expression : Parser Expr} {n bound : Nat}
    (hexpression : Complete .assignment n expression) (hbound : n ≤ bound) :
    Complete .call (n + 1) (primary expression >>= suffixes bound expression bound) := by
  intro e ts rest s h hn hs hstops
  have hlength : ts.length ≤ bound := by omega
  obtain ⟨left, t, k, hrun, hk, hrest, hloops, hfaults, hleft⟩ :=
    call_eq_suffixes hexpression h hn hlength hs
  rw [hrun]
  refine ⟨left, t, ?_, hrest, hloops, hfaults, hleft⟩
  cases bound - k with
  | zero => rfl
  | succ m =>
    rw [suffixes, bind_take?_none]
    · rfl
    · intro u hu
      rw [hrest] at hu
      have hgoes := hstops u hu
      cases hstart : suffixStart u.kind with
      | none => rfl
      | some suffix =>
        generalize u.kind = kind at hgoes hstart
        unfold suffixStart at hstart
        split at hstart
        · exact absurd (.here .call) hgoes
        · exact absurd (.here .property) hgoes
        · cases hstart

/-! ## Expressions -/

theorem complete_operation {expression : Parser Expr} {n : Nat}
    (hexpression : Complete .assignment n expression) :
    Complete .disjunction (n + 1) (operation (n + 1) expression) := by
  have hbound : n + 1 ≤ n + 1 + 1 := Nat.le_succ _
  have hcall := complete_call hexpression (Nat.le_succ n)
  have hunary := complete_unary hcall hbound
  have hfactor := complete_level selects_factor ⟨_, _, .values .divide⟩ hunary hbound
  have hterm := complete_level selects_term ⟨_, _, .values .add⟩ hfactor hbound
  have hcomparison := complete_level selects_comparison ⟨_, _, .values .less⟩ hterm hbound
  have hequality := complete_level selects_equality ⟨_, _, .values .equal⟩ hcomparison hbound
  have hconjunction := complete_level selects_and ⟨_, _, .and⟩ hequality hbound
  exact complete_level selects_or ⟨_, _, .or⟩ hconjunction hbound

theorem complete_assignment {expression : Parser Expr} {n : Nat}
    (hexpression : Complete .assignment n expression) :
    Complete .assignment (n + 1) (assignment (n + 1) expression) := by
  intro e ts rest s h hn hs hstops
  unfold assignment
  have hoperation := complete_operation hexpression
  cases h with
  | @operand rule _ _ h =>
    refine (hoperation h hn hs hstops.inner).bind fun e' t ht _ he => ?_
    rw [bind_accept_none]
    · exact ht ▸ .done _ t he
    · intro u hu
      rw [ht] at hu
      rw [Bool.eq_false_iff]
      intro hsame
      refine hstops u hu (.here ?_)
      rw [TokenKind.sameType_symbol.mp hsame]
      exact .assign
  | @assignName name equals id value vs hname hequals hvalue =>
    simp only [List.length_cons] at hn
    -- The name is read as an operation of its own first.
    have htarget : (ExprPhrase.expr .disjunction (.name ⟨0, name.toLexeme⟩)).Derives [name] :=
      .operand (.operand (.operand (.operand (.operand
        (.operand (.operand (.operand (.name hname))))))))
    refine ((hoperation htarget (by simp; omega) hs (Rule.stops_equal _ hequals)).mono
      (fun _ => trivial) fun _ h => h).bind fun left t ht _ hleft => ?_
    rw [bind_accept ht (TokenKind.sameType_symbol.mpr hequals)]
    refine (hexpression hvalue (s := { t with rest := vs ++ rest }) (by omega) rfl hstops).bind
      fun value' u hu _ hvalue' => ?_
    obtain ⟨use, rfl, huse⟩ := Expr.eq_name_of_unnumbered hleft
    refine ⟨_, _, rfl, hu, rfl, fun _ => rfl, ?_⟩
    simp only [Expr.unnumbered, Occurrence.unnumbered, huse, hvalue']
  | @assignProperty dot name equals object os value vs hobject hdot hname hequals hvalue =>
    simp only [List.length_cons, List.length_append] at hn
    simp only [List.append_assoc, List.cons_append] at hs
    have htarget : (ExprPhrase.expr .disjunction (.get object name.toLexeme)).Derives
        (os ++ [dot, name]) :=
      .operand (.operand (.operand (.operand (.operand (.operand (.operand
        (.property hobject hdot hname)))))))
    have hsplit : s.rest = (os ++ [dot, name]) ++ equals :: (vs ++ rest) := by
      rw [hs]
      simp
    refine ((hoperation htarget (by simp; omega) hsplit (Rule.stops_equal _ hequals)).mono
      And.left fun _ h => h).bind fun left t ht _ hleft => ?_
    rw [bind_accept ht (TokenKind.sameType_symbol.mpr hequals)]
    refine ((hexpression hvalue (s := { t with rest := vs ++ rest }) (by omega) rfl hstops).mono
      And.right fun _ h => h).bind fun value' u hu _ hvalue' => ?_
    obtain ⟨object', rfl, hobject'⟩ := Expr.eq_get_of_unnumbered hleft
    refine ⟨_, _, rfl, hu, rfl, fun _ => rfl, ?_⟩
    simp only [Expr.unnumbered, hobject', hvalue']
  | between hbetween => exact absurd rfl hbetween.rule_ne.1

theorem complete_expression (n : Nat) : Complete .assignment n (expression n) := by
  induction n with
  | zero => exact fun _ _ _ _ _ hn => absurd hn (Nat.not_lt_zero _)
  | succ n ih => exact complete_assignment ih

end Parser

end Lox
