/-
  Lox.Proofs.Parsing.Ends

  The parser comes to an end, and not behind the end mark.

    * `beforeEnd`, `endMark`, `upToEnd` — the part of a token list that the parser sees;
    * `ParseState.Stands` — a position in a list, counted from its start;
    * `Parser.Forward` — a step that does not move back and does not pass the end mark;
    * `Parser.declaration_forward` — a declaration moves on, whether it is given up or not;
    * `Parser.runOn_unnumbered` — what a rule gives depends on the tokens up to the end mark
      alone, apart from numbers;
    * `parser_ends` — all of this for the rules of the parser, none of which uses up its
      bound.
-/
import Lox.Proofs.Parsing.Bounds
import Mathlib.Data.List.TakeWhile

namespace Lox

/-! ## Token lists -/

/-- The tokens before the first end mark. -/
def beforeEnd (tokens : List Token) : List Token := tokens.takeWhile (·.kind ≠ .eof)

/-- The first end mark; an empty list has one on line zero. -/
def endMark (tokens : List Token) : Token :=
  (tokens.dropWhile (·.kind ≠ .eof)).headD ⟨.eof, "", 0⟩

/-- The tokens up to the first end mark, and the end mark itself. -/
def upToEnd (tokens : List Token) : List Token :=
  beforeEnd tokens ++ (tokens.dropWhile (·.kind ≠ .eof)).take 1

theorem upToEnd_cons_of_eof {t : Token} (ht : t.kind = .eof) (ts : List Token) :
    upToEnd (t :: ts) = [t] := by
  simp [upToEnd, beforeEnd, ht]

theorem upToEnd_cons_of_ne {t : Token} (ht : t.kind ≠ .eof) (ts : List Token) :
    upToEnd (t :: ts) = t :: upToEnd ts := by
  simp [upToEnd, beforeEnd, ht]

theorem beforeEnd_upToEnd (tokens : List Token) :
    beforeEnd (upToEnd tokens) = beforeEnd tokens := by
  induction tokens with
  | nil => rfl
  | cons t ts ih =>
    by_cases ht : t.kind = .eof
    · rw [upToEnd_cons_of_eof ht]
      simp [beforeEnd, ht]
    · rw [upToEnd_cons_of_ne ht]
      unfold beforeEnd at ih ⊢
      rw [List.takeWhile_cons_of_pos (by simpa using ht), ih,
        List.takeWhile_cons_of_pos (by simpa using ht)]

theorem endMark_upToEnd (tokens : List Token) : endMark (upToEnd tokens) = endMark tokens := by
  induction tokens with
  | nil => rfl
  | cons t ts ih =>
    by_cases ht : t.kind = .eof
    · rw [upToEnd_cons_of_eof ht]
      simp [endMark, ht]
    · rw [upToEnd_cons_of_ne ht]
      unfold endMark at ih ⊢
      rw [List.dropWhile_cons_of_pos (by simpa using ht), ih,
        List.dropWhile_cons_of_pos (by simpa using ht)]

theorem upToEnd_eq_nil {tokens : List Token} : upToEnd tokens = [] ↔ tokens = [] := by
  cases tokens with
  | nil => exact Iff.rfl
  | cons t ts =>
    by_cases ht : t.kind = .eof
    · rw [upToEnd_cons_of_eof ht]
      simp
    · rw [upToEnd_cons_of_ne ht]
      simp

theorem exists_eof_upToEnd {tokens : List Token} :
    (∃ t ∈ upToEnd tokens, t.kind = .eof) ↔ ∃ t ∈ tokens, t.kind = .eof := by
  induction tokens with
  | nil => exact Iff.rfl
  | cons t ts ih =>
    by_cases ht : t.kind = .eof
    · rw [upToEnd_cons_of_eof ht]
      simp [ht]
    · rw [upToEnd_cons_of_ne ht, List.exists_mem_cons_iff, List.exists_mem_cons_iff, ih]

theorem dropWhile_ne_nil {tokens : List Token} (h : ∃ t ∈ tokens, t.kind = .eof) :
    tokens.dropWhile (·.kind ≠ .eof) ≠ [] := by
  obtain ⟨t, ht, heof⟩ := h
  intro hnil
  have hall := List.dropWhile_eq_nil_iff.mp hnil t ht
  simp [heof] at hall

section

variable {tokens : List Token} (h : tokens = [] ∨ ∃ t ∈ tokens, t.kind = .eof)
include h

theorem endMark_kind : (endMark tokens).kind = .eof := by
  obtain rfl | hmark := h
  · rfl
  · have hhead := List.head_dropWhile_not (fun t : Token => t.kind ≠ .eof)
      (dropWhile_ne_nil hmark)
    unfold endMark
    rw [← List.cons_head_tail (dropWhile_ne_nil hmark), List.headD_cons]
    simpa using hhead

/-- The parser starts before the first token and goes as far as the first end mark. -/
theorem ParseState.ofTokens_eq (nextId : Nat) :
    ParseState.ofTokens tokens nextId = ⟨beforeEnd tokens, endMark tokens, 0, #[], nextId⟩ := by
  obtain rfl | hmark := h
  · rfl
  · unfold ParseState.ofTokens beforeEnd endMark
    rw [← List.cons_head_tail (dropWhile_ne_nil hmark)]
    rfl

end

/-! ## Positions -/

/-- A position in a token list: `i` tokens were read, and none from the end mark on. -/
structure ParseState.Stands (tokens : List Token) (i : Nat) (s : ParseState) : Prop where
  within : i ≤ (beforeEnd tokens).length
  rest : s.rest = (beforeEnd tokens).drop i
  mark : s.ending = endMark tokens

namespace ParseState.Stands

variable {tokens : List Token} {i : Nat} {s t : ParseState}

theorem length (h : s.Stands tokens i) : i + s.rest.length = (beforeEnd tokens).length := by
  have hwithin := h.within
  rw [h.rest, List.length_drop]
  omega

/-- Reading leads to a position as many tokens further on as were read. -/
theorem advances (h : s.Stands tokens i) (hadv : s.Advances t) :
    t.Stands tokens (i + (s.rest.length - t.rest.length)) := by
  have hlength := h.length
  have hrest : t.rest = s.rest.drop (s.rest.length - t.rest.length) :=
    List.suffix_iff_eq_drop.mp hadv.rest
  refine ⟨by omega, ?_, hadv.ending.trans h.mark⟩
  rw [← List.drop_drop, ← h.rest]
  exact hrest

end ParseState.Stands

namespace Parser

variable {α β : Type} {tokens : List Token} {n : Nat}

/-! ## Moving forward -/

/-- Where a step ends, with an answer or without. -/
def after (p : Parser α) (s : ParseState) : ParseState :=
  match p s with
  | .ok _ t => t
  | .error _ t => t

/-- A step that does not move back and does not pass the end mark. -/
def Forward (tokens : List Token) (p : Parser α) : Prop :=
  ∀ i s, s.Stands tokens i → ∃ j, i ≤ j ∧ (after p s).Stands tokens j

theorem Reads.advances {p : Parser α} {P : Stretch → α → Prop} (h : Reads n p P)
    (s : ParseState) : s.Advances (after p s) := by
  have hs := h s
  unfold after
  cases hrun : p s with
  | ok a t =>
    rw [hrun] at hs
    exact hs.1
  | error e t =>
    rw [hrun] at hs
    exact hs

theorem Reads.forward {p : Parser α} {P : Stretch → α → Prop} (h : Reads n p P) :
    Forward tokens p :=
  fun _ s hs => ⟨_, Nat.le_add_right _ _, hs.advances (h.advances s)⟩

theorem advance_forward : Forward tokens advance :=
  fun _ _ hs => ⟨_, Nat.le_add_right _ _,
    hs.advances ⟨List.tail_suffix _, rfl, rfl, List.prefix_rfl, Nat.le_refl _⟩⟩

/-- Recovering skips forward too. -/
theorem Forward.recovering {p : Parser α} (hp : Forward tokens p) :
    Forward tokens (recovering p) := by
  intro i s hs
  obtain ⟨j, hij, hj⟩ := hp i s hs
  unfold after Parser.recovering at *
  cases hrun : p s with
  | ok a t =>
    rw [hrun] at hj
    exact ⟨j, hij, hj⟩
  | error e t =>
    rw [hrun] at hj
    have hskip : t.Advances { t with faults := t.faults.push e, rest := afterFault t.rest } :=
      ⟨afterFault_suffix t.rest, rfl, rfl, by simp, Nat.le_refl _⟩
    exact ⟨_, Nat.le_add_right_of_le hij, hj.advances hskip⟩

theorem recovering_answers (p : Parser α) (s : ParseState) :
    ∃ r t, recovering p s = .ok r t := by
  unfold recovering
  cases p s with
  | ok a t => exact ⟨_, _, rfl⟩
  | error e t => exact ⟨_, _, rfl⟩

theorem declaration_answers (n : Nat) (s : ParseState) : ∃ r t, declaration n s = .ok r t := by
  cases n <;> exact recovering_answers _ s

theorem declaration_advances {s t : ParseState} {r : Option Stmt}
    (hrun : declaration n s = .ok r t) : s.Advances t := by
  have hadv : s.Advances (after (declaration n) s) := (innerReads n).declaration.advances s
  rwa [after, hrun] at hadv

/-- A declaration before the end moves on by at least one token.  It always has an answer:
    where it is given up, the fault is noted and tokens are skipped. -/
theorem declaration_moves {s : ParseState} (hending : s.ending.kind = .eof) (hrest : s.rest ≠ [])
    (hn : s.rest.length < n) :
    ∃ r t, declaration n s = .ok r t ∧ t.rest.length < s.rest.length := by
  obtain ⟨r, t, hrun⟩ := declaration_answers n s
  -- The parser beside itself: the rules for two runs count the tokens of the first one.
  have hout := coupled_declarations (C := .same) (Nat.le_refl n) (Nat.le_refl n) s s
    ⟨⟨hending, rfl⟩, hrest⟩ hn
  rw [hrun] at hout
  cases hout with
  | ok _ _ hlength => exact ⟨r, t, hrun, hlength⟩

/-! ## Results -/

/-- An answer if there are no faults, or all of them. -/
def verdict (faults : Array Diagnostic) (a : α) : Except (List Diagnostic) α :=
  if faults.isEmpty then .ok a else .error faults.toList

@[simp] theorem verdict_empty (a : α) : verdict #[] a = .ok a := rfl

theorem verdict_of_ne {faults : Array Diagnostic} (h : faults ≠ #[]) (a : α) :
    verdict faults a = .error faults.toList :=
  if_neg fun hempty => h (Array.isEmpty_iff.mp hempty)

@[simp] theorem verdict_push (faults : Array Diagnostic) (d : Diagnostic) (a : α) :
    verdict (faults.push d) a = .error (faults.push d).toList :=
  verdict_of_ne (Array.push_ne_empty) a

theorem verdict_map (faults : Array Diagnostic) (a : α) (f : α → β) :
    (verdict faults a).map f = verdict faults (f a) := by
  unfold verdict
  split <;> rfl

/-- What becomes of a run: its answer, or all faults. -/
def outcome : EStateM.Result Diagnostic ParseState α → Except (List Diagnostic) α
  | .ok a s => verdict s.faults a
  | .error e s => .error (s.faults.push e).toList

theorem runOn_result (p : Nat → Parser α) (tokens : List Token) (nextId : Nat) :
    (runOn p tokens nextId).result =
      outcome (p ((ParseState.ofTokens tokens nextId).rest.length + 1)
        (ParseState.ofTokens tokens nextId)) := by
  unfold runOn outcome verdict
  dsimp only
  cases p _ (ParseState.ofTokens tokens nextId) <;> rfl

/-- Runs that end in the same way, the second one after nothing else, have the same
    result. -/
theorem outcome_map_eq {rel : α → α → Prop} {f : α → β} (hrel : ∀ a a', rel a a' → f a = f a')
    {k left : Nat} {r r' : EStateM.Result Diagnostic ParseState α}
    (h : Outcomes (Places.after #[]) (ParseState.After #[]) k left rel r r') :
    (outcome r').map f = (outcome r).map f := by
  cases h with
  | @ok a a' t t' ht ha _ =>
    rw [outcome, outcome, verdict_map, verdict_map, ht.faults, Array.empty_append, hrel _ _ ha]
  | @error e e' t t' ht he _ =>
    rw [outcome, outcome, ht.faults, Array.empty_append, show e = e' from he]

/-- The result of a rule depends on the tokens up to the end mark alone, apart from
    numbers. -/
theorem runOn_unnumbered {p : Nat → Parser α} {rel : α → α → Prop} {f : α → β}
    (hp : ∀ n, Coupled (.after #[]) (ParseState.After #[]) (ParseState.After #[]) 0 n rel
      (p n) (p n))
    (hrel : ∀ a a', rel a a' → f a = f a') {tokens tokens' : List Token}
    (h : tokens = [] ∨ ∃ t ∈ tokens, t.kind = .eof) (hsame : upToEnd tokens' = upToEnd tokens)
    (id id' : Nat) :
    (runOn p tokens' id').result.map f = (runOn p tokens id).result.map f := by
  have h' : tokens' = [] ∨ ∃ t ∈ tokens', t.kind = .eof := by
    rwa [← upToEnd_eq_nil, ← exists_eof_upToEnd, hsame, upToEnd_eq_nil, exists_eof_upToEnd]
  have hbefore : beforeEnd tokens' = beforeEnd tokens := by
    rw [← beforeEnd_upToEnd, hsame, beforeEnd_upToEnd]
  have hmark : endMark tokens' = endMark tokens := by
    rw [← endMark_upToEnd, hsame, endMark_upToEnd]
  -- Both runs start before the same tokens, and differ in the first number only.
  have hstart : ParseState.After #[] ⟨beforeEnd tokens, endMark tokens, 0, #[], id⟩
      ⟨beforeEnd tokens, endMark tokens, 0, #[], id'⟩ :=
    ⟨⟨endMark_kind h, endMark_kind h, rfl, (Array.empty_append ..).symm⟩, rfl, rfl⟩
  rw [runOn_result, runOn_result, ParseState.ofTokens_eq h, ParseState.ofTokens_eq h', hbefore,
    hmark]
  exact outcome_map_eq hrel (hp _ _ _ hstart (Nat.lt_succ_self _))

end Parser

/-! ## The rules -/

/-- Parsing ends, and never looks behind the end mark. -/
theorem parser_ends {tokens : List Token} (h : tokens = [] ∨ ∃ t ∈ tokens, t.kind = .eof) :
    -- Parsing begins before the first token.
    (∀ id, (ParseState.ofTokens tokens id).Stands tokens 0) ∧
    -- Nothing changes if the bounds are any greater and anything at all is done where they
    -- are used up: every rule comes to an end before them.
    (∀ (x : Parser.Beyond) more id,
      parseProgram tokens id = Parser.runOn (fun n => x.programWithin (n + 1 + more)) tokens id ∧
        parseExpression tokens id =
          Parser.runOn (fun n => x.expressionWithin (n + more)) tokens id) ∧
    -- So it is with each rule from each position.
    (∀ i s, s.Stands tokens i → ∀ (x : Parser.Beyond) n m, s.rest.length < n → n < m →
      x.expressionWithin m s = Parser.expression n s ∧
        x.statementWithin m s = Parser.statement n s ∧
        (s.rest ≠ [] → x.declarationWithin m s = Parser.declaration n s) ∧
        x.programWithin m s = Parser.program n s) ∧
    -- No step and no rule moves back or passes the end mark, whether it succeeds or not.
    (Parser.Forward tokens Parser.advance ∧
      (∀ kind, Parser.Forward tokens (Parser.accept kind)) ∧
      (∀ {α : Type} (select : TokenKind → Option α),
        Parser.Forward tokens (Parser.take? select)) ∧
      (∀ {α : Type} (p : Parser α), Parser.Forward tokens p →
        Parser.Forward tokens (Parser.recovering p)) ∧
      ∀ n, Parser.Forward tokens (Parser.expression n) ∧
        Parser.Forward tokens (Parser.statement n) ∧
        Parser.Forward tokens (Parser.declaration n) ∧
        Parser.Forward tokens (Parser.program n)) ∧
    -- A declaration before the end moves on by at least one token, given up or not.
    (∀ i s n, s.Stands tokens i → i < (beforeEnd tokens).length → s.rest.length < n →
      ∃ r t j, Parser.declaration n s = .ok r t ∧ i < j ∧ t.Stands tokens j) ∧
    -- What is behind the end mark makes no difference to the result, apart from numbers.
    (∀ tokens', upToEnd tokens' = upToEnd tokens → ∀ id id',
      (parseProgram tokens' id').result.map Stmt.listUnnumbered =
          (parseProgram tokens id).result.map Stmt.listUnnumbered ∧
        (parseExpression tokens' id').result.map Expr.unnumbered =
          (parseExpression tokens id).result.map Expr.unnumbered) := by
  have hkind := endMark_kind h
  have hending {i : Nat} {s : ParseState} (hs : s.Stands tokens i) : s.ending.kind = .eof := by
    rw [hs.mark, hkind]
  refine ⟨fun id => ?_, fun x more id => ?_, fun i s hs x n m hn hm => ?_, ?_,
    fun i s n hs hi hn => ?_, fun tokens' hsame id id' => ⟨?_, ?_⟩⟩
  · rw [ParseState.ofTokens_eq h]
    exact ⟨Nat.zero_le _, rfl, rfl⟩
  · unfold parseProgram parseExpression Parser.runOn
    rw [ParseState.ofTokens_eq h]
    dsimp only
    rw [Parser.programWithin_eq x hkind (by dsimp only; omega) (Nat.lt_succ_self _),
      Parser.expressionWithin_eq x hkind (by dsimp only; omega) (Nat.le_succ _)]
    exact ⟨rfl, rfl⟩
  · exact ⟨Parser.expressionWithin_eq x (hending hs) (by omega) (by omega),
      Parser.statementWithin_eq x (hending hs) (by omega) hn,
      fun hrest => Parser.declarationWithin_eq x (hending hs) hrest (by omega) hn,
      Parser.programWithin_eq x (hending hs) (by omega) hn⟩
  · exact ⟨Parser.advance_forward, fun kind => (Parser.reads_accept (n := 0) kind).forward,
      fun select => (Parser.reads_take? (n := 0) select).forward, fun _ => .recovering,
      fun n => ⟨(Parser.reads_expression n).forward, (Parser.innerReads n).statement.forward,
        (Parser.innerReads n).declaration.forward, (Parser.reads_program n).forward⟩⟩
  · have hrest : s.rest ≠ [] := by
      have hlength := hs.length
      exact List.ne_nil_of_length_pos (by omega)
    obtain ⟨r, t, hrun, hlength⟩ := Parser.declaration_moves (hending hs) hrest hn
    exact ⟨r, t, _, hrun, by omega, hs.advances (Parser.declaration_advances hrun)⟩
  · exact Parser.runOn_unnumbered
      (fun n => Parser.coupled_programs Places.after_closed (Nat.le_refl n) (Nat.le_refl n))
      (fun _ _ => Stmt.listUnnumbered_eq_of_forall₂) h hsame id id'
  · exact Parser.runOn_unnumbered
      (fun n => Parser.coupled_expressions (Nat.le_succ n) (Nat.le_succ n)) (fun _ _ he => he)
      h hsame id id'

/-- A parenthesis behind the end mark of `print true;` is not looked at, and the program is
    read as if it were not there. -/
theorem parser_ends_print :
    (parseProgram [⟨.keyword .printWord, "print", 1⟩, ⟨.keyword .trueWord, "true", 1⟩,
        ⟨.symbol .semicolon, ";", 1⟩, ⟨.eof, "", 1⟩, ⟨.symbol .rightParen, ")", 2⟩] 7).result.map
      Stmt.listUnnumbered = .ok [.print (.literal (.bool true))] := by
  let tokens : List Token := [⟨.keyword .printWord, "print", 1⟩, ⟨.keyword .trueWord, "true", 1⟩,
    ⟨.symbol .semicolon, ";", 1⟩, ⟨.eof, "", 1⟩]
  have hmark : ∃ t ∈ tokens, t.kind = .eof := ⟨⟨.eof, "", 1⟩, by simp [tokens], rfl⟩
  obtain ⟨-, -, -, -, -, hresult⟩ := @parser_ends tokens (.inr hmark)
  have halone : (parseProgram tokens 0).result.map Stmt.listUnnumbered =
      .ok [.print (.literal (.bool true))] := rfl
  rw [← halone]
  exact (hresult _ (by rfl) 0 7).1

end Lox
