/-
  Lox.Proofs.Grammar.Exact

  The parser accepts exactly what the rules of the grammar derive, within the
  bounds on arguments, parameters and `break`, and makes the tree of the
  derivation.  Programs are read up to the end mark, expressions up to the first
  token that does not carry them on.
-/
import Lox.Proofs.Grammar.StmtComplete

namespace Lox

/-! ## Token lists with their end mark -/

/-- The start of a list that ends with its first end mark. -/
theorem ParseState.ofTokens_append {before : List Token} {ending : Token}
    (hbefore : ∀ t ∈ before, t.kind ≠ .eof) (hending : ending.kind = .eof) (nextId : Nat) :
    ParseState.ofTokens (before ++ [ending]) nextId = ⟨before, ending, 0, #[], nextId⟩ := by
  have htake : (before ++ [ending]).takeWhile (·.kind ≠ .eof) = before := by
    rw [List.takeWhile_append_of_pos fun t ht => by simpa using hbefore t ht]
    simp [hending]
  have hdrop : (before ++ [ending]).dropWhile (·.kind ≠ .eof) = [ending] := by
    rw [List.dropWhile_append_of_pos fun t ht => by simpa using hbefore t ht]
    simp [hending]
  unfold ParseState.ofTokens
  rw [htake, hdrop]
  rfl

namespace Parser

variable {α : Type} {p : Nat → Parser α} {before : List Token} {ending : Token}
  (hbefore : ∀ t ∈ before, t.kind ≠ .eof) (hending : ending.kind = .eof) {nextId : Nat}
include hbefore hending

/-- A rule succeeds on a token list if it does not give up and reports nothing. -/
theorem runOn_eq_ok {a : α} : (runOn p (before ++ [ending]) nextId).result = .ok a ↔
    ∃ s, p (before.length + 1) ⟨before, ending, 0, #[], nextId⟩ = .ok a s ∧ s.faults = #[] := by
  unfold runOn
  rw [ParseState.ofTokens_append hbefore hending]
  dsimp only
  cases hrun : p (before.length + 1) ⟨before, ending, 0, #[], nextId⟩ with
  | error e s => simp
  | ok b s =>
    by_cases hfaults : s.faults.isEmpty = true
    · have hempty : s.faults = #[] := Array.isEmpty_iff.mp hfaults
      constructor
      · intro h
        simp only [hfaults, if_true, Except.ok.injEq] at h
        exact ⟨s, by rw [h], hempty⟩
      · rintro ⟨t, ⟨⟩, _⟩
        simp [hfaults]
    · have hne : s.faults ≠ #[] := fun h => hfaults (Array.isEmpty_iff.mpr h)
      simp [hfaults, hne]

/-- What a rule that reads parts has read when it succeeds. -/
theorem read_of_runOn {P : Stretch → α → Prop} (hp : ∀ n, Reads n (p n) P) {a : α}
    (h : (runOn p (before ++ [ending]) nextId).result = .ok a) :
    ∃ read s, p (before.length + 1) ⟨before, ending, 0, #[], nextId⟩ = .ok a s ∧
      before = read ++ s.rest ∧ P ⟨0, read, s.rest, nextId, s.nextId⟩ a := by
  obtain ⟨s, hrun, hfaults⟩ := (runOn_eq_ok hbefore hending).mp h
  have hreads := hp (before.length + 1) ⟨before, ending, 0, #[], nextId⟩
  rw [hrun] at hreads
  obtain ⟨read, hrest, ha⟩ := hreads.2 hending (Nat.lt_succ_self _) hfaults
  exact ⟨read, s, hrun, hrest, ha⟩

end Parser

/-! ## Exactness -/

/-- No two derivations of a program differ in more than numbers. -/
theorem StmtPhrase.Derives.unambiguous {p q : List Stmt} {ts : List Token}
    (hp : (StmtPhrase.declarations p).Derives ts) (hq : (StmtPhrase.declarations q).Derives ts) :
    Stmt.listUnnumbered p = Stmt.listUnnumbered q := by
  let start : ParseState := ⟨ts, ⟨.eof, "", 0⟩, 0, #[], 0⟩
  obtain ⟨a, s, ha, _, _, _, hpa⟩ :=
    Parser.complete_program hp (Nat.lt_succ_self _) (s := start) rfl
  obtain ⟨b, t, hb, _, _, _, hqb⟩ :=
    Parser.complete_program hq (Nat.lt_succ_self _) (s := start) rfl
  rw [ha] at hb
  cases hb
  rw [← hpa, hqb]

/-- The parser accepts exactly its grammar and makes the right trees. -/
theorem parser_exact {before : List Token} {ending : Token}
    (hbefore : ∀ t ∈ before, t.kind ≠ .eof) (hending : ending.kind = .eof) (nextId : Nat) :
    -- A program is accepted if and only if it has a derivation within bounds.
    ((∃ p, (parseProgram (before ++ [ending]) nextId).result = .ok p) ↔
      ∃ q, (StmtPhrase.declarations q).Derives before ∧ Stmt.ListArityFits q ∧
        Stmt.ListBreaksInside false q) ∧
    -- Its tree is then that of every derivation, apart from the numbers.
    (∀ p q, (parseProgram (before ++ [ending]) nextId).result = .ok p →
      (StmtPhrase.declarations q).Derives before →
      Stmt.listUnnumbered p = Stmt.listUnnumbered q) ∧
    -- An expression that is accepted is derived from the tokens that were read.
    (∀ e, (parseExpression (before ++ [ending]) nextId).result = .ok e → ∃ read s,
      Parser.expression (before.length + 1) (.ofTokens (before ++ [ending]) nextId) = .ok e s ∧
        before = read ++ s.rest ∧ e.Derives read ∧ e.ArityFits ∧ Rule.assignment.Stops s.rest) ∧
    -- An expression within bounds is accepted before a token that does not carry it on.
    (∀ q read rest, before = read ++ rest → Expr.Derives q read → q.ArityFits →
      Rule.assignment.Stops rest → ∃ e s,
      (parseExpression (before ++ [ending]) nextId).result = .ok e ∧
        Parser.expression (before.length + 1) (.ofTokens (before ++ [ending]) nextId) = .ok e s ∧
        s.rest = rest ∧ e.unnumbered = q.unnumbered) := by
  have hsound : ∀ p, (parseProgram (before ++ [ending]) nextId).result = .ok p →
      (StmtPhrase.declarations p).Derives before ∧ Stmt.ListArityFits p ∧
        Stmt.ListBreaksInside false p := by
    intro p hp
    obtain ⟨read, s, _, hbefore', hread, hrest⟩ :=
      Parser.read_of_runOn hbefore hending Parser.reads_program hp
    dsimp only at hrest hread
    rw [hrest, List.append_nil] at hbefore'
    subst hbefore'
    exact ⟨hread.derives, hread.fits, hread.breaks⟩
  refine ⟨⟨fun ⟨p, hp⟩ => ⟨p, hsound p hp⟩, ?_⟩, ?_, ?_, ?_⟩
  · rintro ⟨q, hderives, hfits, hbreaks⟩
    obtain ⟨p, s, hrun, _, _, hfaults, _⟩ := Parser.complete_program hderives
      (Nat.lt_succ_self _) (s := ⟨before, ending, 0, #[], nextId⟩) rfl
    exact ⟨p, (Parser.runOn_eq_ok hbefore hending).mpr ⟨s, hrun, hfaults ⟨hfits, hbreaks⟩⟩⟩
  · intro p q hp hq
    exact (hsound p hp).1.unambiguous hq
  · intro e he
    obtain ⟨read, s, hrun, hbefore', hread⟩ := Parser.read_of_runOn hbefore hending
      (fun n => (Parser.reads_expression n).shorter (Nat.le_succ n)) he
    refine ⟨read, s, ?_, hbefore', hread.part.derives, hread.part.fits, hread.stops⟩
    rw [ParseState.ofTokens_append hbefore hending]
    exact hrun
  · intro q read rest hsplit hderives hfits hstops
    have hlength : read.length < before.length + 1 := by
      rw [hsplit, List.length_append]
      omega
    obtain ⟨e, s, hrun, hrest, _, hfaults, he⟩ := Parser.complete_expression _ hderives hlength
      (s := ⟨before, ending, 0, #[], nextId⟩) hsplit hstops
    refine ⟨e, s, (Parser.runOn_eq_ok hbefore hending).mpr ⟨s, hrun, hfaults hfits⟩, ?_, hrest, he⟩
    rw [ParseState.ofTokens_append hbefore hending]
    exact hrun

/-- `print x;` is accepted, with its tree. -/
theorem parser_exact_print :
    ∃ p, (parseProgram ([⟨.keyword .printWord, "print", 1⟩, ⟨.identifier, "x", 1⟩,
        ⟨.symbol .semicolon, ";", 1⟩] ++ [⟨.eof, "", 1⟩]) 0).result = .ok p ∧
      Stmt.listUnnumbered p = [.print (.name ⟨0, ⟨"x", 1⟩⟩)] := by
  have hname : Expr.Derives (.name ⟨0, ⟨"x", 1⟩⟩) [⟨.identifier, "x", 1⟩] :=
    .operand (.operand (.operand (.operand (.operand (.operand (.operand (.operand (.operand
      (@ExprPhrase.Derives.name ⟨.identifier, "x", 1⟩ 0 rfl)))))))))
  have hderives : (StmtPhrase.declarations [.print (.name ⟨0, ⟨"x", 1⟩⟩)]).Derives
      [⟨.keyword .printWord, "print", 1⟩, ⟨.identifier, "x", 1⟩, ⟨.symbol .semicolon, ";", 1⟩] :=
    .declarations (.statement (@StmtPhrase.Derives.print ⟨.keyword .printWord, "print", 1⟩
      ⟨.symbol .semicolon, ";", 1⟩ _ _ rfl hname rfl)) .noDeclarations
  obtain ⟨haccepts, htree, _⟩ := @parser_exact [⟨.keyword .printWord, "print", 1⟩,
    ⟨.identifier, "x", 1⟩, ⟨.symbol .semicolon, ";", 1⟩] ⟨.eof, "", 1⟩ (by simp) rfl 0
  obtain ⟨p, hp⟩ := haccepts.mpr ⟨_, hderives, ⟨trivial, trivial⟩, ⟨trivial, trivial⟩⟩
  exact ⟨p, hp, htree p _ hp hderives⟩

end Lox
