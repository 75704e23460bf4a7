/-
  Lox.Proofs.Printing

  Evaluating a text as one expression, and running the program that prints it.

    * `printing` — the text of that program;
    * `IsExpression` — texts that are one expression up to their end;
    * `scan_printing` — the program has the tokens of the expression between its own two,
      on the same lines;
    * `parseProgram_printing` — so its tree is that of the expression, with the same
      numbers of occurrences;
    * `interpret_print` — and what it does is to show the value;
    * `evaluate_eq_run_printing` — the two modes do the same.
-/
import Lox.Mode
import Lox.Proofs.Grammar.Exact
import Lox.Proofs.Lexing.LineEnds
import Lox.Proofs.Parsing.Extending
import Lox.Proofs.Parsing.Recovery
import Lox.Proofs.Renaming.Rewording
import Lox.Proofs.Scoping.Wording
import Mathlib

namespace Lox

/-- The program that prints the value of an expression.  Its semicolon is on a line of its
    own, as a comment may stand behind the expression. -/
def printing (source : String) : String := "print " ++ source ++ "\n;"

/-- The tokens before the end mark that a rule leaves unread. -/
def Parser.unread {α : Type} (p : Nat → Parser α) (tokens : List Token) (nextId : Nat) :
    List Token :=
  let start := ParseState.ofTokens tokens nextId
  match p (start.rest.length + 1) start with
  | .ok _ s => s.rest
  | .error _ s => s.rest

/-- The text of one expression: it is scanned without faults, and parsing it succeeds and
    reads all tokens. -/
structure IsExpression (source : String) : Prop where
  scanned : faultsOf (scan source) = []
  parsed : ∃ e, (parseExpression (tokensOf (scan source)) 0).result = .ok e
  whole : Parser.unread Parser.expression (tokensOf (scan source)) 0 = []

/-! ## Tokens -/

theorem pieces_printWord (cs : List Char) :
    pieces ("print ".toList ++ cs) =
      .token (.keyword .printWord) "print".toList :: .blank [' '] :: pieces cs := by
  have hword : Piece.first 'p' ("rint ".toList ++ cs) =
      (.token (.keyword .printWord) "print".toList, ' ' :: cs) := by
    rfl
  have hblank : Piece.first ' ' cs = (.blank [' '], cs) := rfl
  show pieces ('p' :: ("rint ".toList ++ cs)) = _
  rw [pieces, hword, pieces, hblank]

theorem pieces_semicolon :
    pieces ";".toList = [.token (.symbol .semicolon) ";".toList] := by
  cbv

theorem pieces_printing {source : String} (hclean : faultsOf (scan source) = []) :
    pieces (printing source).toList =
      .token (.keyword .printWord) "print".toList :: .blank [' '] :: (pieces source.toList ++
        [.blank ['\n'], .token (.symbol .semicolon) ";".toList]) := by
  have hclosed (text : List Char) :
      Piece.fault .unterminatedString text ∉ pieces source.toList := fun hmem =>
    not_fault_of_faultsOf hclean _ hmem _ _ rfl
  have htext : (printing source).toList =
      "print ".toList ++ (source.toList ++ '\n' :: ";".toList) := by
    simp [printing]
  rw [htext, pieces_printWord, pieces_lineEnd hclosed, pieces_semicolon]

/-- The tokens of the expression are on the lines on which they were, and the semicolon is
    on the next one. -/
theorem scan_printing {source : String} (hclean : faultsOf (scan source) = []) :
    scan (printing source) =
      .ok ⟨.keyword .printWord, "print", 1⟩ :: ((scan source).dropLast ++
        [.ok ⟨.symbol .semicolon, ";", lastLine source + 1⟩,
          .ok (Token.endMark (lastLine source + 1))]) := by
  have hfront (ps : List Piece) :
      itemsOf 1 (.token (.keyword .printWord) "print".toList :: .blank [' '] :: ps) =
        .ok ⟨.keyword .printWord, "print", 1⟩ :: itemsOf 1 ps := rfl
  have hback (line : Nat) :
      itemsOf line [.blank ['\n'], .token (.symbol .semicolon) ";".toList] =
        [.ok ⟨.symbol .semicolon, ";", line + 1⟩, .ok (Token.endMark (line + 1))] := rfl
  rw [scan, pieces_printing hclean, hfront, itemsOf_append, hback, flatMap_text_pieces]
  rfl

theorem tokensOf_eq (source : String) : tokensOf (scan source) =
    tokensOf (scan source).dropLast ++ [Token.endMark (lastLine source)] := by
  conv_lhs => rw [scan_eq, tokensOf, List.filterMap_append]
  rfl

theorem tokensOf_printing {source : String} (hclean : faultsOf (scan source) = []) :
    tokensOf (scan (printing source)) =
      ⟨.keyword .printWord, "print", 1⟩ :: tokensOf (scan source).dropLast ++
        [⟨.symbol .semicolon, ";", lastLine source + 1⟩] ++
        [Token.endMark (lastLine source + 1)] := by
  have hfront (items : List Item) (t : Token) : tokensOf (.ok t :: items) = t :: tokensOf items :=
    rfl
  rw [scan_printing hclean, hfront, tokensOf, List.filterMap_append, List.append_assoc]
  rfl

theorem faultsOf_printing {source : String} (hclean : faultsOf (scan source) = []) :
    faultsOf (scan (printing source)) = [] := by
  have hfront : faultsOf (scan source).dropLast = [] := by
    rw [scan_eq, faultsOf, List.filterMap_append] at hclean
    exact (List.append_eq_nil_iff.mp hclean).1
  rw [scan_printing hclean, faultsOf, List.filterMap_cons_none rfl, List.filterMap_append,
    show List.filterMap _ _ = [] from hfront]
  rfl

/-! ## Trees -/

namespace Parser

variable {before : List Token} {first semicolon mark mark' : Token} {id : Nat} {e : Expr}
  {t : ParseState}

/-- An expression that was read up to the end is read in the same way as the value of a
    `print` statement. -/
theorem declaration_print (hmark : mark.kind = .eof)
    (hfirst : first.kind = .keyword .printWord) (hsemicolon : semicolon.kind = .symbol .semicolon)
    (hrun : expression (before.length + 1) ⟨before, mark, 0, #[], id⟩ = .ok e t)
    (hrest : t.rest = []) :
    declaration (before.length + 3) ⟨first :: before ++ [semicolon], mark', 0, #[], id⟩ =
      .ok (some (.print e)) { t with rest := [], ending := mark' } := by
  have hends : Ends [semicolon] := ⟨by simpa using hsemicolon, List.cons_ne_nil _ _⟩
  -- What is left is read within any bound that is large enough.
  have hlonger : expression (before.length + 2) ⟨before, mark, 0, #[], id⟩ = .ok e t := by
    have hbound : before.length < before.length + 1 := Nat.lt_succ_self _
    rw [← hrun, ← expressionWithin_eq default hmark hbound (Nat.le_add_right before.length 2),
      ← expressionWithin_eq default hmark hbound (Nat.le_add_right before.length 1)]
  have hvalue : expression (before.length + 2) ⟨before ++ [semicolon], mark', 0, #[], id⟩ =
      .ok e (t.before [semicolon] mark') :=
    (extensible_expression hends (before.length + 2) _ _ _ hmark hlonger).2
  have hleft : (t.before [semicolon] mark').rest = [semicolon] := by
    rw [ParseState.before, hrest, List.nil_append]
  let inner : Inner := ⟨before.length + 3, expression (before.length + 2),
    statement (before.length + 2), declaration (before.length + 2)⟩
  have hprint : printStatement inner ⟨before ++ [semicolon], mark', 0, #[], id⟩ =
      .ok (.print e) { t with rest := [], ending := mark' } := by
    unfold printStatement
    rw [bind_of_ok hvalue, bind_expectSymbol hleft hsemicolon]
    rfl
  have hstatement : statementRule inner ⟨first :: before ++ [semicolon], mark', 0, #[], id⟩ =
      .ok (.print e) { t with rest := [], ending := mark' } := by
    unfold statementRule
    rw [bind_peek rfl]
    simp only [hfirst]
    rw [bind_advance rfl]
    exact hprint
  show recovering _ _ = _
  unfold recovering
  rw [bind_peek rfl]
  simp only [hfirst]
  rw [hstatement]

/-- The program with nothing but that statement. -/
theorem program_print (hmark : mark.kind = .eof)
    (hfirst : first.kind = .keyword .printWord) (hsemicolon : semicolon.kind = .symbol .semicolon)
    (hrun : expression (before.length + 1) ⟨before, mark, 0, #[], id⟩ = .ok e t)
    (hrest : t.rest = []) :
    program (before.length + 3) ⟨first :: before ++ [semicolon], mark', 0, #[], id⟩ =
      .ok [.print e] { t with rest := [], ending := mark' } := by
  have hdeclaration : declaration (before.length + 3)
      ⟨first :: before ++ [semicolon], mark', 0, #[], id⟩ = _ :=
    declaration_print hmark hfirst hsemicolon hrun hrest
  rw [program_eq (List.cons_ne_nil _ _) hdeclaration, programFrom_end rfl]
  rfl

end Parser

/-- The tree of the program prints the tree of the expression, with its numbers. -/
theorem parseProgram_printing {source : String} (h : IsExpression source) {e : Expr}
    (hparsed : (parseExpression (tokensOf (scan source)) 0).result = .ok e) :
    (parseProgram (tokensOf (scan (printing source))) 0).result = .ok [.print e] := by
  obtain ⟨before, ending, htokens, hbefore⟩ := tokensOf_scan source
  have hkinds : ∀ t ∈ before, t.kind ≠ .eof := fun t ht => (hbefore t ht).1
  obtain rfl : tokensOf (scan source).dropLast = before :=
    (List.append_inj' ((tokensOf_eq source).symm.trans htokens) rfl).1
  -- How the expression was parsed is said with its tokens and its end mark apart, since the
  -- program has other tokens behind them.
  have hwhole := h.whole
  rw [tokensOf_eq] at hparsed hwhole
  obtain ⟨t, hrun, hfaults⟩ := (Parser.runOn_eq_ok hkinds rfl).mp hparsed
  have hrest : t.rest = [] := by
    unfold Parser.unread at hwhole
    rw [ParseState.ofTokens_append hkinds rfl] at hwhole
    dsimp only at hwhole
    rwa [hrun] at hwhole
  have hmark : (Token.endMark (lastLine source)).kind = .eof := rfl
  let first : Token := ⟨.keyword .printWord, "print", 1⟩
  have hfirst : first.kind = .keyword .printWord := rfl
  let semicolon : Token := ⟨.symbol .semicolon, ";", lastLine source + 1⟩
  have hsemicolon : semicolon.kind = .symbol .semicolon := rfl
  have hkinds' : ∀ t ∈ first :: tokensOf (scan source).dropLast ++ [semicolon], t.kind ≠ .eof :=
    List.forall_mem_append.mpr
      ⟨List.forall_mem_cons.mpr ⟨nofun, hkinds⟩, List.forall_mem_singleton.mpr nofun⟩
  rw [tokensOf_printing h.scanned]
  refine (Parser.runOn_eq_ok hkinds' rfl).mpr
    ⟨{ t with rest := [], ending := Token.endMark (lastLine source + 1) }, ?_, hfaults⟩
  rw [List.length_append, List.length_cons]
  exact Parser.program_print hmark hfirst hsemicolon hrun hrest

/-! ## Runs -/

/-- The program shows the value of the expression. -/
theorem interpret_print (fuel : Nat) (e : Expr) :
    interpret fuel [.print e] = (do let v ← evaluate fuel e; RunM.print v) := by
  simp only [interpret, evaluate, Stmt.listExec, Stmt.exec, bind_assoc, pure_bind]
  exact congrArg _ (funext fun v => bind_pure (RunM.print v))

namespace Mode

/-- A value that is shown by a program, and one that is shown when all is done. -/
theorem onMachine_print (limits : Limits) (table : Table) (e : Expr) :
    (do
      match ← onMachine limits table
          (do let v ← Lox.evaluate limits.fuel e; RunM.inspect v.text) with
      | .ok text =>
        writeOut text
        return .success
      | .error e =>
        writeErr (Diagnostic.runtime e).text
        return .runtimeError : Reporter Status) =
    (do
      match ← onMachine limits table (interpret limits.fuel [.print e]) with
      | .ok () => return .success
      | .error e =>
        writeErr (Diagnostic.runtime e).text
        return .runtimeError : Reporter Status) := by
  rw [interpret_print]
  funext c
  simp only [bind, EStateM.bind, onMachine]
  -- The text of the value is that on the machine which the expression left, in both modes;
  -- all that is left is whether the sink takes it.
  cases hrun : Lox.evaluate limits.fuel e { Machine.start c.out limits.clock with table } with
  | error halt m => cases halt <;> rfl
  | ok v m =>
    simp only [RunM.inspect, RunM.print]
    unfold EStateM.bind writeOut
    cases htaken : (m.out.write (v.text m.store ++ "\n")).1 <;> simp only [htaken] <;> rfl

/-- Whether a mode comes to an end if it is given enough fuel. -/
def Ends (run : Nat → Reporter Status) (c : Channels) : Prop :=
  ∃ fuel, ∀ c', run fuel c ≠ .error .outOfFuel c'

/-! ## Main statement -/

/-- A text that is one expression, and the program that prints it: evaluating the one and
    running the other end with the same status, or stop for the same reason, and have
    written the same results and the same diagnostics, whatever the sinks take; and one
    comes to an end if and only if the other one does. -/
theorem evaluate_eq_run_printing {source : String} (h : IsExpression source) :
    (∀ limits, perform limits .evaluate source = perform limits .run (printing source)) ∧
    ∀ clock c, Ends (fun fuel => perform ⟨clock, fuel⟩ .evaluate source) c ↔
      Ends (fun fuel => perform ⟨clock, fuel⟩ .run (printing source)) c := by
  have hsame (limits : Limits) :
      perform limits .evaluate source = perform limits .run (printing source) := by
    obtain ⟨e, hparsed⟩ := h.parsed
    have hprogram := parseProgram_printing h hparsed
    have hclean := faultsOf_printing h.scanned
    show evaluateSource limits source = runSource limits (printing source)
    unfold evaluateSource runSource check
    simp only [h.scanned, hclean, hparsed, hprogram]
    have hresolved : resolveProgram [.print e] = resolveExpression e := rfl
    rw [hresolved]
    cases resolveExpression e with
    | error faults => rfl
    | ok table => exact onMachine_print limits table e
  exact ⟨hsame, fun clock c => by simp only [Ends, hsame]⟩

/-- Two strings with a comment behind them. -/
theorem evaluate_eq_run_printing_comment :
    IsExpression "\"a\" + \"b\" // c" ∧
      perform ⟨fun _ => none, 0⟩ .run "print \"a\" + \"b\" // c\n;" ⟨.unlimited, .unlimited⟩ =
        .ok .success ⟨⟨none, "ab\n".toUTF8⟩, .unlimited⟩ := by
  have hexpression : IsExpression "\"a\" + \"b\" // c" := ⟨by cbv, ⟨_, by cbv⟩, by cbv⟩
  have hprinting : printing "\"a\" + \"b\" // c" = "print \"a\" + \"b\" // c\n;" := by decide
  refine ⟨hexpression, ?_⟩
  rw [← hprinting, ← (evaluate_eq_run_printing hexpression).1]
  cbv

end Mode

end Lox
