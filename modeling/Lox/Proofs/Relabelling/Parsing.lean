/-
  Lox.Proofs.Relabelling.Parsing

  The parser does not look at lines.  On relabelled tokens it makes the relabelled tree,
  or finds the same faults on the new lines; occurrences are counted from wherever it is
  told to.  The numbers of one tree can be told apart by those of the other, so a change
  of numbers that keeps any two apart does as well (`exists_parseProgram_relabel`,
  `exists_parseExpression_relabel`).
-/
import Lox.Proofs.Grammar.Exact
import Lox.Proofs.Parsing.Bounds
import Lox.Proofs.Relabelling.Trees

namespace Lox

/-! ## Trees -/

section

variable {r : Relabelling}

theorem eq_map_of_forall₂ {α β : Type} {f : α → β} {as : List α} {bs : List β}
    (h : List.Forall₂ (fun a b => b = f a) as bs) : bs = as.map f := by
  induction h with
  | nil => rfl
  | cons h _ ih => rw [List.map_cons, h, ih]

theorem isEmpty_map {α β : Type} (f : α → β) (xs : Array α) : (xs.map f).isEmpty = xs.isEmpty := by
  rw [Array.isEmpty, Array.isEmpty, Array.size_map]

theorem eq_map_of_rel {α β : Type} {f : α → β} {a : Option α} {b : Option β}
    (h : Option.Rel (fun a b => b = f a) a b) : b = a.map f := by
  cases h with
  | none => rfl
  | some h => rw [Option.map_some, h]

theorem exprLaws_relabel (r : Relabelling) :
    ExprLaws (fun n n' => n' = n.relabel r) (fun g g' => g' = g.relabel r)
      (fun u u' => u' = u.relabel r) (fun w w' => w' = w.relabel r)
      (fun e e' => e' = e.relabel r) where
  literal := rfl
  grouping h := by rw [h, Expr.relabel]
  unary hg h := by rw [hg, h, Expr.relabel]
  binary hg h h' := by rw [hg, h, h', Expr.relabel]
  logical hg h h' := by rw [hg, h, h', Expr.relabel]
  named h := by rw [h, Expr.relabel]
  assign hu h := by rw [hu, h, Expr.relabel]
  call h hg hs := by rw [h, hg, eq_map_of_forall₂ hs, Expr.relabel, Expr.listRelabel_eq_map]
  get h hn := by rw [h, hn, Expr.relabel]
  set h hn h' := by rw [h, hn, h', Expr.relabel]
  this h := by rw [h, Expr.relabel]
  super h hn := by rw [h, hn, Expr.relabel]
  target {e e'} h := by
    cases e with
    | name u => exact .inl ⟨u, _, rfl, h, rfl⟩
    | get a n => exact .inr (.inl ⟨a, _, n, _, rfl, h, rfl, rfl⟩)
    | _ => exact .inr (.inr ⟨rfl, h ▸ rfl⟩)

theorem stmtLaws_relabel (r : Relabelling) :
    StmtLaws (fun n n' => n' = n.relabel r) (fun g g' => g' = g.relabel r)
      (fun u u' => u' = u.relabel r) (fun e e' => e' = e.relabel r)
      (fun s s' => s' = s.relabel r) (fun d d' => d' = d.relabel r) where
  expression h := by rw [h, Stmt.relabel]
  print h := by rw [h, Stmt.relabel]
  var hn h := by rw [hn, eq_map_of_rel h, Stmt.relabel]
  block hs := by rw [eq_map_of_forall₂ hs, Stmt.relabel, Stmt.listRelabel_eq_map]
  ifElse h hs ht := by
    cases ht with
    | none => rw [h, hs, Stmt.relabel]
    | some ht => rw [h, hs, ht, Stmt.relabel]
  «while» h hs := by rw [h, hs, Stmt.relabel]
  «break» hg := by rw [hg, Stmt.relabel]
  function hd := by rw [hd, Stmt.relabel]
  «return» hg h := by rw [hg, eq_map_of_rel h, Stmt.relabel]
  «class» hn hu hds := by
    rw [hn, eq_map_of_rel hu, eq_map_of_forall₂ hds, Stmt.relabel,
      FunctionDecl.listRelabel_eq_map]
  callable hn hps hss := by
    rw [hn, eq_map_of_forall₂ hps, eq_map_of_forall₂ hss, FunctionDecl.relabel,
      Stmt.listRelabel_eq_map]

/-- Tokens and trees of the second text are the relabelled ones of the first. -/
def Likeness.relabelled (r : Relabelling) : Likeness where
  token t t' := t' = t.relabel r
  name n n' := n' = n.relabel r
  sign g g' := g' = g.relabel r
  use u u' := u' = u.relabel r
  word w w' := w' = w.relabel r
  expr e e' := e' = e.relabel r
  stmt s s' := s' = s.relabel r
  decl d d' := d' = d.relabel r
  kind_eq h := by rw [h, Token.relabel_kind]
  name_of_token h _ := by rw [h]; rfl
  sign_of_token h _ := by rw [h]; rfl
  exprs := exprLaws_relabel r
  stmts := stmtLaws_relabel r

end

/-! ## Positions -/

namespace Relabelling

/-- New lines, and numbers that are counted from `n'` in place of `n`. -/
def counted (line : Nat → Nat) (n n' : Nat) : Relabelling := ⟨line, fun id => n' + (id - n)⟩

end Relabelling

/-- Positions before the relabelled tokens, after the same faults. -/
structure ParseState.Relabelled (line : Nat → Nat) (n n' : Nat) (s s' : ParseState) : Prop where
  rest : s'.rest = s.rest.map (Token.relabel (.counted line n n'))
  mark : s'.ending = s.ending.relabel (.counted line n n')
  ending : s.ending.kind = .eof
  loops : s'.loops = s.loops
  faults : s'.faults = s.faults.map (Diagnostic.relabel (.counted line n n'))
  least : n ≤ s.nextId
  nextId : s'.nextId = n' + (s.nextId - n)

namespace Parser

variable {r : Relabelling}

theorem relabel_diagnostic (t : Token) (fault : SyntaxFault) :
    diagnostic (t.relabel r) fault = (diagnostic t fault).relabel r := by
  have hplace : (t.relabel r).place = t.place := by
    unfold Token.place
    rw [Token.relabel_kind]
    rfl
  unfold diagnostic
  rw [hplace]
  rfl

theorem skipToBoundary_relabel (last : Token) (ts : List Token) :
    skipToBoundary (last.relabel r) (ts.map (Token.relabel r)) =
      (skipToBoundary last ts).map (Token.relabel r) := by
  induction ts generalizing last with
  | nil => rfl
  | cons t ts ih =>
    rw [List.map_cons, skipToBoundary, skipToBoundary, Token.relabel_kind, Token.relabel_kind]
    split
    · rfl
    · exact ih t

theorem afterFault_relabel (ts : List Token) :
    afterFault (ts.map (Token.relabel r)) = (afterFault ts).map (Token.relabel r) := by
  cases ts with
  | nil => rfl
  | cons t ts => exact skipToBoundary_relabel t ts

end Parser

theorem ParseState.Relabelled.push {line : Nat → Nat} {n n' : Nat} {s s' : ParseState}
    (h : s.Relabelled line n n' s') (d : Diagnostic) :
    s'.faults.push (d.relabel (.counted line n n')) =
      (s.faults.push d).map (Diagnostic.relabel (.counted line n n')) := by
  rw [h.faults, Array.map_push]

/-- Positions that correspond; a fault is the same one on its new line. -/
def Places.relabelled (line : Nat → Nat) (n n' : Nat) :
    Places (.relabelled (.counted line n n')) where
  here := ParseState.Relabelled line n n'
  behind := ParseState.Relabelled line n n'
  fault d d' := d' = d.relabel (.counted line n n')
  ending h := ⟨h.ending, by rw [h.mark, Token.relabel_kind, h.ending]⟩
  heads {s s'} h := by
    rw [h.rest, List.head?_map]
    cases s.rest.head? with
    | none => exact .none
    | some t => exact .some rfl
  ends h _ := h.mark
  read h hs hs' _ := by
    rw [h.rest, hs] at hs'
    cases hs'
    exact ⟨rfl, h.mark, h.ending, h.loops, h.faults, h.least, h.nextId⟩
  finish h hs hs' _ := by
    rw [h.rest, hs] at hs'
    cases hs'
    exact ⟨rfl, h.mark, h.ending, h.loops, h.faults, h.least, h.nextId⟩
  diagnostic cause h := by rw [h, Parser.relabel_diagnostic]
  report {_ _ d _} h hd :=
    ⟨h.rest, h.mark, h.ending, h.loops, hd ▸ h.push d, h.least, h.nextId⟩
  number {s s'} h := by
    refine ⟨h.rest, h.mark, h.ending, h.loops, h.faults, Nat.le_succ_of_le h.least, ?_⟩
    have hleast := h.least
    show s'.nextId + 1 = n' + (s.nextId + 1 - n)
    rw [h.nextId]
    omega
  use h hn := congrArg₂ Occurrence.mk h.nextId hn
  word h hg := congrArg₂ Occurrence.mk h.nextId hg
  loops h := h.loops
  here_loops _ h := ⟨h.rest, h.mark, h.ending, rfl, h.faults, h.least, h.nextId⟩
  behind_loops _ h := ⟨h.rest, h.mark, h.ending, rfl, h.faults, h.least, h.nextId⟩
  otherwise h := .inl h
  inside _ _ _ _ _ := Iff.rfl
  recover {_ _ d _} h hd := by
    refine ⟨?_, h.mark, h.ending, h.loops, hd ▸ h.push d, h.least, h.nextId⟩
    rw [h.rest, Parser.afterFault_relabel]

/-! ## Numbers that stay apart -/

namespace Relabelling

/-- Numbers from `n` up to a limit are counted from `n'`; the others are kept away from
    these. -/
def spread (line : Nat → Nat) (n n' limit : Nat) : Relabelling :=
  ⟨line, fun id => if n ≤ id ∧ id < limit then n' + (id - n) else id + (n' + limit)⟩

theorem spread_injective (line : Nat → Nat) (n n' limit : Nat) :
    (spread line n n' limit).id.Injective := by
  intro a b h
  dsimp only [spread] at h
  split at h <;> split at h <;> omega

/-- On a tree that was numbered from `n` up to the limit, this is counting. -/
theorem agreeOn_spread (line : Nat → Nat) {n n' limit : Nat} {uses : List Use}
    (h : Fresh uses n limit) :
    (counted line n n').AgreeOn (spread line n n' limit) uses :=
  fun use huse => if_pos (h.within use huse)

end Relabelling

theorem Diagnostic.relabel_congr {r r' : Relabelling} (hline : r'.line = r.line) :
    Diagnostic.relabel r' = Diagnostic.relabel r := by
  funext d
  cases d <;> simp only [relabel, RuntimeError.relabel, hline]

/-! ## Whole texts -/

/-- The result of an analysis, relabelled: its answer or its faults. -/
def Relabelling.findings {α β : Type} (r : Relabelling) (g : α → β) :
    Except (List Diagnostic) α → Except (List Diagnostic) β
  | .ok a => .ok (g a)
  | .error ds => .error (ds.map (Diagnostic.relabel r))

/-- Findings about a tree with numbers from `n` on, counted anew: another relabelling
    does the same to them and keeps all numbers apart. -/
theorem Relabelling.exists_apart {α : Type} {g : Relabelling → α → α} {uses : α → List Use}
    {line : Nat → Nat} {n n' : Nat} {found found' : Except (List Diagnostic) α}
    (hcounted : found' = (counted line n n').findings (g (counted line n n')) found)
    (hfresh : ∀ a, found = .ok a → ∃ limit, Fresh (uses a) n limit)
    (hcongr : ∀ {r r' : Relabelling}, r'.line = r.line → ∀ a, r.AgreeOn r' (uses a) →
      g r' a = g r a) :
    ∃ r : Relabelling, r.line = line ∧ r.id.Injective ∧ found' = r.findings (g r) found := by
  cases found with
  | error ds =>
    refine ⟨spread line n n' 0, rfl, spread_injective line n n' 0, hcounted.trans ?_⟩
    have hline : (counted line n n').line = (spread line n n' 0).line := rfl
    rw [findings, findings, Diagnostic.relabel_congr hline]
  | ok a =>
    obtain ⟨limit, hnumbered⟩ := hfresh a rfl
    refine ⟨spread line n n' limit, rfl, spread_injective line n n' limit, hcounted.trans ?_⟩
    have hline : (spread line n n' limit).line = (counted line n n').line := rfl
    rw [findings, findings, hcongr hline a (agreeOn_spread line hnumbered)]

section

variable {before : List Token} {ending : Token} (hbefore : ∀ t ∈ before, t.kind ≠ .eof)
  (hending : ending.kind = .eof)
include hbefore hending

/-- What coupled rules give on a list of tokens and on the relabelled one. -/
theorem Parser.runOn_relabel {α : Type} {p : Nat → Parser α} {rel : α → α → Prop} {g : α → α}
    (line : Nat → Nat) (n n' : Nat) (hrel : ∀ a a', rel a a' → a' = g a)
    (hp : ∀ bound, Coupled (.relabelled line n n') (Places.relabelled line n n').here
      (Places.relabelled line n n').here 0 (bound + 1) rel (p (bound + 1)) (p (bound + 1))) :
    (runOn p ((before ++ [ending]).map (Token.relabel (.counted line n n'))) n').result =
      (Relabelling.counted line n n').findings g (runOn p (before ++ [ending]) n).result := by
  have hbefore' : ∀ t ∈ before.map (Token.relabel (.counted line n n')), t.kind ≠ .eof := by
    intro t ht
    obtain ⟨u, hu, rfl⟩ := List.mem_map.mp ht
    exact hbefore u hu
  have hending' : (ending.relabel (.counted line n n')).kind = .eof := hending
  have hstart : ParseState.Relabelled line n n' ⟨before, ending, 0, #[], n⟩
      ⟨before.map (Token.relabel (.counted line n n')), ending.relabel (.counted line n n'), 0,
        #[], n'⟩ :=
    ⟨rfl, rfl, hending, rfl, by simp, Nat.le_refl n, by simp⟩
  have hruns := hp before.length _ _ hstart (Nat.lt_succ_self _)
  unfold runOn
  rw [List.map_append, List.map_singleton, ParseState.ofTokens_append hbefore hending,
    ParseState.ofTokens_append hbefore' hending']
  simp only [List.length_map]
  match p (before.length + 1) _, p (before.length + 1) _, hruns with
  | _, _, .ok hs ha _ =>
    have hfaults := hs.faults
    dsimp only
    rw [hfaults, hrel _ _ ha, isEmpty_map, Array.toList_map]
    split <;> rfl
  | _, _, .error hs he _ =>
    have hpush := hs.push
    dsimp only
    rw [he, hpush, Array.toList_map]
    rfl

/-- On relabelled tokens the parser makes the relabelled program, or finds the same
    faults on their new lines. -/
theorem parseProgram_relabel (line : Nat → Nat) (n n' : Nat) :
    (parseProgram ((before ++ [ending]).map (Token.relabel (.counted line n n'))) n').result =
      (Relabelling.counted line n n').findings (Stmt.listRelabel (.counted line n n'))
        (parseProgram (before ++ [ending]) n).result := by
  refine Parser.runOn_relabel hbefore hending line n n' (fun ss ss' h => ?_) fun bound =>
    Parser.coupled_programs (fun _ _ => Iff.rfl) (Nat.le_refl _) (Nat.le_refl _)
  rw [Stmt.listRelabel_eq_map]
  exact eq_map_of_forall₂ h

theorem parseExpression_relabel (line : Nat → Nat) (n n' : Nat) :
    (parseExpression ((before ++ [ending]).map (Token.relabel (.counted line n n'))) n').result =
      (Relabelling.counted line n n').findings (Expr.relabel (.counted line n n'))
        (parseExpression (before ++ [ending]) n).result :=
  Parser.runOn_relabel hbefore hending line n n' (fun _ _ h => h) fun _ =>
    Parser.coupled_expressions (Nat.le_succ _) (Nat.le_succ _)

/-- An accepted program has the numbers from `n` on. -/
theorem parseProgram_numbered {n : Nat} {p : List Stmt}
    (h : (parseProgram (before ++ [ending]) n).result = .ok p) :
    ∃ limit, Fresh (Stmt.listUses p) n limit := by
  obtain ⟨read, s, _, _, hread, _⟩ :=
    Parser.read_of_runOn hbefore hending Parser.reads_program h
  exact ⟨s.nextId, hread.fresh⟩

theorem parseExpression_numbered {n : Nat} {e : Expr}
    (h : (parseExpression (before ++ [ending]) n).result = .ok e) :
    ∃ limit, Fresh e.uses n limit := by
  obtain ⟨read, s, _, _, hread⟩ := Parser.read_of_runOn hbefore hending
    (fun n => (Parser.reads_expression n).shorter (Nat.le_succ n)) h
  exact ⟨s.nextId, hread.part.fresh⟩

/-- Whatever the new lines are and wherever counting begins, parsing gives the relabelled
    program or the relabelled faults, where numbers that differ still do. -/
theorem exists_parseProgram_relabel (line : Nat → Nat) (n n' : Nat) :
    ∃ r : Relabelling, r.line = line ∧ r.id.Injective ∧
      (parseProgram ((before ++ [ending]).map (Token.relabel r)) n').result =
        r.findings (Stmt.listRelabel r) (parseProgram (before ++ [ending]) n).result := by
  obtain ⟨r, rfl, hr, hsame⟩ := Relabelling.exists_apart
    (parseProgram_relabel hbefore hending line n n')
    (fun _ => parseProgram_numbered hbefore hending) Stmt.listRelabel_congr
  exact ⟨r, rfl, hr, hsame⟩

theorem exists_parseExpression_relabel (line : Nat → Nat) (n n' : Nat) :
    ∃ r : Relabelling, r.line = line ∧ r.id.Injective ∧
      (parseExpression ((before ++ [ending]).map (Token.relabel r)) n').result =
        r.findings (Expr.relabel r) (parseExpression (before ++ [ending]) n).result := by
  obtain ⟨r, rfl, hr, hsame⟩ := Relabelling.exists_apart
    (parseExpression_relabel hbefore hending line n n')
    (fun _ => parseExpression_numbered hbefore hending) Expr.relabel_congr
  exact ⟨r, rfl, hr, hsame⟩

end

end Lox
