/-
  Lox.Proofs.Grammar.Oblivious

  The parser does not look at names.  On tokens that differ in names only it goes
  the same way: it makes trees that differ in names only and have the same numbers,
  or gives up at the same places.

    * `ParseState.Alike` — positions in such texts, after the same number of faults;
    * `Likeness.alike`, `Places.alike` — what corresponds in two runs on such texts;
    * `parseProgram_alike` — a program is accepted whatever its names are.
-/
import Lox.Proofs.Grammar.Alike
import Lox.Proofs.Grammar.Exact
import Lox.Proofs.Parsing.Bounds

namespace Lox

section

variable (R : String → String → Prop)

/-- Positions in texts that differ in names only. -/
structure ParseState.Alike (s s' : ParseState) : Prop where
  rest : List.Forall₂ (Token.Alike R) s.rest s'.rest
  ending : s.ending.Alike R s'.ending
  loops : s'.loops = s.loops
  nextId : s'.nextId = s.nextId
  faults : s'.faults.size = s.faults.size

end

variable {R : String → String → Prop}

/-! ## Trees -/

theorem Expr.listAlike_of_forall₂ {es es' : List Expr} (h : List.Forall₂ (Expr.Alike R) es es') :
    Expr.ListAlike R es es' := by
  induction h with
  | nil => exact .nil
  | cons he _ ih => exact .cons he ih

theorem Stmt.listAlike_of_forall₂ {ss ss' : List Stmt} (h : List.Forall₂ (Stmt.Alike R) ss ss') :
    Stmt.ListAlike R ss ss' := by
  induction h with
  | nil => exact .nil
  | cons hs _ ih => exact .cons hs ih

theorem Stmt.declsAlike_of_forall₂ {ds ds' : List FunctionDecl}
    (h : List.Forall₂ (Stmt.DeclAlike R) ds ds') : Stmt.DeclsAlike R ds ds' := by
  induction h with
  | nil => exact .nil
  | cons hd _ ih => exact .cons hd ih

/-- Only a target of an assignment is like one. -/
theorem Expr.Alike.target {e e' : Expr} (h : e.Alike R e') :
    (∃ u u', e = .name u ∧ e' = .name u' ∧ u.name.Alike R u'.name) ∨
    (∃ a a' n n', e = .get a n ∧ e' = .get a' n' ∧ a.Alike R a' ∧ n.Alike R n') ∨
    e.isTarget = false ∧ e'.isTarget = false := by
  cases h with
  | name hu => exact .inl ⟨_, _, rfl, rfl, hu.name⟩
  | get ha hn => exact .inr (.inl ⟨_, _, _, _, rfl, rfl, ha, hn⟩)
  | _ => exact .inr (.inr ⟨rfl, rfl⟩)

theorem exprLaws_alike : ExprLaws (Lexeme.Alike R) Eq (Occurrence.Alike R) Eq (Expr.Alike R) where
  literal := .literal
  grouping h := .grouping h
  unary hg h := hg ▸ .unary h
  binary hg h h' := hg ▸ .binary h h'
  logical hg h h' := hg ▸ .logical h h'
  named hu := .name hu
  assign hu h := .assign hu h
  call h hg hs := hg ▸ .call h (Expr.listAlike_of_forall₂ hs)
  get h hn := .get h hn
  set h hn h' := .set h hn h'
  this hw := hw ▸ .this
  super hw hn := hw ▸ .super hn
  target h := h.target

theorem stmtLaws_alike : StmtLaws (Lexeme.Alike R) Eq (Occurrence.Alike R) (Expr.Alike R)
    (Stmt.Alike R) (Stmt.DeclAlike R) where
  expression h := .expression h
  print h := .print h
  var hn h := .var hn h
  block hs := .block (Stmt.listAlike_of_forall₂ hs)
  ifElse h hs ht := by
    cases ht with
    | none => exact .ifThen h hs
    | some ht => exact .ifElse h hs ht
  «while» h hs := .while h hs
  «break» hg := hg ▸ .break
  function hd := .function hd
  «return» hg h := hg ▸ .return h
  «class» hn hu hds := .class hn hu (Stmt.declsAlike_of_forall₂ hds)
  callable hn hps hss := .mk hn hps (Stmt.listAlike_of_forall₂ hss)

/-- Tokens and trees differ in names only, and the words `this` and `super` are the same. -/
def Likeness.alike (R : String → String → Prop) : Likeness where
  token := Token.Alike R
  name := Lexeme.Alike R
  sign := Eq
  use := Occurrence.Alike R
  word := Eq
  expr := Expr.Alike R
  stmt := Stmt.Alike R
  decl := Stmt.DeclAlike R
  kind_eq h := h.kind
  name_of_token h hkind := h.name hkind
  sign_of_token h hkind := congrArg Token.toLexeme (h.fixed hkind).symm
  exprs := exprLaws_alike
  stmts := stmtLaws_alike

/-! ## Positions -/

namespace Parser

theorem alike_skipToBoundary {ts ts' : List Token} (h : List.Forall₂ (Token.Alike R) ts ts')
    {last last' : Token} (hlast : last.Alike R last') :
    List.Forall₂ (Token.Alike R) (skipToBoundary last ts) (skipToBoundary last' ts') := by
  induction h generalizing last last' with
  | nil => exact .nil
  | cons ht hts ih =>
    unfold skipToBoundary
    rw [hlast.kind, ht.kind]
    split
    · exact .cons ht hts
    · exact ih ht

theorem alike_afterFault {ts ts' : List Token} (h : List.Forall₂ (Token.Alike R) ts ts') :
    List.Forall₂ (Token.Alike R) (afterFault ts) (afterFault ts') := by
  cases h with
  | nil => exact .nil
  | cons ht hts => exact alike_skipToBoundary hts ht

end Parser

namespace ParseState.Alike

variable {s s' : ParseState} (h : s.Alike R s')
include h

theorem heads : Option.Rel (Token.Alike R) s.rest.head? s'.rest.head? := by
  have hrest := h.rest
  revert hrest
  cases s.rest <;> cases s'.rest <;> intro hrest <;> cases hrest
  · exact .none
  · exact .some ‹_›

/-- Behind a token that was read. -/
theorem tail {t t' : Token} {ts ts' : List Token} (hs : s.rest = t :: ts)
    (hs' : s'.rest = t' :: ts') :
    ParseState.Alike R { s with rest := ts } { s' with rest := ts' } := by
  have hrest := h.rest
  rw [hs, hs'] at hrest
  cases hrest with
  | cons _ hts => exact ⟨hts, h.ending, h.loops, h.nextId, h.faults⟩

theorem push (d d' : Diagnostic) : (s'.faults.push d').size = (s.faults.push d).size := by
  rw [Array.size_push, Array.size_push, h.faults]

end ParseState.Alike

/-- Positions in lists that end in an end mark. -/
def ParseState.AlikeToEnd (R : String → String → Prop) (s s' : ParseState) : Prop :=
  s.ending.kind = .eof ∧ s.Alike R s'

/-- Positions in texts that differ in names only; faults may name what they are about. -/
def Places.alike (R : String → String → Prop) : Places (.alike R) where
  here := ParseState.AlikeToEnd R
  behind := ParseState.AlikeToEnd R
  fault _ _ := True
  ending h := ⟨h.1, h.2.ending.kind.trans h.1⟩
  heads h := h.2.heads
  ends h _ := h.2.ending
  read h hs hs' _ := ⟨h.1, h.2.tail hs hs'⟩
  finish h hs hs' _ := ⟨h.1, h.2.tail hs hs'⟩
  diagnostic _ _ := trivial
  report {_ _ d d'} h _ := ⟨h.1, h.2.rest, h.2.ending, h.2.loops, h.2.nextId, h.2.push d d'⟩
  number h := ⟨h.1, h.2.rest, h.2.ending, h.2.loops, congrArg (· + 1) h.2.nextId, h.2.faults⟩
  use h hn := ⟨hn, h.2.nextId⟩
  word h hg := congrArg₂ Occurrence.mk h.2.nextId.symm hg
  loops h := h.2.loops
  here_loops _ h := ⟨h.1, h.2.rest, h.2.ending, rfl, h.2.nextId, h.2.faults⟩
  behind_loops _ h := ⟨h.1, h.2.rest, h.2.ending, rfl, h.2.nextId, h.2.faults⟩
  otherwise h := .inl h
  inside _ _ _ _ _ := Iff.rfl
  recover {_ _ d d'} h _ :=
    ⟨h.1, Parser.alike_afterFault h.2.rest, h.2.ending, h.2.loops, h.2.nextId, h.2.push d d'⟩

/-! ## Whole texts -/

/-- A program is accepted whatever its names are, and its tree is numbered in the same
    way. -/
theorem parseProgram_alike {before before' : List Token} {ending : Token} {nextId : Nat}
    {p : List Stmt} (hbefore : List.Forall₂ (Token.Alike R) before before')
    (hkinds : ∀ t ∈ before, t.kind ≠ .eof) (hending : ending.kind = .eof)
    (h : (parseProgram (before ++ [ending]) nextId).result = .ok p) :
    ∃ p', (parseProgram (before' ++ [ending]) nextId).result = .ok p' ∧ Stmt.ListAlike R p p' := by
  have hkinds' := Token.forall_ne_eof_of_alike hbefore hkinds
  obtain ⟨s, hrun, hfaults⟩ := (Parser.runOn_eq_ok hkinds hending).mp h
  have hmark : ending.Alike R ending := .of_fixed (by rw [hending]; nofun)
  have hside := Parser.coupled_programs (C := .alike R) (fun _ _ => Iff.rfl)
    (Nat.le_refl (before.length + 1)) (Nat.le_refl (before.length + 1))
    ⟨before, ending, 0, #[], nextId⟩ ⟨before', ending, 0, #[], nextId⟩
    ⟨hending, hbefore, hmark, rfl, rfl, rfl⟩ (Nat.lt_succ_self _)
  rw [hrun, hbefore.length_eq] at hside
  cases hrun' : Parser.program (before'.length + 1) ⟨before', ending, 0, #[], nextId⟩ with
  | error e s' =>
    rw [hrun'] at hside
    cases hside
  | ok p' s' =>
    rw [hrun'] at hside
    cases hside with
    | ok hs hp _ =>
      refine ⟨p', (Parser.runOn_eq_ok hkinds' hending).mpr ⟨s', hrun', ?_⟩,
        Stmt.listAlike_of_forall₂ hp⟩
      have hsize := hs.2.faults
      rw [hfaults] at hsize
      exact Array.size_eq_zero_iff.mp hsize

end Lox
