/-
  Lox.Proofs.Parsing.Bounds

  The parser beside itself.

    * `Places.same` — one position, looked at twice.  Whatever is beyond the bounds, the
      rules come to an end before them;
    * `Places.after` — positions before the same tokens, the second one with other numbers
      and perhaps after faults in what stood before;
    * `coupled_expressions`, `coupled_declarations`, `coupled_programs` — the rules of the
      parser in two runs, each with bounds of its own.
-/
import Lox.Proofs.Grammar.StmtSound
import Lox.Proofs.Grammar.ExprComplete
import Lox.Proofs.Parsing.Stmts

namespace Lox

/-! ## Equal trees -/

theorem option_eq_of_rel {α : Type} {a a' : Option α} (h : Option.Rel Eq a a') : a = a' := by
  cases h with
  | none => rfl
  | some h => rw [h]

theorem list_eq_of_forall₂ {α : Type} {as as' : List α} (h : List.Forall₂ Eq as as') :
    as = as' := by
  rwa [List.forall₂_eq_eq_eq] at h

theorem exprLaws_eq : ExprLaws Eq Eq Eq Eq Eq where
  literal := rfl
  grouping h := by rw [h]
  unary hg h := by rw [hg, h]
  binary hg h h' := by rw [hg, h, h']
  logical hg h h' := by rw [hg, h, h']
  named h := by rw [h]
  assign hu h := by rw [hu, h]
  call h hg hs := by rw [h, hg, list_eq_of_forall₂ hs]
  get h hn := by rw [h, hn]
  set h hn h' := by rw [h, hn, h']
  this h := by rw [h]
  super h hn := by rw [h, hn]
  target {e e'} h := by
    subst h
    cases e with
    | name u => exact .inl ⟨u, u, rfl, rfl, rfl⟩
    | get a n => exact .inr (.inl ⟨a, a, n, n, rfl, rfl, rfl, rfl⟩)
    | _ => exact .inr (.inr ⟨rfl, rfl⟩)

theorem stmtLaws_eq : StmtLaws Eq Eq Eq Eq Eq Eq where
  expression h := by rw [h]
  print h := by rw [h]
  var hn h := by rw [hn, option_eq_of_rel h]
  block hs := by rw [list_eq_of_forall₂ hs]
  ifElse h hs ht := by rw [h, hs, option_eq_of_rel ht]
  «while» h hs := by rw [h, hs]
  «break» hg := by rw [hg]
  function hd := by rw [hd]
  «return» hg h := by rw [hg, option_eq_of_rel h]
  «class» hn hu hds := by rw [hn, option_eq_of_rel hu, list_eq_of_forall₂ hds]
  callable hn hps hss := by rw [hn, list_eq_of_forall₂ hps, list_eq_of_forall₂ hss]

/-- Everything is the same. -/
def Likeness.same : Likeness where
  token := Eq
  name := Eq
  sign := Eq
  use := Eq
  word := Eq
  expr := Eq
  stmt := Eq
  decl := Eq
  kind_eq h := by rw [h]
  name_of_token h _ := by rw [h]
  sign_of_token h _ := by rw [h]
  exprs := exprLaws_eq
  stmts := stmtLaws_eq

/-- One position, in a list that ends in an end mark. -/
def ParseState.SameAs (s s' : ParseState) : Prop := s.ending.kind = .eof ∧ s = s'

/-- One position, looked at twice. -/
def Places.same : Places .same where
  here := ParseState.SameAs
  behind := ParseState.SameAs
  fault := Eq
  ending h := ⟨h.1, h.2 ▸ h.1⟩
  heads {s s'} h := by
    rw [h.2]
    cases s'.rest.head? with
    | none => exact .none
    | some t => exact .some rfl
  ends h _ := congrArg ParseState.ending h.2
  read h hs hs' _ := by
    cases h.2
    cases hs.symm.trans hs'
    exact ⟨h.1, rfl⟩
  finish h hs hs' _ := by
    cases h.2
    cases hs.symm.trans hs'
    exact ⟨h.1, rfl⟩
  diagnostic _ h := by rw [h]
  report h hd := ⟨h.1, by rw [h.2, hd]⟩
  number h := ⟨h.1, by rw [h.2]⟩
  use h hn := congrArg₂ Occurrence.mk (congrArg ParseState.nextId h.2) hn
  word h hg := congrArg₂ Occurrence.mk (congrArg ParseState.nextId h.2) hg
  loops h := by rw [h.2]
  here_loops _ h := ⟨h.1, by rw [h.2]⟩
  behind_loops _ h := ⟨h.1, by rw [h.2]⟩
  otherwise h := .inl h
  inside _ _ _ _ _ := Iff.rfl
  recover h hd := ⟨h.1, by rw [h.2, hd]⟩

theorem Places.same_closed : Places.same.Closed := fun _ _ => Iff.rfl

/-! ## Trees without numbers -/

theorem Expr.listUnnumbered_eq_map (es : List Expr) :
    Expr.listUnnumbered es = es.map Expr.unnumbered := by
  induction es with
  | nil => rfl
  | cons e es ih => rw [Expr.listUnnumbered, ih, List.map_cons]

theorem Stmt.listUnnumbered_eq_map (ss : List Stmt) :
    Stmt.listUnnumbered ss = ss.map Stmt.unnumbered := by
  induction ss with
  | nil => rfl
  | cons s ss ih => rw [Stmt.listUnnumbered, ih, List.map_cons]

theorem FunctionDecl.listUnnumbered_eq_map (ds : List FunctionDecl) :
    FunctionDecl.listUnnumbered ds = ds.map FunctionDecl.unnumbered := by
  induction ds with
  | nil => rfl
  | cons d ds ih => rw [FunctionDecl.listUnnumbered, ih, List.map_cons]

theorem map_eq_of_forall₂ {α β : Type} {f : α → β} {as as' : List α}
    (h : List.Forall₂ (fun a a' => f a = f a') as as') : as.map f = as'.map f :=
  list_eq_of_forall₂ (List.forall₂_map_left_iff.mpr (List.forall₂_map_right_iff.mpr h))

theorem map_eq_of_rel {α β : Type} {f : α → β} {a a' : Option α}
    (h : Option.Rel (fun a a' => f a = f a') a a') : a.map f = a'.map f := by
  cases h with
  | none => rfl
  | some h => rw [Option.map_some, Option.map_some, h]

theorem Stmt.listUnnumbered_eq_of_forall₂ {ss ss' : List Stmt}
    (h : List.Forall₂ (fun s s' : Stmt => s.unnumbered = s'.unnumbered) ss ss') :
    Stmt.listUnnumbered ss = Stmt.listUnnumbered ss' := by
  rw [Stmt.listUnnumbered_eq_map, Stmt.listUnnumbered_eq_map, map_eq_of_forall₂ h]

theorem Expr.isTarget_unnumbered (e : Expr) : e.unnumbered.isTarget = e.isTarget := by
  cases e <;> rfl

theorem exprLaws_unnumbered : ExprLaws Eq Eq (fun u u' => u.unnumbered = u'.unnumbered)
    (fun w w' => w.unnumbered = w'.unnumbered) (fun e e' => e.unnumbered = e'.unnumbered) where
  literal := rfl
  grouping h := by rw [Expr.unnumbered, h, Expr.unnumbered]
  unary hg h := by rw [Expr.unnumbered, hg, h, Expr.unnumbered]
  binary hg h h' := by rw [Expr.unnumbered, hg, h, h', Expr.unnumbered]
  logical hg h h' := by rw [Expr.unnumbered, hg, h, h', Expr.unnumbered]
  named h := by rw [Expr.unnumbered, h, Expr.unnumbered]
  assign hu h := by rw [Expr.unnumbered, hu, h, Expr.unnumbered]
  call h hg hs := by
    rw [Expr.unnumbered, h, hg, Expr.listUnnumbered_eq_map, map_eq_of_forall₂ hs,
      ← Expr.listUnnumbered_eq_map, Expr.unnumbered]
  get h hn := by rw [Expr.unnumbered, h, hn, Expr.unnumbered]
  set h hn h' := by rw [Expr.unnumbered, h, hn, h', Expr.unnumbered]
  this h := by rw [Expr.unnumbered, h, Expr.unnumbered]
  super h hn := by rw [Expr.unnumbered, h, hn, Expr.unnumbered]
  target {e e'} h := by
    cases e with
    | name u =>
      obtain ⟨u', hu', hname⟩ := Expr.eq_name_of_unnumbered h.symm
      exact .inl ⟨u, u', rfl, hu', hname.symm⟩
    | get a n =>
      obtain ⟨a', ha', hobject⟩ := Expr.eq_get_of_unnumbered h.symm
      exact .inr (.inl ⟨a, a', n, n, rfl, ha', hobject.symm, rfl⟩)
    | _ =>
      refine .inr (.inr ⟨rfl, ?_⟩)
      rw [← Expr.isTarget_unnumbered, ← h, Expr.isTarget_unnumbered]
      rfl

theorem stmtLaws_unnumbered : StmtLaws Eq Eq (fun u u' => u.unnumbered = u'.unnumbered)
    (fun e e' => e.unnumbered = e'.unnumbered) (fun s s' => s.unnumbered = s'.unnumbered)
    (fun d d' => d.unnumbered = d'.unnumbered) where
  expression h := by rw [Stmt.unnumbered, h, Stmt.unnumbered]
  print h := by rw [Stmt.unnumbered, h, Stmt.unnumbered]
  var hn h := by rw [Stmt.unnumbered, hn, map_eq_of_rel h, Stmt.unnumbered]
  block hs := by
    rw [Stmt.unnumbered, Stmt.listUnnumbered_eq_of_forall₂ hs, Stmt.unnumbered]
  ifElse h hs ht := by
    cases ht with
    | none => rw [Stmt.unnumbered, h, hs, Stmt.unnumbered]
    | some ht => rw [Stmt.unnumbered, h, hs, ht, Stmt.unnumbered]
  «while» h hs := by rw [Stmt.unnumbered, h, hs, Stmt.unnumbered]
  «break» hg := by rw [hg]
  function hd := by rw [Stmt.unnumbered, hd, Stmt.unnumbered]
  «return» hg h := by rw [Stmt.unnumbered, hg, map_eq_of_rel h, Stmt.unnumbered]
  «class» hn hu hds := by
    rw [Stmt.unnumbered, hn, map_eq_of_rel hu, FunctionDecl.listUnnumbered_eq_map,
      map_eq_of_forall₂ hds, ← FunctionDecl.listUnnumbered_eq_map, Stmt.unnumbered]
  callable hn hps hss := by
    rw [FunctionDecl.unnumbered, hn, list_eq_of_forall₂ hps,
      Stmt.listUnnumbered_eq_of_forall₂ hss, FunctionDecl.unnumbered]

/-- The tokens are the same, and so are the trees apart from their numbers. -/
def Likeness.unnumbered : Likeness where
  token := Eq
  name := Eq
  sign := Eq
  use u u' := u.unnumbered = u'.unnumbered
  word w w' := w.unnumbered = w'.unnumbered
  expr e e' := e.unnumbered = e'.unnumbered
  stmt s s' := s.unnumbered = s'.unnumbered
  decl d d' := d.unnumbered = d'.unnumbered
  kind_eq h := by rw [h]
  name_of_token h _ := by rw [h]
  sign_of_token h _ := by rw [h]
  exprs := exprLaws_unnumbered
  stmts := stmtLaws_unnumbered

/-- Positions in as many loops, in lists that end in end marks.  Before the second one,
    `earlier` were found besides. -/
structure ParseState.Beside (earlier : Array Diagnostic) (s s' : ParseState) : Prop where
  ending : s.ending.kind = .eof
  ending' : s'.ending.kind = .eof
  loops : s'.loops = s.loops
  faults : s'.faults = earlier ++ s.faults

/-- Positions before the same tokens. -/
structure ParseState.After (earlier : Array Diagnostic) (s s' : ParseState) : Prop
    extends ParseState.Beside earlier s s' where
  rest : s'.rest = s.rest
  mark : s'.ending = s.ending

variable {earlier : Array Diagnostic}

theorem ParseState.Beside.push {s s' : ParseState} (h : s.Beside earlier s') (d : Diagnostic) :
    s'.faults.push d = earlier ++ s.faults.push d := by
  rw [h.faults, Array.push_append]

theorem Parser.diagnostic_congr {t t' : Token} (cause : SyntaxFault) (h : t = t') :
    Parser.diagnostic t cause = Parser.diagnostic t' cause := by
  rw [h]

/-- Positions before the same tokens, the second one after `earlier`. -/
def Places.after (earlier : Array Diagnostic) : Places .unnumbered where
  here := ParseState.After earlier
  behind := ParseState.After earlier
  fault := Eq
  ending h := ⟨h.ending, h.ending'⟩
  heads {s s'} h := by
    rw [h.rest]
    cases s.rest.head? with
    | none => exact .none
    | some t => exact .some rfl
  ends h _ := h.mark.symm
  read h hs hs' _ := by
    rw [h.rest, hs] at hs'
    cases hs'
    exact ⟨⟨h.ending, h.ending', h.loops, h.faults⟩, rfl, h.mark⟩
  finish h hs hs' _ := by
    rw [h.rest, hs] at hs'
    cases hs'
    exact ⟨⟨h.ending, h.ending', h.loops, h.faults⟩, rfl, h.mark⟩
  diagnostic := @Parser.diagnostic_congr
  report {s s' d d'} h hd :=
    ⟨⟨h.ending, h.ending', h.loops, hd ▸ h.toBeside.push d⟩, h.rest, h.mark⟩
  number h := ⟨⟨h.ending, h.ending', h.loops, h.faults⟩, h.rest, h.mark⟩
  use _ hn := congrArg (Occurrence.mk 0) hn
  word _ hg := congrArg (Occurrence.mk 0) hg
  loops h := h.loops
  here_loops _ h := ⟨⟨h.ending, h.ending', rfl, h.faults⟩, h.rest, h.mark⟩
  behind_loops _ h := ⟨⟨h.ending, h.ending', rfl, h.faults⟩, h.rest, h.mark⟩
  otherwise h := .inl h
  inside _ _ _ _ _ := Iff.rfl
  recover {s s' d d'} h hd :=
    ⟨⟨h.ending, h.ending', h.loops, hd ▸ h.toBeside.push d⟩, congrArg Parser.afterFault h.rest,
      h.mark⟩

theorem Places.after_closed : (Places.after earlier).Closed := fun _ _ => Iff.rfl

namespace Parser

/-! ## Bounds -/

/-- Steps from one position that end in the same way end alike in all. -/
theorem Outcomes.eq {α : Type} {k left : Nat} {rel : α → α → Prop}
    (hrel : ∀ a a', rel a a' → a = a') {r r' : EStateM.Result Diagnostic ParseState α}
    (h : Outcomes Places.same ParseState.SameAs k left rel r r') : r = r' := by
  cases h with
  | ok ht ha _ => rw [ht.2, hrel _ _ ha]
  | error ht he _ => exact congrArg₂ EStateM.Result.error he ht.2

section

variable (x : Beyond) {s : ParseState} (hending : s.ending.kind = .eof) {bound bound' : Nat}
include hending

/-- Whatever is beyond the bounds, an expression is read before them. -/
theorem expressionWithin_eq (hbound : s.rest.length < bound) (hbound' : s.rest.length ≤ bound') :
    x.expressionWithin bound s = expression bound' s :=
  Outcomes.eq (fun _ _ => id) <| coupled_expression (L := .same) (C := .same) hbound
    (Nat.succ_le_succ hbound') s s ⟨hending, rfl⟩ (Nat.lt_succ_self _)

/-- So is a statement. -/
theorem statementWithin_eq (hbound : s.rest.length + 1 < bound)
    (hbound' : s.rest.length < bound') : x.statementWithin bound s = statement bound' s :=
  Outcomes.eq (fun _ _ => id) <| (coupled_statements (L := .same) (C := .same) hbound hbound').1
    s s ⟨hending, rfl⟩ (Nat.lt_succ_self _)

/-- So is a declaration. -/
theorem declarationWithin_eq (hrest : s.rest ≠ []) (hbound : s.rest.length + 1 < bound)
    (hbound' : s.rest.length < bound') : x.declarationWithin bound s = declaration bound' s :=
  Outcomes.eq (fun _ _ => option_eq_of_rel) <|
    (coupled_statements (L := .same) (C := .same) hbound hbound').2 s s ⟨⟨hending, rfl⟩, hrest⟩
      (Nat.lt_succ_self _)

/-- So is a program. -/
theorem programWithin_eq (hbound : s.rest.length + 1 < bound)
    (hbound' : s.rest.length < bound') : x.programWithin bound s = program bound' s :=
  Outcomes.eq (fun _ _ => list_eq_of_forall₂) <|
    coupled_program (L := .same) (C := .same) Places.same_closed hbound hbound' s s
      ⟨hending, rfl⟩ (Nat.lt_succ_self _)

end

/-! ## Two runs of the parser -/

variable {L : Likeness} {C : Places L} {n bound bound' : Nat}

/-- What the rules of the parser themselves do where a bound is used up. -/
instance : Inhabited Beyond where
  default := ⟨pure, fail .expression, fail .expression, recovering (fail .expression)⟩

theorem coupled_expressions (hbound : n ≤ bound + 1) (hbound' : n ≤ bound' + 1) :
    Coupled C C.here C.here 0 n L.expr (expression bound) (expression bound') := by
  intro s s' hs hlt
  rw [← expressionWithin_eq default (C.ending hs).1 hlt (by omega)]
  exact coupled_expression (Nat.le_refl n) hbound' s s' hs hlt

theorem coupled_declarations (hbound : n ≤ bound) (hbound' : n ≤ bound') :
    Coupled C C.Before C.behind 1 n (Option.Rel L.stmt) (declaration bound)
      (declaration bound') := by
  intro s s' hs hlt
  rw [← declarationWithin_eq default (C.ending hs.1).1 hs.2 (Nat.succ_lt_succ hlt) (by omega)]
  exact (coupled_statements (Nat.lt_succ_self n) hbound').2 s s' hs hlt

theorem coupled_programs (hclosed : C.Closed) (hbound : n ≤ bound) (hbound' : n ≤ bound') :
    Coupled C C.here C.here 0 n (List.Forall₂ L.stmt) (program bound) (program bound') := by
  intro s s' hs hlt
  rw [← programWithin_eq default (C.ending hs).1 (Nat.succ_lt_succ hlt) (by omega)]
  exact coupled_program hclosed (Nat.lt_succ_self n) hbound' s s' hs hlt

end Parser
end Lox
