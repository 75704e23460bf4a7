/-
  Lox.Proofs.Scoping.Agreement

  Resolver and run agree on scopes, in every session of texts that are resolved and
  added as they stand.

    * `Session.Fits` — between two texts: everything in the store fits the table, and
      numbers from the next one on are unused;
    * `Session.Begins` — the points where the run of a text begins;
    * `scopes_agree` — at every point that is reached from there the frames agree
      with the table.
-/
import Lox.Proofs.Grammar.Exact
import Lox.Proofs.Scoping.Blame
import Lox.Proofs.Scoping.Tables
import Lox.Proofs.Scoping.Wording
import Mathlib

namespace Lox

open RunM

/-! ## Accepted trees -/

namespace Parser

variable {α : Type} {p : Nat → Parser α}

/-- Numbers are only used up. -/
theorem nextId_le_runOn {P : Nat → Stretch → α → Prop} (hp : ∀ n, Reads n (p n) (P n))
    (tokens : List Token) (nextId : Nat) : nextId ≤ (runOn p tokens nextId).nextId := by
  have hstart : (ParseState.ofTokens tokens nextId).nextId = nextId := by
    unfold ParseState.ofTokens
    split <;> rfl
  have hreads := hp ((ParseState.ofTokens tokens nextId).rest.length + 1)
    (ParseState.ofTokens tokens nextId)
  unfold runOn
  dsimp only
  cases hrun : p ((ParseState.ofTokens tokens nextId).rest.length + 1)
      (ParseState.ofTokens tokens nextId) with
  | ok a s =>
    rw [hrun] at hreads
    exact hstart ▸ hreads.1.nextId
  | error e s =>
    rw [hrun] at hreads
    exact hstart ▸ hreads.nextId

/-- What was read where a rule succeeds on the tokens of a text. -/
theorem read_of_scan {P : Stretch → α → Prop} (hp : ∀ n, Reads n (p n) P) {source : String}
    {nextId : Nat} {a : α} (h : (runOn p (tokensOf (scan source)) nextId).result = .ok a) :
    ∃ read rest, (∀ t ∈ read, t ∈ tokensOf (scan source) ∧ t.kind ≠ .eof ∧ t.Spelled) ∧
      P ⟨0, read, rest, nextId, (runOn p (tokensOf (scan source)) nextId).nextId⟩ a := by
  obtain ⟨before, ending, htokens, hbefore⟩ := tokensOf_scan source
  rw [htokens] at h ⊢
  obtain ⟨read, s, hrun, hsplit, hread⟩ :=
    read_of_runOn (fun t ht => (hbefore t ht).1) rfl hp h
  refine ⟨read, s.rest, fun t ht => ?_, ?_⟩
  · have hmem : t ∈ before := by
      rw [hsplit]
      exact List.mem_append_left _ ht
    exact ⟨List.mem_append_left _ hmem, hbefore t hmem⟩
  · have hnext : (runOn p (before ++ [Token.endMark ending]) nextId).nextId = s.nextId := by
      unfold runOn
      rw [ParseState.ofTokens_append (fun t ht => (hbefore t ht).1) rfl]
      simp only [hrun]
    rw [hnext]
    exact hread

end Parser

theorem parseProgram_fresh {source : String} {nextId : Nat} {p : List Stmt}
    (h : (parseProgram (tokensOf (scan source)) nextId).result = .ok p) :
    Stmt.ListProper p ∧
      Fresh (Stmt.listUses p) nextId (parseProgram (tokensOf (scan source)) nextId).nextId := by
  obtain ⟨read, rest, hspelled, hread, -⟩ := Parser.read_of_scan Parser.reads_program h
  exact ⟨hread.derives.proper fun t ht => (hspelled t ht).2.2, hread.fresh⟩

theorem parseExpression_fresh {source : String} {nextId : Nat} {e : Expr}
    (h : (parseExpression (tokensOf (scan source)) nextId).result = .ok e) :
    e.Proper ∧ Fresh e.uses nextId (parseExpression (tokensOf (scan source)) nextId).nextId := by
  obtain ⟨read, rest, hspelled, hread⟩ := Parser.read_of_scan
    (fun n => (Parser.reads_expression n).shorter (Nat.le_succ n)) h
  exact ⟨hread.part.derives.proper fun t ht => (hspelled t ht).2.2, hread.part.fresh⟩

/-- At the top level nothing is put into a scope. -/
theorem Stmt.ListScoped.top {T : Table} {n : Nat} {ss : List Stmt}
    (h : Stmt.ListScoped T n [] ss) : ∀ s ∈ ss, s.Scoped T n [] := by
  induction ss with
  | nil => nofun
  | cons s ss ih =>
    have hafter : s.after [] = [] := by cases s <;> rfl
    obtain ⟨hs, hss⟩ := h
    rw [hafter] at hss
    intro t ht
    rcases List.mem_cons.mp ht with rfl | hmem
    · exact hs
    · exact ih hss t hmem

/-! ## Sessions -/

/-- A text that is resolved and added as it stands. -/
def SessionInput.plain (source : String) (mode : SessionMode) : SessionInput :=
  { source, mode, resolved := true, shift := 0 }

namespace Session

/-- Between two texts everything fits, and no number from the next one on was used. -/
structure Fits (s : Session) : Prop where
  machine : s.machine.Fits s.machine.table s.nextId
  env : s.machine.env = Store.globals
  unused : ∀ id, s.nextId ≤ id → s.machine.table[id]? = none

theorem fits_start (out : Sink) (clock : Nat → Option Float) : Fits ⟨.start out clock, 0⟩ := by
  have hempty : Store.empty.Fits ∅ 0 := by
    refine ⟨fun f name v hv => ?_, fun i name v hv => ?_, fun i name method hmethod => ?_⟩
    · unfold Store.own? Store.empty at hv
      split at hv
      · next frame hframe =>
        rw [List.getElem?_toArray, List.getElem?_singleton] at hframe
        split at hframe
        · cases hframe
          cases hv
        · cases hframe
      · cases hv
    · simp [Store.field?, Store.empty] at hv
    · simp [Store.method?, Store.empty] at hmethod
  have hclock : Lexeme.Ordinary ⟨"clock", 0⟩ := ⟨by decide, by decide⟩
  exact ⟨⟨rfl, hempty.define trivial (hclock.suits _)⟩, rfl, fun _ _ => Std.TreeMap.getElem?_emptyc⟩

/-- The machine with the table of an accepted text. -/
def withTable (s : Session) (A : Table) : Machine :=
  { s.machine with table := s.machine.table.merge (A.shift 0) }

variable {s : Session} {uses : List Use} {next : Nat} {A : Table}

/-- With the table of its own uses added, a machine goes on to fit. -/
theorem Fits.withTable (h : s.Fits) (hfresh : Fresh uses s.nextId next)
    (hA : ∀ id, (∀ use ∈ uses, use.occurrence.id ≠ id) → A[id]? = none) :
    (s.withTable A).Fits (s.withTable A).table next ∧
      (∀ id, next ≤ id → (s.withTable A).table[id]? = none) ∧
      ∀ use ∈ uses, (s.withTable A).table[use.occurrence.id]? = A[use.occurrence.id]? := by
  have htable (id : Nat) : (s.withTable A).table[id]? = A[id]?.or s.machine.table[id]? := by
    rw [Session.withTable, Table.getElem?_merge, Table.getElem?_shift_zero]
  refine ⟨h.machine.extend ⟨hfresh.le, fun id hid => ?_⟩, fun id hid => ?_, fun use huse => ?_⟩
  · refine (htable id).trans ?_
    rw [hA id fun use huse heq => ?_, Option.none_or]
    have := (hfresh.within use huse).1
    omega
  · rw [htable, hA id fun use huse heq => ?_, Option.none_or]
    · exact h.unused id (Nat.le_trans hfresh.le hid)
    · have := (hfresh.within use huse).2
      omega
  · rw [htable, h.unused _ (hfresh.within use huse).1, Option.or_none]

/-! ## Runs of a text -/

/-- A text gets through scanning, parsing and resolving, with its tree and table. -/
structure Accepts {α : Type} (s : Session) (source : String)
    (parse : List Token → Nat → Parser.Parsed α) (resolve : α → Except (List Diagnostic) Table)
    (tree : α) (A : Table) : Prop where
  scanned : faultsOf (scan source) = []
  parsed : (parse (tokensOf (scan source)) s.nextId).result = .ok tree
  resolved : resolve tree = .ok A

/-- The points where the work on a text begins: a program, each of several statements
    behind those before it, or an expression. -/
inductive Begins (fuel : Nat) (source : String) (s : Session) : SessionMode → Point → Prop
  | interpret {program : List Stmt} {A : Table} :
      s.Accepts source parseProgram resolveProgram program A →
      Begins fuel source s .interpret ⟨fuel, .stmts program, s.withTable A⟩
  | execute {done rest : List Stmt} {statement : Stmt} {A : Table} {ends m} :
      s.Accepts source parseProgram resolveProgram (done ++ statement :: rest) A →
      executeEach fuel done (s.withTable A) = .ok ends m →
      Begins fuel source s .execute ⟨fuel, .stmt statement, m⟩
  | evaluate {e : Expr} {A : Table} :
      s.Accepts source parseExpression resolveExpression e A →
      Begins fuel source s .evaluate ⟨fuel, .expr e, s.withTable A⟩

/-- The program of an accepted text is scoped at the top level. -/
theorem Fits.program (h : s.Fits) {source : String} {program : List Stmt} {A : Table}
    (haccepts : s.Accepts source parseProgram resolveProgram program A) :
    ∃ next, next = (parseProgram (tokensOf (scan source)) s.nextId).nextId ∧
      (s.withTable A).Fits (s.withTable A).table next ∧
      (∀ id, next ≤ id → (s.withTable A).table[id]? = none) ∧
      Stmt.ListScoped (s.withTable A).table next [] program := by
  obtain ⟨hproper, hfresh⟩ := parseProgram_fresh haccepts.parsed
  have hunused (id : Nat) (hid : ∀ use ∈ Stmt.listUses program, use.occurrence.id ≠ id) :
      A[id]? = none :=
    (Stmt.listResolves program hproper : Resolves A 0 _ _ _ _ _).unused haccepts.resolved hid
  obtain ⟨hfits, hnone, hsame⟩ := h.withTable hfresh hunused
  exact ⟨_, rfl, hfits, hnone, (Stmt.listResolves program hproper).of_result Scope.settled_nil
    haccepts.resolved hfresh hsame⟩

/-- The expression of an accepted text is scoped at the top level. -/
theorem Fits.expression (h : s.Fits) {source : String} {e : Expr} {A : Table}
    (haccepts : s.Accepts source parseExpression resolveExpression e A) :
    ∃ next, next = (parseExpression (tokensOf (scan source)) s.nextId).nextId ∧
      (s.withTable A).Fits (s.withTable A).table next ∧
      (∀ id, next ≤ id → (s.withTable A).table[id]? = none) ∧
      e.Scoped (s.withTable A).table next [] := by
  obtain ⟨hproper, hfresh⟩ := parseExpression_fresh haccepts.parsed
  have hunused (id : Nat) (hid : ∀ use ∈ e.uses, use.occurrence.id ≠ id) : A[id]? = none :=
    (Expr.resolves e hproper : Resolves A 0 _ _ _ _ _).unused haccepts.resolved hid
  obtain ⟨hfits, hnone, hsame⟩ := h.withTable hfresh hunused
  exact ⟨_, rfl, hfits, hnone, (Expr.resolves e hproper).of_result Scope.settled_nil.around
    haccepts.resolved hfresh hsame⟩

variable {T : Table} {n : Nat} {m : Machine} (hm : m.Fits T n) (henv : m.env = Store.globals)
include hm henv

theorem sound_execute (fuel : Nat) {st : Stmt} (hst : st.Scoped T n []) :
    Sound T n (execute fuel st) m fun _ _ => True :=
  (Stmt.sound (invoke_sound fuel) fuel st hst hm henv).mono fun _ _ _ _ => trivial

theorem sound_interpret (fuel : Nat) {program : List Stmt}
    (hprogram : Stmt.ListScoped T n [] program) :
    Sound T n (interpret fuel program) m fun _ _ => True :=
  (Stmt.listSound (invoke_sound fuel) fuel program hprogram hm henv).bind fun _ _ _ hm' _ =>
    .pure hm' trivial

theorem sound_evaluate (fuel : Nat) {e : Expr} (he : e.Scoped T n []) :
    Sound T n (evaluate fuel e) m fun _ _ => True :=
  (Expr.sound (invoke_sound fuel) e he hm henv).mono fun _ _ _ _ => trivial

theorem sound_attempt (fuel : Nat) {st : Stmt} (hst : st.Scoped T n []) :
    Sound T n (attempt fuel st) m fun _ _ => True := by
  have hsound := sound_execute hm henv fuel hst
  unfold Sound at hsound ⊢
  rw [attempt_eq]
  cases hrun : execute fuel st m with
  | ok flow m' =>
    rw [hrun] at hsound
    exact ⟨hsound.1, hsound.2.1, trivial⟩
  | error halt m' =>
    rw [hrun] at hsound
    cases halt with
    | error e => exact ⟨hsound.1, hsound.2.1, trivial⟩
    | _ => exact hsound

/-- At the top level a statement goes well whatever became of those before it. -/
theorem sound_executeEach (fuel : Nat) {ss : List Stmt} (hss : ∀ st ∈ ss, st.Scoped T n []) :
    Sound T n (executeEach fuel ss) m fun _ _ => True := by
  induction ss generalizing m with
  | nil => exact .pure hm trivial
  | cons st ss ih =>
    refine (sound_attempt hm henv fuel (hss st List.mem_cons_self)).bind fun _ m₁ hg hm₁ _ => ?_
    refine (ih hm₁ (hg.env.trans henv) fun st hst => hss st (List.mem_cons_of_mem _ hst)).bind
      fun _ m₂ _ hm₂ _ => .pure hm₂ trivial

omit hm henv in
/-- A session that acts on the tree of a text goes on to fit. -/
theorem Fits.act {next : Nat} {action : RunM SessionAnswer} (h : s.Fits)
    (hunused : ∀ id, next ≤ id → (s.withTable A).table[id]? = none)
    (haction : Sound (s.withTable A).table next action (s.withTable A) fun _ _ => True) :
    (Session.act { s with nextId := next } (A.shift 0) action).2.Fits := by
  have hrun : (do addTable (A.shift 0); action) s.machine = action (s.withTable A) := rfl
  have hafter (m' : Machine) (hgrown : (s.withTable A).Grown m')
      (hm' : m'.Fits (s.withTable A).table next) : Fits ⟨m', next⟩ := by
    refine ⟨?_, hgrown.env.trans h.env, fun id hid => ?_⟩
    · rw [hm'.table]
      exact hm'
    · show m'.table[id]? = none
      rw [hm'.table]
      exact hunused id hid
  unfold Session.act
  unfold Sound at haction
  rw [hrun]
  cases hend : action (s.withTable A) with
  | ok answer m' =>
    rw [hend] at haction
    exact hafter m' haction.1 haction.2.1
  | error halt m' =>
    rw [hend] at haction
    cases halt <;> exact hafter m' haction.1 haction.2.1

omit hm henv in
theorem Fits.submit {α : Type} (h : s.Fits) (source : String) (mode : SessionMode)
    {parse : List Token → Nat → Parser.Parsed α} {resolve : α → Except (List Diagnostic) Table}
    {action : α → RunM SessionAnswer}
    (hnext : s.nextId ≤ (parse (tokensOf (scan source)) s.nextId).nextId)
    (haccepted : ∀ tree A next, next = (parse (tokensOf (scan source)) s.nextId).nextId →
      s.Accepts source parse resolve tree A →
      (s.withTable A).Fits (s.withTable A).table next ∧
        (∀ id, next ≤ id → (s.withTable A).table[id]? = none) ∧
        Sound (s.withTable A).table next (action tree) (s.withTable A) fun _ _ => True) :
    (s.submit (.plain source mode) parse resolve action).2.Fits := by
  have hstill : Fits { s with nextId := (parse (tokensOf (scan source)) s.nextId).nextId } :=
    ⟨h.machine.extend ⟨hnext, fun _ _ => rfl⟩, h.env,
      fun id hid => h.unused id (Nat.le_trans hnext hid)⟩
  unfold Session.submit
  dsimp only
  split
  · next tree hscanned hparsed =>
    cases hresolved : resolve tree with
    | error faults => exact hstill
    | ok A =>
      obtain ⟨-, hunused, haction⟩ :=
        haccepted tree A _ rfl ⟨hscanned, hparsed, hresolved⟩
      exact h.act hunused haction
  · exact hstill
  · exact hstill

omit hm henv in
/-- Every text keeps a session fitting. -/
theorem Fits.step (h : s.Fits) (fuel : Nat) (source : String) (mode : SessionMode) :
    (s.step fuel (.plain source mode)).2.Fits := by
  cases mode with
  | interpret =>
    refine h.submit source _ (Parser.nextId_le_runOn Parser.reads_program _ _) ?_
    rintro program A _ rfl haccepts
    obtain ⟨_, rfl, hfits, hunused, hscoped⟩ := h.program haccepts
    exact ⟨hfits, hunused, (sound_interpret hfits h.env fuel hscoped).bind fun _ _ _ hm' _ =>
      .pure hm' trivial⟩
  | execute =>
    refine h.submit source _ (Parser.nextId_le_runOn Parser.reads_program _ _) ?_
    rintro program A _ rfl haccepts
    obtain ⟨_, rfl, hfits, hunused, hscoped⟩ := h.program haccepts
    exact ⟨hfits, hunused, (sound_executeEach hfits h.env fuel hscoped.top).bind fun _ _ _ hm' _ =>
      .pure hm' trivial⟩
  | evaluate =>
    refine h.submit source _ (Parser.nextId_le_runOn
      (fun n => (Parser.reads_expression n).shorter (Nat.le_succ n)) _ _) ?_
    rintro e A _ rfl haccepts
    obtain ⟨_, rfl, hfits, hunused, hscoped⟩ := h.expression haccepts
    exact ⟨hfits, hunused, (sound_evaluate hfits h.env fuel hscoped).bind fun _ _ _ hm' _ =>
      .pure hm' trivial⟩

omit hm henv in
/-- The work on a text begins outside all scopes, where it fits. -/
theorem Fits.begins_outside (h : s.Fits) {fuel : Nat} {source : String} {mode : SessionMode}
    {p : Point} (hp : s.Begins fuel source mode p) : ∃ T n, p.FitsIn T n [] := by
  cases hp with
  | interpret haccepts =>
    obtain ⟨next, -, hfits, -, hscoped⟩ := h.program haccepts
    exact ⟨_, next, hfits, h.env, hscoped⟩
  | execute haccepts hdone =>
    obtain ⟨next, -, hfits, -, hscoped⟩ := h.program haccepts
    have hall := hscoped.top
    have hsound := sound_executeEach hfits h.env fuel fun st hst =>
      hall st (List.mem_append_left _ hst)
    obtain ⟨hgrown, hm', -⟩ := hsound.ok hdone
    exact ⟨_, next, hm', hgrown.env.trans h.env,
      hall _ (List.mem_append_right _ List.mem_cons_self)⟩
  | evaluate haccepts =>
    obtain ⟨next, -, hfits, -, hscoped⟩ := h.expression haccepts
    exact ⟨_, next, hfits, h.env, hscoped⟩

omit hm henv in
/-- The work on a text begins at fitting points. -/
theorem Fits.begins (h : s.Fits) {fuel : Nat} {source : String} {mode : SessionMode} {p : Point}
    (hp : s.Begins fuel source mode p) : ∃ T n, p.Fits T n := by
  obtain ⟨T, n, hin⟩ := h.begins_outside hp
  exact ⟨T, n, Point.fits_iff.mpr ⟨[], hin⟩⟩

/-- The session after several texts, each with a bound and a mode of its own. -/
def afterTexts (out : Sink) (clock : Nat → Option Float)
    (texts : List (Nat × String × SessionMode)) : Session :=
  texts.foldl (fun s text => (s.step text.1 (.plain text.2.1 text.2.2)).2) ⟨.start out clock, 0⟩

omit hm henv in
theorem fits_afterTexts (out : Sink) (clock : Nat → Option Float)
    (texts : List (Nat × String × SessionMode)) : (afterTexts out clock texts).Fits := by
  have goOn (s : Session) (h : s.Fits) :
      (texts.foldl (fun s text => (s.step text.1 (.plain text.2.1 text.2.2)).2) s).Fits := by
    induction texts generalizing s with
    | nil => exact h
    | cons text texts ih => exact ih _ (h.step text.1 text.2.1 text.2.2)
  exact goOn _ (fits_start out clock)

end Session

/-! ## Main statement -/

/-- A task of a text fails at the point. -/
def Point.Fails (p : Point) (e : RuntimeError) : Prop :=
  match p.task with
  | .expr expr => ∃ m, expr.eval (invoke p.bound) p.machine = .error (.error e) m
  | .stmt s => ∃ m, s.exec (invoke p.bound) p.bound p.machine = .error (.error e) m
  | .stmts ss => ∃ m, Stmt.listExec (invoke p.bound) p.bound ss p.machine = .error (.error e) m
  | _ => False

theorem Point.Fails.blames {p : Point} {e : RuntimeError} (h : p.Fails e)
    (hfault : e.fault.Naming) : p.Blames e := by
  obtain ⟨k, task, m⟩ := p
  cases task with
  | expr expr => exact Expr.blames (callsBlame k) expr hfault h.choose_spec
  | stmt s => exact Stmt.blames (callsBlame k) s hfault h.choose_spec
  | stmts ss => exact Stmt.listBlames (callsBlame k) ss hfault h.choose_spec
  | _ => exact h.elim

/-- A task that fits never fails by one of the faults that are excluded before: its
    operators are operators of the grammar, and its `super` finds what it needs. -/
theorem Point.Fails.not_internal {p : Point} {e : RuntimeError} (h : p.Fails e) {T : Table}
    {n : Nat} (hfits : p.Fits T n) : ¬e.fault.Internal := by
  obtain ⟨k, task, m⟩ := p
  obtain ⟨hm, scopes, hchain, htask⟩ := hfits
  cases task with
  | expr expr =>
    obtain ⟨m', hrun⟩ := h
    exact ((Expr.sound (invoke_sound k) expr htask hm hchain).error hrun).2.2 e rfl
  | stmt s =>
    obtain ⟨m', hrun⟩ := h
    exact ((Stmt.sound (invoke_sound k) k s htask hm hchain).error hrun).2.2 e rfl
  | stmts ss =>
    obtain ⟨m', hrun⟩ := h
    exact ((Stmt.listSound (invoke_sound k) k ss htask hm hchain).error hrun).2.2 e rfl
  | _ => exact h.elim

/-- Where the frames agree with the table, only a use that the table does not have can
    fail, and then a variable is undefined. -/
theorem Machine.Agrees.misses {m : Machine} {use : Use} {e : RuntimeError} (h : m.Agrees use)
    (hmisses : m.Misses use e) :
    m.table[use.occurrence.id]? = none ∧ e = Store.undefined use.occurrence.name := by
  have onRead (hkind : use.kind = .read ∨ use.kind = .this)
      (hlook : m.lookUp use.occurrence = .error e) :
      m.table[use.occurrence.id]? = none ∧ e = Store.undefined use.occurrence.name := by
    unfold Machine.lookUp at hlook
    cases hd : m.table[use.occurrence.id]? with
    | some d =>
      obtain ⟨v, -, hv⟩ := h.bound hkind d hd
      simp [hd, hv] at hlook
    | none =>
      refine ⟨rfl, ?_⟩
      simp only [hd, Store.get] at hlook
      split at hlook
      · cases hlook
      · cases hlook
        rfl
  unfold Machine.Misses at hmisses
  cases hkind : use.kind with
  | read =>
    rw [hkind] at hmisses
    exact onRead (.inl hkind) hmisses
  | this =>
    rw [hkind] at hmisses
    exact onRead (.inr hkind) hmisses
  | assign =>
    rw [hkind] at hmisses
    obtain ⟨htarget, rfl⟩ := hmisses
    refine ⟨?_, rfl⟩
    cases hd : m.table[use.occurrence.id]? with
    | none => rfl
    | some d =>
      obtain ⟨g, hg, -⟩ := h.frame d hd
      simp [target?, hd, hg] at htarget
  | super =>
    rw [hkind] at hmisses
    obtain ⟨d, parent, i, -, -, -, hbinding⟩ := h.super hkind
    obtain ⟨m', hmisses⟩ := hmisses
    rw [hbinding] at hmisses
    cases hmisses

/-- The messages of states that a run should never come to. -/
def internalMessages : List String :=
  ["Invalid 'super' binding.", "Can't use 'super' outside of a class.", "Invalid unary operator.",
    "Invalid binary operator."]

/-- Only the faults that are excluded before a program runs have such messages. -/
theorem RuntimeFault.message_not_internal {fault : RuntimeFault} (hfault : ¬fault.Internal) :
    fault.message ∉ internalMessages := by
  -- Messages with a name or a number in them begin with other letters.
  have hletter : ∀ text ∈ internalMessages,
      text.toList.head? = some 'I' ∨ text.toList.head? = some 'C' := by decide
  have other {text : String} {c : Char} (h : text.toList.head? = some c) (hI : c ≠ 'I')
      (hC : c ≠ 'C') : text ∉ internalMessages := by
    intro hmem
    rcases hletter text hmem with heq | heq <;> rw [h] at heq <;> cases heq
    · exact hI rfl
    · exact hC rfl
  have front {start text : String} {c : Char} (h : start.toList.head? = some c) :
      (start ++ text).toList.head? = some c := by
    rw [String.toList_append, List.head?_append, h]
    rfl
  cases fault with
  | invalidUnaryOperator => exact absurd trivial hfault
  | invalidBinaryOperator => exact absurd trivial hfault
  | superUnresolved => exact absurd trivial hfault
  | superUnbound => exact absurd trivial hfault
  | wrongArity expected got =>
    exact other (front (front (front (front (by decide : "Expected ".toList.head? = some 'E')))))
      (by decide) (by decide)
  | undefinedVariable name =>
    exact other (front (front (by decide : "Undefined variable '".toList.head? = some 'U')))
      (by decide) (by decide)
  | undefinedProperty name =>
    exact other (front (front (by decide : "Undefined property '".toList.head? = some 'U')))
      (by decide) (by decide)
  | _ => decide

/-- In every session of texts that are resolved and added as they stand, and at every
    point that the work on a further text comes to, the frames agree with the table on
    the occurrence that is looked up there.  So no look-up at a recorded distance fails;
    a variable that is undefined is one that the table does not have; and no run ends
    with one of the internal messages. -/
theorem scopes_agree (out : Sink) (clock : Nat → Option Float)
    (texts : List (Nat × String × SessionMode)) (fuel : Nat) (source : String)
    (mode : SessionMode) {p : Point}
    (hp : (Session.afterTexts out clock texts).Begins fuel source mode p) :
    (∀ k use m, p.Reaches ⟨k, .look use, m⟩ → m.Agrees use ∧
      ∀ e, m.Misses use e → m.table[use.occurrence.id]? = none) ∧
    (∀ e, p.Fails e → e.fault.message ∉ internalMessages ∧
      ∀ name, e.fault = .undefinedVariable name → ∃ k use m,
        p.Reaches ⟨k, .look use, m⟩ ∧ m.table[use.occurrence.id]? = none ∧
          use.occurrence.name = ⟨name, e.line⟩) := by
  obtain ⟨T, n, hfits⟩ := (Session.fits_afterTexts out clock texts).begins hp
  have hagrees (k : Nat) (use : Use) (m : Machine) (hreaches : p.Reaches ⟨k, .look use, m⟩) :
      m.Agrees use := by
    obtain ⟨hm, scopes, hchain, hlook⟩ := hfits.reaches hreaches
    exact hlook.agrees hm hchain
  have hblamed (e : RuntimeError) (hfails : p.Fails e) (hnaming : e.fault.Naming) : ∃ k use m,
      p.Reaches ⟨k, .look use, m⟩ ∧ m.table[use.occurrence.id]? = none ∧
        e = Store.undefined use.occurrence.name := by
    obtain ⟨k, use, m, hreaches, hmisses⟩ := hfails.blames hnaming
    exact ⟨k, use, m, hreaches, (hagrees k use m hreaches).misses hmisses⟩
  refine ⟨fun k use m hreaches => ?_, fun e hfails => ⟨?_, fun name hname => ?_⟩⟩
  · exact ⟨hagrees k use m hreaches, fun e hmisses =>
      ((hagrees k use m hreaches).misses hmisses).1⟩
  · exact RuntimeFault.message_not_internal (hfails.not_internal hfits)
  · obtain ⟨k, use, m, hreaches, hnone, rfl⟩ := hblamed e hfails (by rw [hname]; trivial)
    refine ⟨k, use, m, hreaches, hnone, ?_⟩
    cases hname
    rfl

/-- The variable of a block is read at distance zero. -/
theorem scopes_agree_block : ∃ (p : Point) (k : Nat) (use : Use) (m : Machine),
    (Session.afterTexts .unlimited (fun _ => none) []).Begins 0 "\x7bvar a;print a;\x7d"
        .interpret p ∧
      p.Reaches ⟨k, .look use, m⟩ ∧ use.occurrence.name.text = "a" ∧
      m.table[use.occurrence.id]? = some 0 ∧ m.Agrees use := by
  have haccepts : ∃ A, (Session.afterTexts .unlimited (fun _ => none) []).Accepts
      "\x7bvar a;print a;\x7d" parseProgram resolveProgram
      [.block [.var ⟨"a", 1⟩ none, .print (.name ⟨0, ⟨"a", 1⟩⟩)]] A ∧ A[0]? = some 0 :=
    ⟨_, ⟨by cbv, by cbv, rfl⟩, by cbv⟩
  obtain ⟨A, haccepts, hA⟩ := haccepts
  have hbegins := @Session.Begins.interpret 0 _ _ _ _ haccepts
  have hreaches : Point.Reaches ⟨0, .stmts [.block [.var ⟨"a", 1⟩ none,
      .print (.name ⟨0, ⟨"a", 1⟩⟩)]],
      (Session.afterTexts .unlimited (fun _ => none) []).withTable A⟩ _ :=
    .head .statement <| .head .block <| .head (.statements rfl) <| .head .statement <|
      .head .print <| .single .name
  refine ⟨_, _, _, _, hbegins, hreaches, rfl, ?_, ?_⟩
  · show (Table.merge ∅ (A.shift 0))[0]? = some 0
    rw [Table.getElem?_merge, Table.getElem?_shift_zero, hA]
    rfl
  · exact ((scopes_agree .unlimited (fun _ => none) [] 0 _ _ hbegins).1 _ _ _ hreaches).1

end Lox
