/-
  Lox.Proofs.Pieces

  A program that is resolved and run in two pieces does what it does as a whole.

    * `Code.ofUses` — the functions that use certain occurrences only;
      `Session.Reached.numbered` — the functions of a session use occurrences that were
      numbered already;
    * `Machine.SameBut` — two machines that differ in their tables only, and there for
      occurrences that no function uses;
    * `interpret_sameEnd` — a program runs in the same way on both;
    * `pieces_run_as_whole` — the main statement.

  While the first piece runs, no function knows an occurrence of the second one; so it
  makes no difference whether the distances of the second piece are there already.
-/
import Lox.Proofs.Flow.Placement

namespace Lox

open RunM

/-! ## Functions by their uses -/

/-- The functions all of whose uses are of allowed occurrences. -/
def Code.ofUses (allowed : Nat → Prop) : Code :=
  ⟨fun d => ∀ use ∈ d.uses, allowed use.occurrence.id, allowed, True⟩

theorem FunctionDecl.mem_listUses {use : Use} {d : FunctionDecl} {ds : List FunctionDecl}
    (huse : use ∈ d.uses) (hd : d ∈ ds) : use ∈ FunctionDecl.listUses ds := by
  induction ds with
  | nil => exact absurd hd List.not_mem_nil
  | cons other ds ih =>
    rcases List.mem_cons.mp hd with rfl | hmem
    · exact List.mem_append_left _ huse
    · exact List.mem_append_right _ (ih hmem)

variable {allowed : Nat → Prop}

mutual

/-- A statement belongs to the code by the uses in it. -/
theorem Stmt.within_ofUses (s : Stmt) (h : (Code.ofUses allowed).Uses s.uses) :
    s.Within (.ofUses allowed) := by
  match s with
  | .expression _ | .print _ | .var _ _ | .return _ _ | .function _ => exact h
  | .break _ => trivial
  | .block body => exact Stmt.listWithin_ofUses body h
  | .ifElse condition yes none =>
    exact ⟨Code.Uses.left h, yes.within_ofUses (Code.Uses.right h)⟩
  | .ifElse condition yes (some no) =>
    have hfirst := Code.Uses.left h
    exact ⟨Code.Uses.left hfirst, yes.within_ofUses (Code.Uses.right hfirst),
      no.within_ofUses (Code.Uses.right h)⟩
  | .while condition body =>
    exact ⟨trivial, Code.Uses.left h, body.within_ofUses (Code.Uses.right h)⟩
  | .class _ superclass methods =>
    exact ⟨Code.Uses.left h, fun d hd use huse =>
      Code.Uses.right h use (FunctionDecl.mem_listUses huse hd)⟩

theorem Stmt.listWithin_ofUses (ss : List Stmt)
    (h : (Code.ofUses allowed).Uses (Stmt.listUses ss)) :
    Stmt.ListWithin (.ofUses allowed) ss := by
  match ss with
  | [] => trivial
  | s :: ss =>
    exact ⟨s.within_ofUses (Code.Uses.left h), Stmt.listWithin_ofUses ss (Code.Uses.right h)⟩

end

theorem Code.closed_ofUses : (Code.ofUses allowed).Closed := by
  rintro ⟨name, parameters, body⟩ h
  exact Stmt.listWithin_ofUses body h

theorem Store.Of.weaken {allowed' : Nat → Prop} (hle : ∀ id, allowed id → allowed' id) {s : Store}
    (h : s.Of (.ofUses allowed)) : s.Of (.ofUses allowed') :=
  h.mono fun d (hd : ∀ use ∈ d.uses, allowed use.occurrence.id) use huse => hle _ (hd use huse)

/-! ## Functions of a session -/

namespace Session

theorem nextId_step (fuel : Nat) (input : SessionInput) (s : Session) :
    (s.step fuel input).2.nextId =
      if input.mode = .evaluate then
        (parseExpression (tokensOf (scan input.source)) s.nextId).nextId
      else (parseProgram (tokensOf (scan input.source)) s.nextId).nextId := by
  have acted (s : Session) (table : Table) (action : RunM SessionAnswer) :
      (s.act table action).2.nextId = s.nextId := by
    unfold act
    split <;> rfl
  have submitted {α : Type} (parse : List Token → Nat → Parser.Parsed α)
      (resolve : α → Except (List Diagnostic) Table) (action : α → RunM SessionAnswer) :
      (s.submit input parse resolve action).2.nextId =
        (parse (tokensOf (scan input.source)) s.nextId).nextId := by
    unfold submit
    dsimp only
    split
    · split
      · rfl
      · exact acted _ _ _
    · rfl
    · rfl
  unfold step
  split
  · next hmode => rw [submitted, hmode, if_neg nofun]
  · next hmode => rw [submitted, hmode, if_neg nofun]
  · next hmode => rw [submitted, hmode, if_pos rfl]

/-- Numbers are used up, never given back. -/
theorem nextId_le_step (fuel : Nat) (input : SessionInput) (s : Session) :
    s.nextId ≤ (s.step fuel input).2.nextId := by
  rw [nextId_step]
  split
  · exact Parser.nextId_le_runOn (fun n => (Parser.reads_expression n).shorter (Nat.le_succ n)) _ _
  · exact Parser.nextId_le_runOn Parser.reads_program _ _

/-- No function of a session uses an occurrence that has no number yet. -/
theorem Reached.numbered {s : Session} (h : s.Reached) :
    s.machine.store.Of (.ofUses (· < s.nextId)) := by
  induction h with
  | start out clock => exact Store.of_start _ out clock
  | @step s fuel input _ ih =>
    have hnext := nextId_step fuel input s
    have hle := nextId_le_step fuel input s
    have hstore := ih.weaken fun id (hid : id < s.nextId) => Nat.lt_of_lt_of_le hid hle
    -- The numbers of a text end where those of the session go on.
    refine of_step Code.closed_ofUses hstore fuel ⟨fun program hparsed hmode => ?_,
      fun e hparsed hmode => ?_⟩
    · rw [if_neg hmode] at hnext
      rw [hnext]
      exact Stmt.listWithin_ofUses program fun use huse =>
        ((parseProgram_fresh hparsed).2.within use huse).2
    · rw [if_pos hmode] at hnext
      rw [hnext]
      exact fun use huse => ((parseExpression_fresh hparsed).2.within use huse).2

end Session

/-! ## Machines with different tables -/

/-- Two machines are the same but for the tables, and these agree where it is allowed. -/
structure Machine.SameBut (allowed : Nat → Prop) (m m' : Machine) : Prop where
  same : m' = { m with table := m'.table }
  table : ∀ id, allowed id → m'.table[id]? = m.table[id]?

theorem Machine.SameBut.symm {m m' : Machine} (h : m.SameBut allowed m') :
    m'.SameBut allowed m := by
  refine ⟨?_, fun id hid => (h.table id hid).symm⟩
  rw [h.same]

/-- The end of a run, with another table. -/
def RunM.retabled {α : Type} (T : Table) :
    EStateM.Result Halt Machine α → EStateM.Result Halt Machine α
  | .ok a n => .ok a { n with table := T }
  | .error halt n => .error halt { n with table := T }

theorem Machine.SameBut.together {m m' : Machine} (h : m.SameBut allowed m')
    (hm : m.store.Of (.ofUses allowed)) :
    m.Together (.whole (.ofUses allowed) Code.closed_ofUses) m.depth m' := by
  obtain ⟨hsame, htable⟩ := h
  have hwithin : m.Within (.whole (.ofUses allowed) Code.closed_ofUses) :=
    ⟨hm.within, fun _ => trivial, fun _ _ => trivial⟩
  rw [hsame]
  exact ⟨⟨hwithin, rfl, rfl, rfl, rfl, htable, .refl _⟩, rfl, trivial, rfl⟩

/-- What two actions on the whole store lead to differs in the tables only. -/
theorem Machine.Follows.eq_withTable {C : Code} {hC : C.Closed} {m m' n n' : Machine}
    (h : m.Follows (.whole C hC) m' n n') (henv : m'.env = m.env) :
    n' = { n with table := m'.table } := by
  have hstore : n'.store = n.store :=
    h.alike.alike.eq (fun _ hf => absurd trivial hf) fun _ hi => absurd trivial hi
  have henv' : n'.env = n.env := h.second.env.trans (henv.trans h.first.env.symm)
  have htable := h.second.table
  obtain ⟨-, hdepth, hclock, hticks, hout, -, -⟩ := h.alike
  cases n
  cases n'
  cases hstore
  cases henv'
  cases hdepth
  cases hclock
  cases hticks
  cases hout
  cases htable
  rfl

/-- A run that came to an end of its own. -/
theorem RunM.ended_retabled {α : Type} {T : Table} {r : EStateM.Result Halt Machine α} :
    RunM.Ended (RunM.retabled T r) ↔ RunM.Ended r := by
  cases r with
  | ok a n => exact Iff.rfl
  | error halt n => cases halt <;> exact Iff.rfl

section

variable {m m' : Machine} (h : m.SameBut allowed m') (hm : m.store.Of (.ofUses allowed))
  {program : List Stmt} (hprogram : (Code.ofUses allowed).Uses (Stmt.listUses program)) {fuel : Nat}
include h hm hprogram

/-- A program runs in the same way on machines that are the same but for entries that it
    does not use, and no function in the store does. -/
theorem interpret_retabled (hended : RunM.Ended (interpret fuel program m)) :
    interpret fuel program m' = RunM.retabled m'.table (interpret fuel program m) := by
  have halike := alike_interpret (Nat.le_refl fuel) (.inl trivial)
    (Stmt.listWithin_ofUses program hprogram) (h.together hm)
  have henv : m'.env = m.env := by rw [h.same]
  cases hrun : interpret fuel program m with
  | ok a n =>
    obtain ⟨n', hrun', hn, -⟩ := halike.ok hrun
    rw [hrun', hn.eq_withTable henv]
    rfl
  | error halt n =>
    have hne : halt ≠ .outOfFuel := by
      rintro rfl
      rw [hrun] at hended
      exact hended
    obtain ⟨n', hrun', hn⟩ := (halike.error hrun).2.2.2 hne
    rw [hrun', hn.eq_withTable henv]
    rfl

theorem interpret_ended_iff :
    RunM.Ended (interpret fuel program m') ↔ RunM.Ended (interpret fuel program m) := by
  have hm' : m'.store.Of (.ofUses allowed) := by
    rw [h.same]
    exact hm
  constructor
  · intro hended
    rw [interpret_retabled h.symm hm' hprogram hended]
    exact RunM.ended_retabled.mpr hended
  · intro hended
    rw [interpret_retabled h hm hprogram hended]
    exact RunM.ended_retabled.mpr hended

end

/-! ## Pieces and whole -/

/-- Gives a machine the tables of two pieces and runs them, one after the other. -/
def runPieces (A : Table) (p : List Stmt) (B : Table) (q : List Stmt) (i j : Nat) : RunM Unit := do
  addTable A
  interpret i p
  addTable B
  interpret j q

/-- Gives a machine the table of a program and runs it. -/
def runWhole (C : Table) (program : List Stmt) (k : Nat) : RunM Unit := do
  addTable C
  interpret k program

/-- Two runs ended in the same way: with the same result, or the same reason to stop, and
    on machines that are the same but for the tables; and where they were successful, the
    tables have the same entries. -/
inductive RunM.SameEnd {α : Type} :
    EStateM.Result Halt Machine α → EStateM.Result Halt Machine α → Prop
  | ok (a : α) (n : Machine) (T : Table) :
      (∀ id : Nat, T[id]? = n.table[id]?) → SameEnd (.ok a n) (.ok a { n with table := T })
  | error (halt : Halt) (n : Machine) (T : Table) :
      SameEnd (.error halt n) (.error halt { n with table := T })

/-- On machines whose tables have the same entries all programs end in the same way. -/
theorem Machine.SameBut.sameEnd {m m' : Machine} (h : m.SameBut (fun _ => True) m') (fuel : Nat)
    (program : List Stmt) :
    RunM.SameEnd (interpret fuel program m) (interpret fuel program m') ∨
      ¬RunM.Ended (interpret fuel program m) ∧ ¬RunM.Ended (interpret fuel program m') := by
  have hm : m.store.Of (.ofUses fun _ => True) := m.store.of_any.mono fun _ _ _ _ => trivial
  by_cases hended : RunM.Ended (interpret fuel program m)
  · rw [interpret_retabled h hm (fun _ _ => trivial) hended]
    cases hrun : interpret fuel program m with
    | error halt n => exact .inl (.error halt n _)
    | ok a n =>
      have hrestored := evolution_restored.interpret fuel program m
      rw [after_of_ok hrun] at hrestored
      refine .inl (.ok a n _ fun id => ?_)
      rw [hrestored.table]
      exact h.table id trivial
  · have hnot : ¬RunM.Ended (interpret fuel program m') :=
      mt (interpret_ended_iff h hm fun _ _ => trivial).mp hended
    exact .inr ⟨hended, hnot⟩

theorem RunM.SameEnd.ended_iff {α : Type} {r r' : EStateM.Result Halt Machine α}
    (h : RunM.SameEnd r r') : RunM.Ended r ↔ RunM.Ended r' := by
  cases h with
  | ok a n T htable => exact Iff.rfl
  | error halt n T => cases halt <;> exact Iff.rfl

/-- The machine with a table added. -/
def Machine.adding (m : Machine) (A : Table) : Machine := { m with table := m.table.merge A }

section

variable {A B C : Table} {p q : List Stmt}

theorem runPieces_eq (i j : Nat) (m : Machine) :
    runPieces A p B q i j m = match interpret i p (m.adding A) with
      | .ok _ n => interpret j q (n.adding B)
      | .error halt n => .error halt n := by
  show (interpret i p >>= _) (m.adding A) = _
  rw [bind_eq]
  cases interpret i p (m.adding A) <;> rfl

theorem interpret_append (hbreaks : Stmt.ListBreaksInside false (p ++ q))
    (hreturns : Stmt.ListReturnless (p ++ q)) (fuel : Nat) (m : Machine) :
    interpret fuel (p ++ q) m = match interpret fuel p m with
      | .ok _ n => interpret fuel q n
      | .error halt n => .error halt n := by
  obtain ⟨hp, hq⟩ := Stmt.listBreaksInside_append.mp hbreaks
  obtain ⟨hp', hq'⟩ := Stmt.listReturnless_append.mp hreturns
  rw [interpret_eq_forM hbreaks hreturns, List.forM_append, ← interpret_eq_forM hp hp',
    ← interpret_eq_forM hq hq', bind_eq]
  cases interpret fuel p m <;> rfl

/-- With more fuel the pieces end in the same way. -/
theorem runPieces_mono {i j k : Nat} (hi : i ≤ k) (hj : j ≤ k) {m : Machine}
    (hended : RunM.Ended (runPieces A p B q i j m)) :
    runPieces A p B q k k m = runPieces A p B q i j m := by
  rw [runPieces_eq] at hended
  rw [runPieces_eq, runPieces_eq]
  cases hrun : interpret i p (m.adding A) with
  | ok a n =>
    rw [hrun] at hended
    rw [interpret_mono hi (by rw [hrun]; trivial), hrun]
    exact interpret_mono hj hended
  | error halt n =>
    rw [hrun] at hended
    rw [interpret_mono hi (by rw [hrun]; exact hended), hrun]

/-- A use of the program is numbered so. -/
def Stmt.Numbers (ss : List Stmt) (id : Nat) : Prop :=
  ∃ use ∈ Stmt.listUses ss, use.occurrence.id = id

/-- Two pieces of a program that was accepted, with their tables and that of the whole. -/
structure Split (p q : List Stmt) (A B C : Table) : Prop where
  breaks : Stmt.ListBreaksInside false (p ++ q)
  returns : Stmt.ListReturnless (p ++ q)
  apart : ∀ id, Stmt.Numbers p id → ¬Stmt.Numbers q id
  first : ∀ id, ¬Stmt.Numbers p id → A[id]? = none
  second : ∀ id, ¬Stmt.Numbers q id → B[id]? = none
  whole : ∀ id : Nat, C[id]? = B[id]?.or A[id]?

namespace Split

variable (h : Split p q A B C) {m : Machine}
  (hm : m.store.Of (.ofUses fun id => ¬Stmt.Numbers q id))
include h

/-- Without the distances of the second piece, the first one knows its own. -/
theorem sameBut_first (m : Machine) :
    (m.adding A).SameBut (fun id => ¬Stmt.Numbers q id) (m.adding C) := by
  refine ⟨rfl, fun id hid => ?_⟩
  show (m.table.merge C)[id]? = (m.table.merge A)[id]?
  rw [Table.getElem?_merge, Table.getElem?_merge, h.whole, h.second id hid, Option.none_or]

/-- With them nothing is missing. -/
theorem sameBut_second {m n : Machine} (hn : n.table = (m.adding A).table) :
    (n.adding B).SameBut (fun _ => True) { n with table := (m.adding C).table } := by
  refine ⟨rfl, fun id _ => ?_⟩
  show (m.table.merge C)[id]? = (n.table.merge B)[id]?
  rw [Table.getElem?_merge, Table.getElem?_merge, hn]
  show _ = B[id]?.or (m.table.merge A)[id]?
  rw [Table.getElem?_merge, h.whole, Option.or_assoc]

include hm

/-- With one fuel for all, either both runs come to an end, and to the same, or neither
    does. -/
theorem sameEnd (k : Nat) :
    RunM.SameEnd (runPieces A p B q k k m) (runWhole C (p ++ q) k m) ∨
      ¬RunM.Ended (runPieces A p B q k k m) ∧ ¬RunM.Ended (runWhole C (p ++ q) k m) := by
  have hfirst := h.sameBut_first m
  have hprogram : (Code.ofUses fun id => ¬Stmt.Numbers q id).Uses (Stmt.listUses p) :=
    fun use huse => h.apart _ ⟨use, huse, rfl⟩
  have hstore : (m.adding A).store.Of (.ofUses fun id => ¬Stmt.Numbers q id) := hm
  have hwhole : runWhole C (p ++ q) k m = interpret k (p ++ q) (m.adding C) := rfl
  rw [hwhole, interpret_append h.breaks h.returns, runPieces_eq]
  by_cases hended : RunM.Ended (interpret k p (m.adding A))
  · rw [interpret_retabled hfirst hstore hprogram hended]
    cases hrun : interpret k p (m.adding A) with
    | error halt n => exact .inl (.error halt n _)
    | ok a n =>
      -- The first piece leaves its table, so that both machines know all of the second.
      have hrestored := evolution_restored.interpret k p (m.adding A)
      rw [after_of_ok hrun] at hrestored
      exact (h.sameBut_second hrestored.table).sameEnd k q
  · -- Where the first piece does not come to an end, nothing else does.
    have hnot : ¬RunM.Ended (interpret k p (m.adding C)) :=
      mt (interpret_ended_iff hfirst hstore hprogram).mp hended
    refine .inr ⟨?_, ?_⟩
    · cases hrun : interpret k p (m.adding A) with
      | ok a n => exact absurd (hrun ▸ trivial) hended
      | error halt n =>
        rw [hrun] at hended
        exact hended
    · cases hrun : interpret k p (m.adding C) with
      | ok a n => exact absurd (hrun ▸ trivial) hnot
      | error halt n =>
        rw [hrun] at hnot
        exact hnot

theorem ended_iff (k : Nat) :
    RunM.Ended (runPieces A p B q k k m) ↔ RunM.Ended (runWhole C (p ++ q) k m) := by
  rcases h.sameEnd hm k with hsame | ⟨hpieces, hwhole⟩
  · exact hsame.ended_iff
  · exact iff_of_false hpieces hwhole

/-- Whenever both runs come to an end, it is the same, whatever the fuel of each run; and
    if one of them does with some fuel, so does the other one. -/
theorem agrees :
    (∀ i j k, RunM.Ended (runPieces A p B q i j m) → RunM.Ended (runWhole C (p ++ q) k m) →
      RunM.SameEnd (runPieces A p B q i j m) (runWhole C (p ++ q) k m)) ∧
    ((∃ i j, RunM.Ended (runPieces A p B q i j m)) ↔
      ∃ k, RunM.Ended (runWhole C (p ++ q) k m)) := by
  refine ⟨fun i j k hpieces hwhole => ?_, ⟨?_, fun ⟨k, hwhole⟩ => ?_⟩⟩
  · -- More fuel for all makes no difference.
    have hi : i ≤ max (max i j) k := by omega
    have hj : j ≤ max (max i j) k := by omega
    have hk : k ≤ max (max i j) k := by omega
    have hpieces' := runPieces_mono hi hj hpieces
    have hwhole' : runWhole C (p ++ q) (max (max i j) k) m = runWhole C (p ++ q) k m :=
      interpret_mono hk hwhole
    rw [← hpieces', ← hwhole']
    refine (h.sameEnd hm _).resolve_right fun hnot => hnot.1 ?_
    rw [hpieces']
    exact hpieces
  · rintro ⟨i, j, hpieces⟩
    have hpieces' := runPieces_mono (Nat.le_max_left i j) (Nat.le_max_right i j) hpieces
    refine ⟨max i j, (h.ended_iff hm _).mp ?_⟩
    rw [hpieces']
    exact hpieces
  · exact ⟨k, k, (h.ended_iff hm k).mpr hwhole⟩

end Split

end

/-! ## Main statement -/

theorem Stmt.listUses_append (p q : List Stmt) :
    Stmt.listUses (p ++ q) = Stmt.listUses p ++ Stmt.listUses q := by
  induction p with
  | nil => rfl
  | cons s p ih => rw [List.cons_append, Stmt.listUses, Stmt.listUses, ih, List.append_assoc]

theorem Stmt.listProper_append {p q : List Stmt} :
    Stmt.ListProper (p ++ q) ↔ Stmt.ListProper p ∧ Stmt.ListProper q := by
  induction p with
  | nil => exact iff_of_eq (true_and _).symm
  | cons s p ih => exact (and_congr_right fun _ => ih).trans and_assoc.symm

/-- Two pieces of a program that was parsed and resolved. -/
theorem Split.of_parsed {source : String} {first : Nat} {p q : List Stmt} {A B C : Table}
    (hparsed : (parseProgram (tokensOf (scan source)) first).result = .ok (p ++ q))
    (hA : resolveProgram p = .ok A) (hB : resolveProgram q = .ok B)
    (hC : resolveProgram (p ++ q) = .ok C) : Split p q A B C := by
  obtain ⟨hproper, hfresh⟩ := parseProgram_fresh hparsed
  obtain ⟨hp, hq⟩ := Stmt.listProper_append.mp hproper
  refine ⟨parseProgram_breaksInside hparsed, resolveProgram_returnless hC, ?_, fun id hid => ?_,
    fun id hid => ?_, (resolveProgram_append hp q).2.1 A B C hA hB hC⟩
  · -- The occurrences of a text are all numbered differently.
    have hdistinct := hfresh.distinct
    rw [Stmt.listUses_append, List.map_append, List.nodup_append] at hdistinct
    rintro id ⟨use, huse, rfl⟩ ⟨other, hother, heq⟩
    exact hdistinct.2.2 _ (List.mem_map.mpr ⟨use, huse, rfl⟩) _
      (List.mem_map.mpr ⟨other, hother, rfl⟩) heq.symm
  · exact (Stmt.listResolves p hp : Resolves A 0 _ _ _ _ _).unused hA
      fun use huse heq => hid ⟨use, huse, heq⟩
  · exact (Stmt.listResolves q hq : Resolves B 0 _ _ _ _ _).unused hB
      fun use huse heq => hid ⟨use, huse, heq⟩

/-- A program that was parsed is resolved if and only if its two pieces are; then its
    table is the disjoint union of theirs, and otherwise its faults are those of the first
    piece and then those of the second.  With these tables, and on any machine whose
    functions do not use the occurrences of the program, the two pieces run one after the
    other as the whole program runs.  The machines of all sessions that were numbered up
    to the program are such machines. -/
theorem pieces_run_as_whole {source : String} {first : Nat} {p q : List Stmt}
    (hparsed : (parseProgram (tokensOf (scan source)) first).result = .ok (p ++ q)) :
    ((∃ C, resolveProgram (p ++ q) = .ok C) ↔
      (∃ A, resolveProgram p = .ok A) ∧ ∃ B, resolveProgram q = .ok B) ∧
    scopeFaults (resolveProgram (p ++ q)) =
      scopeFaults (resolveProgram p) ++ scopeFaults (resolveProgram q) ∧
    (∀ A B C : Table, resolveProgram p = .ok A → resolveProgram q = .ok B →
      resolveProgram (p ++ q) = .ok C →
      (∀ id : Nat, (A[id]? = none ∨ B[id]? = none) ∧ C[id]? = A[id]?.or B[id]?) ∧
      ∀ m : Machine, m.store.Of (.ofUses fun id => ¬Stmt.Numbers (p ++ q) id) →
        (∀ i j k, RunM.Ended (runPieces A p B q i j m) → RunM.Ended (runWhole C (p ++ q) k m) →
          RunM.SameEnd (runPieces A p B q i j m) (runWhole C (p ++ q) k m)) ∧
        ((∃ i j, RunM.Ended (runPieces A p B q i j m)) ↔
          ∃ k, RunM.Ended (runWhole C (p ++ q) k m))) ∧
    ∀ s : Session, s.Reached → s.nextId ≤ first →
      s.machine.store.Of (.ofUses fun id => ¬Stmt.Numbers (p ++ q) id) := by
  obtain ⟨hproper, hfresh⟩ := parseProgram_fresh hparsed
  have hresolve := resolveProgram_append (Stmt.listProper_append.mp hproper).1 q
  refine ⟨hresolve.1, hresolve.2.2, fun A B C hA hB hC => ?_, fun s hs hnext => ?_⟩
  · have hsplit := Split.of_parsed hparsed hA hB hC
    refine ⟨fun id => ?_, fun m hm => hsplit.agrees (hm.weaken fun id hid hq => hid ?_)⟩
    · rw [hsplit.whole]
      by_cases hid : Stmt.Numbers p id
      · rw [hsplit.second id (hsplit.apart id hid), Option.none_or, Option.or_none]
        exact ⟨.inr rfl, rfl⟩
      · rw [hsplit.first id hid, Option.none_or, Option.or_none]
        exact ⟨.inl rfl, rfl⟩
    · obtain ⟨use, huse, heq⟩ := hq
      exact ⟨use, by rw [Stmt.listUses_append]; exact List.mem_append_right _ huse, heq⟩
  · refine hs.numbered.weaken fun id hid => ?_
    rintro ⟨use, huse, rfl⟩
    have hwithin := hfresh.within use huse
    omega

/-- A function of the first piece, with a parameter, is called by the second one. -/
theorem pieces_run_as_whole_call : ∃ (p q : List Stmt) (A B C : Table),
    (parseProgram (tokensOf (scan "fun f(a)\x7breturn a;\x7dprint f(true);")) 0).result =
      .ok (p ++ q) ∧
    (resolveProgram p = .ok A ∧ resolveProgram q = .ok B ∧ resolveProgram (p ++ q) = .ok C) ∧
    A[0]? = some 0 ∧
    RunM.SameEnd (runPieces A p B q 3 3 (.start .unlimited fun _ => none))
      (runWhole C (p ++ q) 3 (.start .unlimited fun _ => none)) := by
  have hevaluated : ∃ (p q : List Stmt) (A B C : Table),
      (parseProgram (tokensOf (scan "fun f(a)\x7breturn a;\x7dprint f(true);")) 0).result =
        .ok (p ++ q) ∧
      (resolveProgram p = .ok A ∧ resolveProgram q = .ok B ∧ resolveProgram (p ++ q) = .ok C) ∧
      A[0]? = some 0 ∧
      RunM.Ended (runPieces A p B q 3 3 (.start .unlimited fun _ => none)) ∧
      RunM.Ended (runWhole C (p ++ q) 3 (.start .unlimited fun _ => none)) :=
    ⟨[.function ⟨⟨"f", 1⟩, [⟨"a", 1⟩], [.return ⟨"return", 1⟩ (some (.name ⟨0, ⟨"a", 1⟩⟩))]⟩],
      [.print (.call (.name ⟨1, ⟨"f", 1⟩⟩) ⟨")", 1⟩ [.literal (.bool true)])], _, _, _,
      by cbv, ⟨by cbv, by cbv, by cbv⟩, by cbv, by cbv, by cbv⟩
  obtain ⟨p, q, A, B, C, hparsed, hresolved, hzero, hpieces, hwhole⟩ := hevaluated
  obtain ⟨-, -, hruns, hsessions⟩ := pieces_run_as_whole hparsed
  have hm := hsessions _ (.start .unlimited fun _ => none) (Nat.le_refl 0)
  have hagrees := ((hruns A B C hresolved.1 hresolved.2.1 hresolved.2.2).2 _ hm).1
  exact ⟨p, q, A, B, C, hparsed, hresolved, hzero, hagrees 3 3 3 hpieces hwhole⟩

end Lox
