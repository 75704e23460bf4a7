/-
  Lox.Proofs.Occurrences.Counting

  What a text does in a session does not depend on where its numbers begin.

    * `Relabelling.recount` — the numbers of one text are counted from elsewhere, and those
      that were drawn before stay;
    * `SessionAnswer.relabel` — answers that differ in numbers only;
    * `Session.relabelled_step` — a text that was numbered anew does the same on machines
      that correspond, whatever becomes of it;
    * `Session.Interleaved` — sessions between whose texts others are parsed;
    * `Session.Interleaved.relabelled` — their machines have no numbers but those that were
      drawn, so each corresponds to itself under every change of the others;
    * `Session.step_recounted` — so a text does the same from whatever number on it is
      parsed.
-/
import Lox.Proofs.Occurrences.Drawing
import Lox.Proofs.Occurrences.Entering
import Lox.Proofs.Pieces
import Lox.Proofs.Relabelling.Lines

namespace Lox

open RunM Comparison

/-! ## Other numbers -/

namespace Relabelling

/-- Numbers below `known` stay.  Those from `n` up to a limit are counted from `n'`, and all
    others are kept away from these. -/
def recount (known n n' limit : Nat) : Relabelling :=
  numbers fun id =>
    if id < known then id
    else if n ≤ id ∧ id < limit then n' + (id - n)
    else id + (n' + limit)

variable {known n n' limit : Nat}

theorem recount_of_lt {id : Nat} (hid : id < known) : (recount known n n' limit).id id = id :=
  if_pos hid

theorem recount_of_le (hn' : known ≤ n') {id : Nat} (hid : known ≤ id) :
    known ≤ (recount known n n' limit).id id := by
  dsimp only [recount, numbers]
  split
  · exact hid
  · split <;> omega

theorem recount_injective (hn' : known ≤ n') : (recount known n n' limit).id.Injective := by
  -- The three ranges are kept, counted below `n' + limit`, and moved beyond that.
  intro a b h
  dsimp only [recount, numbers] at h
  split at h <;> split at h <;> (try split at h) <;> (try split at h) <;> omega

/-- On a text that was numbered from `n` up to the limit, this is counting. -/
theorem agreeOn_recount (hn : known ≤ n) {uses : List Use} (h : Fresh uses n limit) :
    (counted (fun line => line) n n').AgreeOn (recount known n n' limit) uses := by
  intro use huse
  obtain ⟨hle, hlt⟩ := h.within use huse
  have hknown : ¬use.occurrence.id < known := by omega
  exact (if_neg hknown).trans (if_pos ⟨hle, hlt⟩)

/-- Findings on a text that were counted anew. -/
theorem findings_recount {α : Type} {g : Relabelling → α → α} {uses : α → List Use}
    {found found' : Except (List Diagnostic) α} (hn : known ≤ n)
    (hcounted : found' = (counted (fun line => line) n n').findings
      (g (counted (fun line => line) n n')) found)
    (hfresh : ∀ a, found = .ok a → Fresh (uses a) n limit)
    (hcongr : ∀ {r r' : Relabelling}, r'.line = r.line → ∀ a, r.AgreeOn r' (uses a) →
      g r' a = g r a) :
    found' = (recount known n n' limit).findings (g (recount known n n' limit)) found := by
  have hline : (recount known n n' limit).line = (counted (fun line => line) n n').line := rfl
  rw [hcounted]
  cases found with
  | error ds => rw [findings, findings, Diagnostic.relabel_congr hline]
  | ok a => rw [findings, findings, hcongr hline a (agreeOn_recount hn (hfresh a rfl))]

/-- On the lines on which they were, faults are the same. -/
theorem faults_same {r : Relabelling} (hline : r.line = same.line) (ds : List Diagnostic) :
    ds.map (Diagnostic.relabel r) = ds := by
  rw [Diagnostic.relabel_congr hline]
  exact List.map_id'' (fun d => by cases d <;> rfl) ds

/-- Where no number of a finding changes, nothing does. -/
theorem findings_same {α : Type} {g : Relabelling → α → α} {uses : α → List Use}
    {found : Except (List Diagnostic) α} {r : Relabelling} (hline : r.line = same.line)
    (hfixed : ∀ a, found = .ok a → same.AgreeOn r (uses a)) (hsame : ∀ a, g same a = a)
    (hcongr : ∀ {r r' : Relabelling}, r'.line = r.line → ∀ a, r.AgreeOn r' (uses a) →
      g r' a = g r a) : found = r.findings (g r) found := by
  cases found with
  | error ds => rw [findings, faults_same hline]
  | ok a => rw [findings, hcongr hline a (hfixed a rfl), hsame]

end Relabelling

/-! ## Tables -/

section

variable {r : Relabelling} {T T' : Table}

theorem Table.Renumbered.shift (h : Table.Renumbered r T T') (amount : Nat) :
    Table.Renumbered r (T.shift amount) (T'.shift amount) := by
  refine ⟨fun id => ?_, fun id' d hd => ?_⟩
  · unfold Table.shift
    rw [Std.TreeMap.getElem?_map, Std.TreeMap.getElem?_map, h.same]
  · unfold Table.shift at hd
    rw [Std.TreeMap.getElem?_map] at hd
    cases hT : T'[id']? with
    | none => simp [hT] at hd
    | some d' => exact h.only id' d' hT

theorem Machine.Relabelled.adding {m m' : Machine} (hm : m.Relabelled r m')
    (hT : Table.Renumbered r T T') : (m.adding T).Relabelled r (m'.adding T') := by
  refine ⟨hm.store, hm.env, hm.depth, fun id => ?_, hm.clock, hm.ticks, hm.out⟩
  have htable : m'.table[r.id id]? = m.table[id]? := hm.table id
  show (m'.table.merge T')[r.id id]? = (m.table.merge T)[id]?
  rw [Table.getElem?_merge, Table.getElem?_merge, hT.same, htable]

end

/-! ## Answers -/

/-- An answer with other numbers in the bodies of functions. -/
def SessionAnswer.relabel (r : Relabelling) : SessionAnswer → SessionAnswer
  | .done => .done
  | .flows ends =>
    .flows (ends.map fun ending => (ending.map (Flow.relabel r)).mapError (RuntimeError.relabel r))
  | .value v => .value (v.relabel r)
  | .faults ds => .faults (ds.map (Diagnostic.relabel r))
  | .interrupted halt => .interrupted (halt.relabel r)

namespace Pairing

variable {P : Pairing}

theorem attempt (fuel : Nat) (s : Stmt) :
    P.Tracks (fun ending => (ending.map (Flow.relabel P.labels)).mapError
        (RuntimeError.relabel P.labels))
      (Session.attempt fuel s) (Session.attempt fuel (s.relabel P.labels)) := by
  have hexecute := Pairing.execute (P := P) fuel s
  constructor
  · intro m
    have hgrows := hexecute.grows m
    rw [Session.attempt_eq]
    cases hrun : Lox.execute fuel s m with
    | ok flow n =>
      rw [hrun] at hgrows
      exact hgrows
    | error halt n =>
      rw [hrun] at hgrows
      cases halt <;> exact hgrows
  · intro m m' hm
    rw [Session.attempt_eq, Session.attempt_eq]
    match Lox.execute fuel s m, Lox.execute fuel (s.relabel P.labels) m',
      hexecute.ends m m' hm with
    | .ok flow n, _, .ok hn => exact Ends.ok (a := Except.ok flow) hn
    | .error (.error e) n, _, .error hn => exact Ends.ok (a := Except.error e) hn
    | .error .closed n, _, .error hn =>
      exact Ends.error (C := P.machines) (e := Halt.closed) hn
    | .error .outOfFuel n, _, .error hn =>
      exact Ends.error (C := P.machines) (e := Halt.outOfFuel) hn
    | .error .awaitingClock n, _, .error hn =>
      exact Ends.error (C := P.machines) (e := Halt.awaitingClock) hn
    | .ok flow n, _, .cut hcut => exact .cut hcut
    | .error halt n, _, .cut hcut =>
      cases halt <;> exact .cut hcut

theorem executeEach (fuel : Nat) (ss : List Stmt) :
    P.Tracks (List.map fun ending => (ending.map (Flow.relabel P.labels)).mapError
        (RuntimeError.relabel P.labels))
      (Session.executeEach fuel ss) (Session.executeEach fuel (Stmt.listRelabel P.labels ss)) := by
  induction ss with
  | nil => exact .pure []
  | cons s ss ih =>
    exact (attempt fuel s).bind fun ending => ih.bind fun rest => .pure (ending :: rest)

end Pairing

namespace Session

variable {r : Relabelling}

/-! ## Texts on machines that correspond -/

theorem relabelled_act {m m' : Machine} (hm : m.Relabelled r m') (n n' : Nat) {T T' : Table}
    (hT : Table.Renumbered r T T') {action action' : RunM SessionAnswer}
    (haction : (Pairing.relabelled r).Tracks (SessionAnswer.relabel r) action action') :
    (act ⟨m', n'⟩ T' action').1 = (act ⟨m, n⟩ T action).1.relabel r ∧
      (act ⟨m, n⟩ T action).2.machine.Relabelled r (act ⟨m', n'⟩ T' action').2.machine := by
  have hends := haction.relabelled (hm.adding hT)
  have hrun (m : Machine) (T : Table) (action : RunM SessionAnswer) :
      (do addTable T; action) m = action (m.adding T) := rfl
  unfold act
  rw [hrun, hrun]
  match action (m.adding T), action' (m'.adding T'), hends with
  | _, _, .ok hn => exact ⟨rfl, hn⟩
  | .error halt n, _, .error hn => cases halt <;> exact ⟨rfl, hn⟩

theorem relabelled_submit {m m' : Machine} (hm : m.Relabelled r m') (input : SessionInput)
    {n n' : Nat} {α : Type} {g : α → α} {parse : List Token → Nat → Parser.Parsed α}
    {resolve : α → Except (List Diagnostic) Table} {action : α → RunM SessionAnswer}
    (hline : r.line = Relabelling.same.line)
    (hparse : (parse (tokensOf (scan input.source)) n').result =
      r.findings g (parse (tokensOf (scan input.source)) n).result)
    (hresolve : ∀ tree, (parse (tokensOf (scan input.source)) n).result = .ok tree →
      r.Resolved (resolve tree) (resolve (g tree)))
    (haction : ∀ tree, (Pairing.relabelled r).Tracks (SessionAnswer.relabel r) (action tree)
      (action (g tree))) :
    (submit ⟨m', n'⟩ input parse resolve action).1 =
        (submit ⟨m, n⟩ input parse resolve action).1.relabel r ∧
      (submit ⟨m, n⟩ input parse resolve action).2.machine.Relabelled r
        (submit ⟨m', n'⟩ input parse resolve action).2.machine := by
  have hfaults := Relabelling.faults_same hline
  unfold submit
  dsimp only
  rw [hparse]
  cases hparsed : (parse (tokensOf (scan input.source)) n).result with
  | error more =>
    have hsame (front : List Diagnostic) :
        SessionAnswer.faults (front ++ more.map (Diagnostic.relabel r)) =
          (SessionAnswer.faults (front ++ more)).relabel r := by
      rw [SessionAnswer.relabel, hfaults, hfaults]
    cases faultsOf (scan input.source) <;> exact ⟨hsame _, hm⟩
  | ok tree =>
    cases faultsOf (scan input.source) with
    | cons d ds => exact ⟨by rw [SessionAnswer.relabel, hfaults]; rfl, hm⟩
    | nil =>
      dsimp only [Relabelling.findings]
      have htable : r.Resolved (tableOf input (resolve tree))
          (tableOf input (resolve (g tree))) := by
        unfold tableOf
        split
        · match resolve tree, resolve (g tree), hresolve tree hparsed with
          | _, _, .ok hT => exact .ok (hT.shift input.shift)
          | _, _, .error => exact .error
        · exact .ok ⟨fun _ => rfl, fun _ _ hd => nomatch hd⟩
      match tableOf input (resolve tree), tableOf input (resolve (g tree)), htable with
      | _, _, .error => exact ⟨rfl, hm⟩
      | _, _, .ok hT => exact relabelled_act hm _ _ hT (haction tree)

/-- The tree of a text and its table have other numbers where it is parsed from another
    number on. -/
structure Renumbers (r : Relabelling) (input : SessionInput) (n n' : Nat) : Prop where
  line : r.line = Relabelling.same.line
  program : input.mode ≠ .evaluate →
    (parseProgram (tokensOf (scan input.source)) n').result =
      r.findings (Stmt.listRelabel r) (parseProgram (tokensOf (scan input.source)) n).result ∧
    ∀ program, (parseProgram (tokensOf (scan input.source)) n).result = .ok program →
      r.Resolved (resolveProgram program) (resolveProgram (Stmt.listRelabel r program))
  expression : input.mode = .evaluate →
    (parseExpression (tokensOf (scan input.source)) n').result =
      r.findings (Expr.relabel r) (parseExpression (tokensOf (scan input.source)) n).result ∧
    ∀ e, (parseExpression (tokensOf (scan input.source)) n).result = .ok e →
      r.Resolved (resolveExpression e) (resolveExpression (e.relabel r))

/-- A text with other numbers has the same answer, and leaves machines that correspond. -/
theorem relabelled_step {m m' : Machine} (hm : m.Relabelled r m') {input : SessionInput}
    {n n' : Nat} (h : Renumbers r input n n') (fuel : Nat) :
    (step fuel input ⟨m', n'⟩).1 = (step fuel input ⟨m, n⟩).1.relabel r ∧
      (step fuel input ⟨m, n⟩).2.machine.Relabelled r (step fuel input ⟨m', n'⟩).2.machine := by
  unfold step
  cases hmode : input.mode with
  | interpret =>
    obtain ⟨hparse, hresolve⟩ := h.program (by rw [hmode]; exact nofun)
    exact relabelled_submit hm input h.line hparse hresolve fun program =>
      (Pairing.interpret fuel program).bind fun _ => .pure SessionAnswer.done
  | execute =>
    obtain ⟨hparse, hresolve⟩ := h.program (by rw [hmode]; exact nofun)
    exact relabelled_submit hm input h.line hparse hresolve fun program =>
      (Pairing.executeEach fuel program).bind fun ends => .pure (SessionAnswer.flows ends)
  | evaluate =>
    obtain ⟨hparse, hresolve⟩ := h.expression hmode
    exact relabelled_submit hm input h.line hparse hresolve fun e =>
      (Pairing.evaluate fuel e).bind fun v => .pure (SessionAnswer.value v)

/-! ## Machines of a session -/

/-- A table of a text has entries for the occurrences of its tree only. -/
theorem unused_of_tableOf {input : SessionInput} {f : Walk → Walk}
    {entries : Walk → List (Nat × Nat)} {uses : List Use} (h : Walk.Enters f entries uses)
    {table : Table} (htable : tableOf input (f .start).result = .ok table) {id : Nat}
    (hid : ∀ use ∈ uses, use.occurrence.id ≠ id) : table[id]? = none := by
  unfold tableOf at htable
  split at htable
  · cases hT : (f .start).result with
    | error ds =>
      rw [hT] at htable
      cases htable
    | ok T =>
      rw [hT] at htable
      cases htable
      unfold Table.shift
      rw [Std.TreeMap.getElem?_map, h.unused hT hid]
      rfl
  · cases htable
    exact Std.TreeMap.getElem?_emptyc

/-- A text adds its table and leaves it there. -/
theorem Leaves.table {s : Session} {fuel : Nat} {input : SessionInput} {left : Machine}
    (h : s.Leaves fuel input left) {id : Nat} (hold : s.machine.table[id]? = none)
    (hid : (s.step fuel input).2.nextId ≤ id) : left.table[id]? = none := by
  have hadded {table : Table} (htable : table[id]? = none) :
      (s.machine.table.merge table)[id]? = none := by
    rw [Table.getElem?_merge, htable, hold, Option.none_or]
  have hother {uses : List Use} {first next : Nat} (hfresh : Fresh uses first next)
      (hnext : next ≤ id) : ∀ use ∈ uses, use.occurrence.id ≠ id := fun use huse =>
    Nat.ne_of_lt (Nat.lt_of_lt_of_le (hfresh.within use huse).2 hnext)
  rw [nextId_step] at hid
  -- A run leaves the table as it was; what the text added has numbers that were drawn for it.
  cases h with
  | nothing => exact hold
  | @interpret program table hmode hparsed htable =>
    rw [hmode, if_neg nofun] at hid
    have hfresh := (Parser.runOn_drawn Parser.draws_program _ _).2 _ hparsed
    have hleft := (evolution_restored.interpret fuel program
      ((addTable table).after s.machine)).table
    rw [hleft]
    exact hadded (unused_of_tableOf (Stmt.listEnters _) htable (hother hfresh hid))
  | @execute program table hmode hparsed htable =>
    rw [hmode, if_neg nofun] at hid
    have hfresh := (Parser.runOn_drawn Parser.draws_program _ _).2 _ hparsed
    have hleft := (respects_executeEach evolution_restored fuel program
      ((addTable table).after s.machine)).table
    rw [hleft]
    exact hadded (unused_of_tableOf (Stmt.listEnters _) htable (hother hfresh hid))
  | @evaluate e table hmode hparsed htable =>
    rw [hmode, if_pos rfl] at hid
    have hfresh := (Parser.runOn_drawn Parser.draws_expression _ _).2 _ hparsed
    have hrestored : Respects Machine.Restored (Lox.evaluate fuel e) :=
      evolution_restored.eval (evolution_restored.invoke fuel) e
    have hleft := (hrestored ((addTable table).after s.machine)).table
    rw [hleft]
    exact hadded (unused_of_tableOf (Expr.enters _) htable (hother hfresh hid))

/-- The sessions that texts lead to where, between these, other texts are parsed that are
    none of the machine's business, so that its own have numbers from anywhere on. -/
inductive Interleaved : Session → Prop
  | start (out : Sink) (clock : Nat → Option Float) (n : Nat) : Interleaved ⟨.start out clock, n⟩
  | others {s : Session} {n : Nat} : s.Interleaved → s.nextId ≤ n → Interleaved ⟨s.machine, n⟩
  | step {s : Session} (fuel : Nat) (input : SessionInput) :
      s.Interleaved → Interleaved (s.step fuel input).2

/-- Numbers that were not drawn yet are not in the table of a session. -/
theorem Interleaved.unused {s : Session} (h : s.Interleaved) :
    ∀ id, s.nextId ≤ id → s.machine.table[id]? = none := by
  induction h with
  | start out clock n => exact fun _ _ => Std.TreeMap.getElem?_emptyc
  | others _ hn ih => exact fun id hid => ih id (Nat.le_trans hn hid)
  | @step s fuel input _ ih =>
    exact fun id hid => (step_leaves fuel input s).table
      (ih id (Nat.le_trans (nextId_le_step fuel input s) hid)) hid

section

variable {limit : Nat} (hline : r.line = Relabelling.same.line)
  (hfixed : ∀ id, id < limit → r.id id = id) (habove : ∀ id, limit ≤ id → limit ≤ r.id id)
include hfixed

theorem agreeOn_of_fixed {uses : List Use} {first : Nat} (h : Fresh uses first limit) :
    Relabelling.same.AgreeOn r uses :=
  fun use huse => hfixed _ (h.within use huse).2

include habove

theorem renumbered_of_fixed {T : Table} (hT : ∀ id, limit ≤ id → T[id]? = none) :
    Table.Renumbered r T T := by
  refine ⟨fun id => ?_, fun id d hd => ⟨id, hfixed id ?_⟩⟩
  · by_cases hid : id < limit
    · rw [hfixed id hid]
    · have hle : limit ≤ id := Nat.le_of_not_lt hid
      rw [hT id hle, hT _ (habove id hle)]
  · refine Nat.lt_of_not_le fun hle => ?_
    rw [hT id hle] at hd
    cases hd

include hline

/-- Where no number of a tree changes, its table stays, or its faults do. -/
theorem resolved_of_fixed {f : Walk → Walk} {entries : Walk → List (Nat × Nat)} {uses : List Use}
    (h : Walk.Enters f entries uses) {first : Nat} (hfresh : Fresh uses first limit) :
    r.Resolved (f .start).result (f .start).result := by
  cases hresult : (f .start).result with
  | error ds =>
    have hresolved : r.Resolved (.error ds) (.error (ds.map (Diagnostic.relabel r))) := .error
    rwa [Relabelling.faults_same hline] at hresolved
  | ok T =>
    refine .ok (renumbered_of_fixed hfixed habove fun id hid => h.unused hresult fun use huse => ?_)
    exact Nat.ne_of_lt (Nat.lt_of_lt_of_le (hfresh.within use huse).2 hid)

end

/-- Numbers that were not drawn yet are nowhere on the machine of a session: if all others
    stay, it is the same machine. -/
theorem Interleaved.relabelled {s : Session} (h : s.Interleaved)
    (hline : r.line = Relabelling.same.line)
    (hfixed : ∀ id, id < s.nextId → r.id id = id)
    (habove : ∀ id, s.nextId ≤ id → s.nextId ≤ r.id id) : s.machine.Relabelled r s.machine := by
  -- The change of numbers is the same all through, while fewer of them are in use before.
  induction h with
  | start out clock n =>
    exact Machine.relabelled_start out clock ⟨fun _ => rfl, fun _ _ hd => nomatch hd⟩
  | @others s n _ hn ih =>
    refine ih (fun id hid => hfixed id (Nat.lt_of_lt_of_le hid hn)) fun id hid => ?_
    by_cases hnew : id < n
    · rwa [hfixed id hnew]
    · exact Nat.le_trans hn (habove id (Nat.le_of_not_lt hnew))
  | @step s fuel input _ ih =>
    have hle := nextId_le_step fuel input s
    have hbefore : s.machine.Relabelled r s.machine := by
      refine ih (fun id hid => hfixed id (Nat.lt_of_lt_of_le hid hle)) fun id hid => ?_
      by_cases hnew : id < (s.step fuel input).2.nextId
      · rwa [hfixed id hnew]
      · exact Nat.le_trans hle (habove id (Nat.le_of_not_lt hnew))
    -- The run of the text is followed by itself.
    refine (relabelled_step hbefore ⟨hline, fun hmode => ?_, fun hmode => ?_⟩ fuel).2
    · rw [nextId_step, if_neg hmode] at hfixed habove
      have hfresh := (Parser.runOn_drawn Parser.draws_program
        (tokensOf (scan input.source)) s.nextId).2
      have hagree := fun program hparsed => agreeOn_of_fixed hfixed (hfresh program hparsed)
      refine ⟨Relabelling.findings_same hline hagree Stmt.listRelabel_same Stmt.listRelabel_congr,
        fun program hparsed => ?_⟩
      rw [Stmt.listRelabel_congr hline program (hagree program hparsed), Stmt.listRelabel_same]
      exact resolved_of_fixed hline hfixed habove (Stmt.listEnters program) (hfresh program hparsed)
    · rw [nextId_step, if_pos hmode] at hfixed habove
      have hfresh := (Parser.runOn_drawn Parser.draws_expression
        (tokensOf (scan input.source)) s.nextId).2
      have hagree := fun e hparsed => agreeOn_of_fixed hfixed (hfresh e hparsed)
      refine ⟨Relabelling.findings_same hline hagree Expr.relabel_same Expr.relabel_congr,
        fun e hparsed => ?_⟩
      rw [Expr.relabel_congr hline e (hagree e hparsed), Expr.relabel_same]
      exact resolved_of_fixed hline hfixed habove e.enters (hfresh e hparsed)

/-! ## Texts that are counted anew -/

/-- A text may be parsed from any number on that was not drawn yet: with other numbers its
    tree is the same, and so are its table and its faults. -/
theorem renumbers_recount (input : SessionInput) {known n n' : Nat} (hn : known ≤ n)
    (hn' : known ≤ n') :
    ∃ limit, Renumbers (.recount known n n' limit) input n n' := by
  obtain ⟨before, ending, htokens, hbefore⟩ := tokensOf_scan input.source
  have hkinds : ∀ t ∈ before, t.kind ≠ .eof := fun t ht => (hbefore t ht).1
  have hending : (Token.endMark ending).kind = .eof := rfl
  -- Counting anew leaves the tokens as they are: they have lines, but no numbers.
  have hsame : (before ++ [Token.endMark ending]).map
      (Token.relabel (.counted (fun line => line) n n')) = before ++ [Token.endMark ending] :=
    List.map_id'' (fun _ => rfl) _
  by_cases hmode : input.mode = .evaluate
  · let limit := (parseExpression (tokensOf (scan input.source)) n).nextId
    refine ⟨limit, rfl, fun hnot => absurd hmode hnot, fun _ => ⟨?_, fun e _ =>
      resolveExpression_relabel (Relabelling.recount_injective hn') e⟩⟩
    have hcounted := parseExpression_relabel hkinds hending (fun line => line) n n'
    rw [hsame, ← htokens] at hcounted
    exact Relabelling.findings_recount hn hcounted
      (Parser.runOn_drawn Parser.draws_expression _ n).2 Expr.relabel_congr
  · let limit := (parseProgram (tokensOf (scan input.source)) n).nextId
    refine ⟨limit, rfl, fun _ => ⟨?_, fun program _ =>
      resolveProgram_relabel (Relabelling.recount_injective hn') program⟩,
      fun heq => absurd heq hmode⟩
    have hcounted := parseProgram_relabel hkinds hending (fun line => line) n n'
    rw [hsame, ← htokens] at hcounted
    exact Relabelling.findings_recount hn hcounted
      (Parser.runOn_drawn Parser.draws_program _ n).2 Stmt.listRelabel_congr

/-- Parsed from other numbers on, a text has the same answer and leaves the same machine,
    but for the numbers in the bodies of its own functions. -/
theorem step_recounted {s : Session} (h : s.Interleaved) {n n' : Nat} (hn : s.nextId ≤ n)
    (hn' : s.nextId ≤ n') (input : SessionInput) :
    ∃ numbers : Nat → Nat, numbers.Injective ∧ (∀ id, id < s.nextId → numbers id = id) ∧
      ∀ fuel, (step fuel input ⟨s.machine, n'⟩).1 =
          (step fuel input ⟨s.machine, n⟩).1.relabel (.numbers numbers) ∧
        (step fuel input ⟨s.machine, n⟩).2.machine.Relabelled (.numbers numbers)
          (step fuel input ⟨s.machine, n'⟩).2.machine := by
  obtain ⟨limit, hrenumbers⟩ := renumbers_recount input hn hn'
  have hmachine : s.machine.Relabelled (.recount s.nextId n n' limit) s.machine :=
    h.relabelled rfl (fun id hid => Relabelling.recount_of_lt hid)
      fun id hid => Relabelling.recount_of_le hn' hid
  exact ⟨(Relabelling.recount s.nextId n n' limit).id, Relabelling.recount_injective hn',
    fun id hid => Relabelling.recount_of_lt hid,
    fun fuel => relabelled_step hmachine hrenumbers fuel⟩

end Session

end Lox
