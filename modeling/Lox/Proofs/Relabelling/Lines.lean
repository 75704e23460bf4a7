/-
  Lox.Proofs.Relabelling.Lines

  Lines show in diagnostics and nowhere else.

    * `Pairing.relabelled` — two runs on one output that differ in labels only;
    * `scan_newlines` — line ends before a text add to the lines of its tokens and
      faults;
    * `Channels.Moved` — channels with the same results, and with the same diagnostics on
      other lines;
    * `lines_show_in_diagnostics_only` — what this comes to: for the parser, the resolver,
      every run, and the run of a text as a whole.
-/
import Lox.Mode
import Lox.Proofs.Relabelling.Resolving
import Lox.Proofs.Relabelling.Simulation
import Lox.Proofs.Scoping.Wording
import Lox.Proofs.Stores
import Mathlib

namespace Lox

open Comparison

/-! ## Runs -/

namespace Pairing

/-- Two runs on one output. -/
def relabelled (r : Relabelling) : Pairing where
  labels := r
  out o o' := o' = o
  cut _ _ := False
  write _ h := .inl (by rw [h]; exact ⟨rfl, rfl⟩)
  later h _ := h

end Pairing

/-- The second machine is the first one, with relabelled bodies and a table for them. -/
abbrev Machine.Relabelled (r : Relabelling) : Machine → Machine → Prop :=
  Machine.Paired (.relabelled r)

/-- Two runs end in the same way: with the answer that `g` tells or with the same halt on
    its new line, and on such machines again. -/
inductive Relabelling.Ends (r : Relabelling) {α β : Type} (g : α → β) :
    EStateM.Result Halt Machine α → EStateM.Result Halt Machine β → Prop
  | ok {a n n'} : n.Relabelled r n' → Ends r g (.ok a n) (.ok (g a) n')
  | error {halt n n'} : n.Relabelled r n' → Ends r g (.error halt n) (.error (halt.relabel r) n')

variable {r : Relabelling}

theorem Pairing.Tracks.relabelled {α β : Type} {g : α → β} {p : RunM α} {p' : RunM β}
    (h : (Pairing.relabelled r).Tracks g p p') {m m' : Machine} (hm : m.Relabelled r m') :
    r.Ends g (p m) (p' m') := by
  match p m, p' m', h.ends m m' hm with
  | _, _, .ok hn => exact .ok hn
  | _, _, .error hn => exact .error hn
  | _, _, .cut hcut => exact hcut.elim

/-- New machines with corresponding tables. -/
theorem Machine.relabelled_start (out : Sink) (clock : Nat → Option Float) {T T' : Table}
    (hT : Table.Renumbered r T T') :
    Machine.Relabelled r { Machine.start out clock with table := T }
      { Machine.start out clock with table := T' } := by
  have hempty : Store.empty.relabel r = Store.empty := by
    simp [Store.relabel, Store.empty, Frame.relabel]
  have hstore : (Machine.start out clock).store.relabel r = (Machine.start out clock).store := by
    show (Store.empty.define _ _ _).relabel r = Store.empty.define _ _ _
    rw [Store.relabel_define, hempty]
    rfl
  exact ⟨hstore.symm, rfl, rfl, hT.same, rfl, rfl, rfl⟩

/-! ## Line ends before a text -/

/-- A text after some line ends. -/
def newlinesBefore (k : Nat) (source : String) : String :=
  String.ofList (List.replicate k '\n' ++ source.toList)

/-- Every line moved on. -/
def Relabelling.onward (k : Nat) : Relabelling := .lines (· + k)

def Item.relabel (r : Relabelling) : Item → Item
  | .ok t => .ok (t.relabel r)
  | .error d => .error (d.relabel r)

theorem pieces_newlines (k : Nat) (cs : List Char) :
    pieces (List.replicate k '\n' ++ cs) = List.replicate k (.blank ['\n']) ++ pieces cs := by
  induction k with
  | zero => rfl
  | succ k ih =>
    have hfirst (rest : List Char) : Piece.first '\n' rest = (.blank ['\n'], rest) := rfl
    rw [List.replicate_succ, List.cons_append, pieces, hfirst, ih]
    rfl

theorem itemsOf_newlines (line k : Nat) (ps : List Piece) :
    itemsOf line (List.replicate k (.blank ['\n']) ++ ps) = itemsOf (line + k) ps := by
  induction k generalizing line with
  | zero => rfl
  | succ k ih =>
    rw [List.replicate_succ, List.cons_append, itemsOf, show line + (k + 1) = line + 1 + k by omega,
      ← ih (line + 1)]
    rfl

theorem itemsOf_onward (line k : Nat) (ps : List Piece) :
    itemsOf (line + k) ps = (itemsOf line ps).map (Item.relabel (.onward k)) := by
  induction ps generalizing line with
  | nil => rfl
  | cons p ps ih =>
    have hending : line + k + newlines p.text = line + newlines p.text + k := by omega
    have hitem : (p.item? (line + newlines p.text + k)).toList =
        (p.item? (line + newlines p.text)).toList.map (Item.relabel (.onward k)) := by
      cases p <;> rfl
    rw [itemsOf, itemsOf, hending, ih, hitem, List.map_append]

/-- Line ends before a text move all its tokens and faults on. -/
theorem scan_newlines (k : Nat) (source : String) :
    scan (newlinesBefore k source) = (scan source).map (Item.relabel (.onward k)) := by
  rw [scan, newlinesBefore, String.toList_ofList, pieces_newlines, itemsOf_newlines,
    itemsOf_onward, scan]

theorem tokensOf_relabel (items : List Item) :
    tokensOf (items.map (Item.relabel r)) = (tokensOf items).map (Token.relabel r) := by
  rw [tokensOf, tokensOf, List.filterMap_map, List.map_filterMap]
  congr 1
  funext item
  cases item <;> rfl

theorem faultsOf_relabel (items : List Item) :
    faultsOf (items.map (Item.relabel r)) = (faultsOf items).map (Diagnostic.relabel r) := by
  rw [faultsOf, faultsOf, List.filterMap_map, List.map_filterMap]
  congr 1
  funext item
  cases item <;> rfl

/-! ## Texts that are checked -/

/-- What checking finds in a text and in the moved one. -/
inductive Relabelling.Checked (r : Relabelling) :
    Except (List Diagnostic) (List Stmt × Table) → Except (List Diagnostic) (List Stmt × Table) →
    Prop
  | ok {program : List Stmt} {T T' : Table} :
      Table.Renumbered r T T' → Checked r (.ok (program, T)) (.ok (Stmt.listRelabel r program, T'))
  | error {ds : List Diagnostic} : Checked r (.error ds) (.error (ds.map (Diagnostic.relabel r)))

/-- A text is accepted wherever it stands, and its faults move with it. -/
theorem check_newlines (k : Nat) (source : String) :
    ∃ r : Relabelling, r.line = (· + k) ∧
      r.Checked (Mode.check parseProgram resolveProgram source)
        (Mode.check parseProgram resolveProgram (newlinesBefore k source)) := by
  obtain ⟨before, ending, htokens, hbefore⟩ := tokensOf_scan source
  have hending : (Token.endMark ending).kind = .eof := rfl
  obtain ⟨r, hline, hr, hparse⟩ := exists_parseProgram_relabel
    (fun t ht => (hbefore t ht).1) hending (· + k) 0 0
  refine ⟨r, hline, ?_⟩
  have hmoved : Relabelling.line (.onward k) = r.line := hline.symm
  have htokens' : tokensOf (scan (newlinesBefore k source)) =
      (before ++ [Token.endMark ending]).map (Token.relabel r) := by
    rw [scan_newlines, tokensOf_relabel, htokens]
    exact List.map_congr_left fun t _ => Token.relabel_congr hmoved t
  have hfaults' : faultsOf (scan (newlinesBefore k source)) =
      (faultsOf (scan source)).map (Diagnostic.relabel r) := by
    rw [scan_newlines, faultsOf_relabel, Diagnostic.relabel_congr hmoved]
  unfold Mode.check
  dsimp only
  rw [htokens', hfaults', hparse, htokens]
  cases (parseProgram (before ++ [Token.endMark ending]) 0).result with
  | error more =>
    cases faultsOf (scan source) with
    | nil => exact .error
    | cons d ds =>
      have hboth : (d :: ds).map (Diagnostic.relabel r) ++ more.map (Diagnostic.relabel r) =
          (d :: ds ++ more).map (Diagnostic.relabel r) := List.map_append.symm
      show r.Checked (.error (d :: ds ++ more)) (.error ((d :: ds).map _ ++ more.map _))
      rw [hboth]
      exact .error
  | ok program =>
    cases faultsOf (scan source) with
    | cons d ds => exact .error
    | nil =>
      show r.Checked ((resolveProgram program).map _)
        ((resolveProgram (Stmt.listRelabel r program)).map _)
      match resolveProgram program, resolveProgram (Stmt.listRelabel r program),
        resolveProgram_relabel hr program with
      | _, _, .ok hT => exact .ok hT
      | _, _, .error => exact .error

/-! ## Channels -/

/-- Diagnostics as they are written, one in a line. -/
def Diagnostic.listing : List Diagnostic → String
  | [] => ""
  | d :: ds => d.text ++ "\n" ++ Diagnostic.listing ds

theorem Diagnostic.listing_concat (ds : List Diagnostic) (d : Diagnostic) :
    listing (ds ++ [d]) = listing ds ++ (d.text ++ "\n") := by
  induction ds with
  | nil => simp only [List.nil_append, listing, String.append_empty, String.empty_append]
  | cons e ds ih => simp only [List.cons_append, listing, ih, String.append_assoc]

/-- The results are the same.  Diagnostics were written after what was there before, the
    same ones but for their lines. -/
structure Channels.Moved (r : Relabelling) (earlier : ByteArray) (c c' : Channels) : Prop where
  out : c'.out = c.out
  err : ∃ ds, c.err = ⟨none, earlier ++ (Diagnostic.listing ds).toUTF8⟩ ∧
    c'.err = ⟨none, earlier ++ (Diagnostic.listing (ds.map (Diagnostic.relabel r))).toUTF8⟩

/-- Runs that differ in the lines of diagnostics only. -/
def Channels.moving (r : Relabelling) (earlier : ByteArray) :
    Comparison Interruption Channels where
  stopped := Channels.Moved r earlier
  cut _ _ := False
  grows _ _ := True
  stop := id
  closed := .closed
  refl _ := trivial
  trans _ _ := trivial
  later h _ := h

namespace Mode

open Channels

variable {earlier : ByteArray}

theorem moved_writeErr (d : Diagnostic) :
    (moving r earlier).Tracks (Moved r earlier) (Moved r earlier) id (writeErr d.text)
      (writeErr (d.relabel r).text) := by
  refine ⟨fun _ => trivial, fun c c' h => ?_⟩
  obtain ⟨out, err⟩ := c
  obtain ⟨out', err'⟩ := c'
  obtain ⟨hout, ds, rfl, rfl⟩ := h
  have hwritten (ds : List Diagnostic) (d : Diagnostic) :
      earlier ++ (Diagnostic.listing ds).toUTF8 ++ (d.text ++ "\n").toUTF8 =
        earlier ++ (Diagnostic.listing (ds ++ [d])).toUTF8 := by
    rw [Diagnostic.listing_concat, ByteArray.append_assoc]
    rfl
  refine .ok ⟨hout, ds ++ [d], ?_, ?_⟩
  · exact congrArg (Sink.mk none) (hwritten ds d)
  · rw [List.map_append]
    exact congrArg (Sink.mk none) (hwritten _ _)

theorem moved_writeAll (ds : List Diagnostic) :
    (moving r earlier).Tracks (Moved r earlier) (Moved r earlier) id (writeAll ds)
      (writeAll (ds.map (Diagnostic.relabel r))) := by
  induction ds with
  | nil => exact .pure ()
  | cons d ds ih => exact (moved_writeErr d).bind fun _ => ih

/-- The machines write to one output. -/
theorem moved_onMachine (limits : Limits) {T T' : Table} (hT : Table.Renumbered r T T')
    {action action' : RunM Unit} (haction : (Pairing.relabelled r).Tracks id action action') :
    (moving r earlier).Tracks (Moved r earlier) (Moved r earlier)
      (Except.mapError (RuntimeError.relabel r)) (onMachine limits T action)
      (onMachine limits T' action') := by
  refine ⟨fun _ => trivial, fun c c' h => ?_⟩
  have hends := haction.relabelled (Machine.relabelled_start c.out limits.clock hT)
  unfold onMachine
  dsimp only
  rw [h.out]
  match action { Machine.start c.out limits.clock with table := T },
    action' { Machine.start c.out limits.clock with table := T' }, hends with
  | _, _, .ok hn => exact .ok ⟨hn.out, h.err⟩
  | .error (.error e) n, _, .error hn => exact Ends.ok (a := Except.error e) ⟨hn.out, h.err⟩
  | .error .closed n, _, .error hn =>
    exact Ends.error (C := moving _ _) (e := Interruption.closed) ⟨hn.out, h.err⟩
  | .error .outOfFuel n, _, .error hn =>
    exact Ends.error (C := moving _ _) (e := Interruption.outOfFuel) ⟨hn.out, h.err⟩
  | .error .awaitingClock n, _, .error hn =>
    exact Ends.error (C := moving _ _) (e := Interruption.awaitingClock) ⟨hn.out, h.err⟩

/-- A text is run in the same way wherever it stands. -/
theorem moved_runSource (earlier : ByteArray) (limits : Limits) (k : Nat) (source : String) :
    ∃ r : Relabelling, r.line = (· + k) ∧
      (moving r earlier).Tracks (Moved r earlier) (Moved r earlier) id
        (runSource limits source) (runSource limits (newlinesBefore k source)) := by
  obtain ⟨r, hline, hchecked⟩ := check_newlines k source
  refine ⟨r, hline, ?_⟩
  unfold runSource
  match check parseProgram resolveProgram source,
    check parseProgram resolveProgram (newlinesBefore k source), hchecked with
  | _, _, .error => exact (moved_writeAll _).bind fun _ => .pure Status.staticError
  | _, _, .ok hT =>
    refine (moved_onMachine limits hT (Pairing.interpret limits.fuel _)).bind fun ending => ?_
    cases ending with
    | ok _ => exact .pure Status.success
    | error e => exact (moved_writeErr (.runtime e)).bind fun _ => .pure Status.runtimeError

/-- How a mode ended. -/
def ended {ε σ α : Type} : EStateM.Result ε σ α → Except ε α
  | .ok a _ => .ok a
  | .error e _ => .error e

/-- A text after line ends has the same results and ends in the same way. -/
theorem runSource_newlines (limits : Limits) (k : Nat) (source : String) (out : Sink) :
    ended (runSource limits (newlinesBefore k source) ⟨out, ⟨none, earlier⟩⟩) =
        ended (runSource limits source ⟨out, ⟨none, earlier⟩⟩) ∧
      Moved (.onward k) earlier (left (runSource limits source ⟨out, ⟨none, earlier⟩⟩))
        (left (runSource limits (newlinesBefore k source) ⟨out, ⟨none, earlier⟩⟩)) := by
  obtain ⟨r, hline, hmoved⟩ := moved_runSource earlier limits k source
  have hnone : earlier ++ (Diagnostic.listing []).toUTF8 = earlier := ByteArray.append_empty
  have hstart : Moved r earlier ⟨out, ⟨none, earlier⟩⟩ ⟨out, ⟨none, earlier⟩⟩ :=
    ⟨rfl, [], by rw [hnone], by rw [List.map_nil, hnone]⟩
  -- of the relabelling only the lines show
  have honward {c c' : Channels} (h : c.Moved r earlier c') : c.Moved (.onward k) earlier c' := by
    obtain ⟨hout, ds, herr, herr'⟩ := h
    have hline' : r.line = Relabelling.line (.onward k) := hline
    exact ⟨hout, ds, herr, by rw [herr', Diagnostic.relabel_congr hline']⟩
  match runSource limits source ⟨out, ⟨none, earlier⟩⟩,
    runSource limits (newlinesBefore k source) ⟨out, ⟨none, earlier⟩⟩, hmoved.ends _ _ hstart with
  | _, _, .ok h => exact ⟨rfl, honward h⟩
  | _, _, .error h => exact ⟨rfl, honward h⟩
  | _, _, .cut hcut => exact hcut.elim

end Mode

/-! ## Main statement -/

/-- Lines show in diagnostics and nowhere else.  On tokens with other lines, the parser
    gives the same tree or faults on those lines, and so does the resolver with its
    table; numbers that differ still do.  A run of what was relabelled writes the same
    bytes, takes the same ways and ends in the same way, with an error on its new line.
    So a text after `k` line ends has the same results and the same status, and the same
    diagnostics on lines larger by `k`. -/
theorem lines_show_in_diagnostics_only {before : List Token} {ending : Token}
    (hbefore : ∀ t ∈ before, t.kind ≠ .eof) (hending : ending.kind = .eof) (line : Nat → Nat)
    (n n' : Nat) :
    -- the parser
    ((∃ r : Relabelling, r.line = line ∧ r.id.Injective ∧
        (parseProgram ((before ++ [ending]).map (Token.relabel r)) n').result =
          r.findings (Stmt.listRelabel r) (parseProgram (before ++ [ending]) n).result) ∧
      ∃ r : Relabelling, r.line = line ∧ r.id.Injective ∧
        (parseExpression ((before ++ [ending]).map (Token.relabel r)) n').result =
          r.findings (Expr.relabel r) (parseExpression (before ++ [ending]) n).result) ∧
    -- the resolver
    (∀ r : Relabelling, r.id.Injective →
      (∀ program,
        r.Resolved (resolveProgram program) (resolveProgram (Stmt.listRelabel r program))) ∧
      ∀ e, r.Resolved (resolveExpression e) (resolveExpression (e.relabel r))) ∧
    -- runs
    (∀ (r : Relabelling) (T T' : Table), Table.Renumbered r T T' → ∀ out clock,
      Machine.Relabelled r { Machine.start out clock with table := T }
        { Machine.start out clock with table := T' }) ∧
    (∀ (r : Relabelling) (m m' : Machine), m.Relabelled r m' → ∀ fuel,
      (∀ program, r.Ends id (interpret fuel program m)
        (interpret fuel (Stmt.listRelabel r program) m')) ∧
      (∀ s, r.Ends (Flow.relabel r) (execute fuel s m) (execute fuel (s.relabel r) m')) ∧
      ∀ e, r.Ends (Value.relabel r) (evaluate fuel e m) (evaluate fuel (e.relabel r) m')) ∧
    -- whole texts
    ∀ (limits : Limits) (source : String) (k : Nat) (out : Sink) (earlier : ByteArray),
      let run := Mode.runSource limits source ⟨out, ⟨none, earlier⟩⟩
      let run' := Mode.runSource limits (newlinesBefore k source) ⟨out, ⟨none, earlier⟩⟩
      Mode.ended run' = Mode.ended run ∧ (left run).Moved (.onward k) earlier (left run') := by
  refine ⟨⟨exists_parseProgram_relabel hbefore hending line n n',
    exists_parseExpression_relabel hbefore hending line n n'⟩,
    fun r hr => ⟨resolveProgram_relabel hr, resolveExpression_relabel hr⟩,
    fun r T T' hT out clock => Machine.relabelled_start out clock hT,
    fun r m m' hm fuel => ⟨fun program => (Pairing.interpret fuel program).relabelled hm,
      fun s => (Pairing.execute fuel s).relabelled hm,
      fun e => (Pairing.evaluate fuel e).relabelled hm⟩,
    fun limits source k out earlier => Mode.runSource_newlines limits k source out⟩

/-- A program that writes a text still writes it two lines further on. -/
theorem lines_show_in_diagnostics_only_third_line :
    ∃ before ending, tokensOf (scan "print \"a\";") = before ++ [ending] ∧
      (∀ t ∈ before, t.kind ≠ .eof) ∧ ending.kind = .eof ∧
      (∃ r : Relabelling, r.line = (· + 2) ∧ r.id.Injective ∧
        (parseProgram ((before ++ [ending]).map (Token.relabel r)) 7).result =
          r.findings (Stmt.listRelabel r) (parseProgram (before ++ [ending]) 0).result) ∧
      ∃ c, Mode.runSource ⟨fun _ => none, 9⟩ "\n\nprint \"a\";" ⟨.unlimited, ⟨none, .empty⟩⟩ =
          .ok .success c ∧ c.out.bytes = "a\n".toUTF8 := by
  have hrun : Mode.runSource ⟨fun _ => none, 9⟩ "print \"a\";" ⟨.unlimited, ⟨none, .empty⟩⟩ =
      .ok .success ⟨⟨none, "a\n".toUTF8⟩, ⟨none, .empty⟩⟩ := by cbv
  have htext : newlinesBefore 2 "print \"a\";" = "\n\nprint \"a\";" := by cbv
  obtain ⟨before, ending, htokens, hbefore⟩ := tokensOf_scan "print \"a\";"
  obtain ⟨⟨hparse, -⟩, -, -, -, hwhole⟩ := lines_show_in_diagnostics_only
    (fun t ht => (hbefore t ht).1) (show (Token.endMark ending).kind = .eof from rfl) (· + 2) 0 7
  obtain ⟨hended, hmoved⟩ := hwhole ⟨fun _ => none, 9⟩ "print \"a\";" 2 .unlimited .empty
  refine ⟨before, Token.endMark ending, htokens, fun t ht => (hbefore t ht).1, rfl, hparse, ?_⟩
  rw [htext, hrun] at hended hmoved
  generalize Mode.runSource _ "\n\nprint \"a\";" _ = x at hended hmoved ⊢
  cases x with
  | ok status c =>
    cases hended
    exact ⟨c, rfl, congrArg Sink.bytes hmoved.out⟩
  | error halt c => cases hended

end Lox
