/-
  Lox.Proofs.Output.Limits

  What a mode does on sinks that take only so many bytes.

  A mode on limited sinks goes step by step with the same mode on sinks that take
  everything (`Channels.bounded`), until one of its sinks refuses a text; then it
  stops at once.  So it either does the same, or ends with the failure of the sink, and
  what was written is the beginning of what would have been written
  (`Mode.perform_limited`).
-/
import Lox.Mode
import Lox.Proofs.Relabelling.Simulation
import Mathlib

namespace Lox

open Comparison

/-- One run on a sink without a limit, and the same run on a sink with one. -/
def Pairing.limited (limit : Option Nat) : Pairing where
  labels := .same
  out := Sink.Follows limit
  cut := Sink.Refused limit
  write text h := h.write text
  later h hgrows := h.later hgrows

theorem limited_evaluate (limit : Option Nat) (fuel : Nat) (e : Expr) :
    (Pairing.limited limit).Tracks (Value.relabel .same) (evaluate fuel e) (evaluate fuel e) := by
  have htracks := Pairing.evaluate (P := .limited limit) fuel e
  rw [show e.relabel (Pairing.limited limit).labels = e from e.relabel_same] at htracks
  exact htracks

theorem limited_interpret (limit : Option Nat) (fuel : Nat) (program : List Stmt) :
    (Pairing.limited limit).Tracks id (interpret fuel program) (interpret fuel program) := by
  have htracks := Pairing.interpret (P := .limited limit) fuel program
  rw [show Stmt.listRelabel (Pairing.limited limit).labels program = program from
    Stmt.listRelabel_same program] at htracks
  exact htracks

/-! ## Channels -/

namespace Channels

section

variable (outLimit errLimit : Option Nat)

/-- Both pairs of sinks hold the same. -/
structure Follows (c c' : Channels) : Prop where
  out : c.out.Follows outLimit c'.out
  err : c.err.Follows errLimit c'.err

/-- Results may be written: if `late` does not hold, there are no diagnostics yet. -/
structure Ready (late : Prop) (c c' : Channels) : Prop extends c.Follows outLimit errLimit c' where
  quiet : late ∨ c'.err.bytes = .empty

/-- One of the sinks refused a text.  If `late` does not hold, results are not refused
    after a diagnostic was written. -/
inductive Refused (late : Prop) (c c' : Channels) : Prop
  | out : c.out.Refused outLimit c'.out → c'.err.Begins c.err → (late ∨ c'.err.bytes = .empty) →
    Refused late c c'
  | err : c.err.Refused errLimit c'.err → c'.out.Begins c.out → Refused late c c'

/-- Modes on sinks without and with limits. -/
def bounded (late : Prop) : Comparison Interruption Channels where
  stopped _ _ := True
  cut := Refused outLimit errLimit late
  grows c d := c.out.Grows d.out ∧ c.err.Grows d.err
  stop := id
  closed := .closed
  refl c := ⟨.refl c.out, .refl c.err⟩
  trans hcd hde := ⟨hcd.1.trans hde.1, hcd.2.trans hde.2⟩
  later h hgrows := by
    cases h with
    | out hout herr hquiet => exact .out (hout.later hgrows.1) (herr.later hgrows.2) hquiet
    | err herr hout => exact .err (herr.later hgrows.2) (hout.later hgrows.1)

end

variable {outLimit errLimit : Option Nat} {c c' : Channels}

theorem Follows.ready (h : c.Follows outLimit errLimit c') : c.Ready outLimit errLimit True c' :=
  ⟨h, .inl trivial⟩

end Channels

namespace Mode

open Channels

variable {outLimit errLimit : Option Nat} {late : Prop}

/-! ## Single steps -/

theorem limited_writeOut (line : String) :
    (bounded outLimit errLimit late).Tracks (Ready outLimit errLimit late)
      (Ready outLimit errLimit late) id (writeOut line) (writeOut line) := by
  constructor
  · intro c
    have hwrite := c.out.grows_write (line ++ "\n")
    unfold writeOut
    dsimp only
    split <;> exact ⟨hwrite, .refl c.err⟩
  · intro c c' h
    unfold writeOut
    dsimp only
    rcases h.out.write (line ++ "\n") with ⟨htaken, hout⟩ | ⟨hrefused, hout⟩
    · rw [htaken]
      split
      · exact .ok ⟨⟨hout, h.err⟩, h.quiet⟩
      · exact Ends.error (C := bounded _ _ _) (e := Interruption.closed) trivial
    · rw [hrefused]
      refine .cut (.out ?_ ?_ h.quiet)
      · split <;> exact hout
      · split <;> exact .of_eq h.err.bytes

theorem limited_writeErr (line : String) :
    (bounded outLimit errLimit late).Tracks (Follows outLimit errLimit)
      (Follows outLimit errLimit) id (writeErr line) (writeErr line) := by
  constructor
  · intro c
    have hwrite := c.err.grows_write (line ++ "\n")
    unfold writeErr
    dsimp only
    split <;> exact ⟨.refl c.out, hwrite⟩
  · intro c c' h
    unfold writeErr
    dsimp only
    rcases h.err.write (line ++ "\n") with ⟨htaken, herr⟩ | ⟨hrefused, herr⟩
    · rw [htaken]
      split
      · exact .ok ⟨h.out, herr⟩
      · exact Ends.error (C := bounded _ _ _) (e := Interruption.closed) trivial
    · rw [hrefused]
      refine .cut (.err ?_ ?_)
      · split <;> exact herr
      · split <;> exact .of_eq h.out.bytes

theorem limited_writeAll (ds : List Diagnostic) :
    (bounded outLimit errLimit late).Tracks (Follows outLimit errLimit)
      (Follows outLimit errLimit) id (writeAll ds) (writeAll ds) := by
  induction ds with
  | nil => exact .pure ()
  | cons d ds ih => exact (limited_writeErr d.text).bind fun _ => ih

/-- A last line of results. -/
theorem limited_answer (line : String) (status : Status) :
    (bounded outLimit errLimit late).Tracks (Ready outLimit errLimit late)
      (Follows outLimit errLimit) id (do writeOut line; return status)
      (do writeOut line; return status) :=
  ((limited_writeOut line).mono (fun _ _ h => h) fun _ _ h => h.toFollows).bind
    fun _ => .pure status

/-- A last line of diagnostics. -/
theorem limited_complaint (line : String) (status : Status) :
    (bounded outLimit errLimit late).Tracks (Ready outLimit errLimit late)
      (Follows outLimit errLimit) id (do writeErr line; return status)
      (do writeErr line; return status) :=
  ((limited_writeErr line).mono (fun _ _ h => h.toFollows) fun _ _ h => h).bind
    fun _ => .pure status

theorem limited_reportStatic (faults : List Diagnostic) :
    (bounded outLimit errLimit late).Tracks (Ready outLimit errLimit late)
      (Follows outLimit errLimit) id (reportStatic faults) (reportStatic faults) :=
  ((limited_writeAll faults).mono (fun _ _ h => h.toFollows) fun _ _ h => h).bind
    fun _ => .pure Status.staticError

/-- The machine writes results only, and stops where one is refused. -/
theorem limited_onMachine (limits : Limits) (table : Table) {α : Type} {action : RunM α}
    (haction : (Pairing.limited outLimit).Tracks id action action) :
    (bounded outLimit errLimit late).Tracks (Ready outLimit errLimit late)
      (Ready outLimit errLimit late) id (onMachine limits table action)
      (onMachine limits table action) := by
  constructor
  · intro c
    have hgrows := haction.grows { Machine.start c.out limits.clock with table }
    unfold onMachine
    dsimp only
    split <;> rename_i hrun <;> rw [hrun] at hgrows <;> exact ⟨hgrows, .refl c.err⟩
  · intro c c' h
    have hstart : Machine.Paired (.limited outLimit)
        { Machine.start c.out limits.clock with table }
        { Machine.start c'.out limits.clock with table } :=
      ⟨(Store.relabel_same _).symm, rfl, rfl, fun _ => rfl, rfl, rfl, h.out⟩
    unfold onMachine
    dsimp only
    match action { Machine.start c.out limits.clock with table },
      action { Machine.start c'.out limits.clock with table }, haction.ends _ _ hstart with
    | _, _, .ok hm => exact .ok ⟨⟨hm.out, h.err⟩, h.quiet⟩
    | .error (.error e) m, _, .error hm => exact .ok ⟨⟨hm.out, h.err⟩, h.quiet⟩
    | .error .closed m, _, .error hm =>
      exact Ends.error (C := bounded _ _ _) (e := Interruption.closed) trivial
    | .error .outOfFuel m, _, .error hm =>
      exact Ends.error (C := bounded _ _ _) (e := Interruption.outOfFuel) trivial
    | .error .awaitingClock m, _, .error hm =>
      exact Ends.error (C := bounded _ _ _) (e := Interruption.awaitingClock) trivial
    | x, _, .cut hcut =>
      refine .cut (.out ?_ ?_ h.quiet)
      · split <;> exact hcut
      · split <;> exact .of_eq h.err.bytes

/-! ## Modes -/

theorem limited_listItems (render : Token → String) (items : List Item) :
    (bounded outLimit errLimit True).Tracks (Follows outLimit errLimit)
      (Follows outLimit errLimit) id (listItems render items) (listItems render items) := by
  induction items with
  | nil => exact .pure ()
  | cons item items ih =>
    cases item with
    | ok t =>
      exact ((limited_writeOut (render t)).mono (fun _ _ h => h.ready)
        fun _ _ h => h.toFollows).bind fun _ => ih
    | error d => exact (limited_writeErr d.text).bind fun _ => ih

/-- Whether diagnostics can be written before results. -/
def isListing : Mode → Prop
  | .tokenize _ => True
  | _ => False

/-- Every mode on limited sinks goes with the same mode on unlimited ones. -/
theorem limited_perform (limits : Limits) (mode : Mode) (source : String) :
    (bounded outLimit errLimit mode.isListing).Tracks
      (Ready outLimit errLimit mode.isListing) (Follows outLimit errLimit) id
      (perform limits mode source) (perform limits mode source) := by
  cases mode with
  | tokenize json =>
    exact ((limited_listItems _ (scan source)).mono (fun _ _ h => h.toFollows)
      fun _ _ h => h).bind fun _ => .pure _
  | parse =>
    show (bounded _ _ _).Tracks _ _ id (parseSource source) (parseSource source)
    unfold parseSource
    split
    · exact limited_reportStatic _
    · exact limited_answer _ _
  | evaluate =>
    show (bounded _ _ _).Tracks _ _ id (evaluateSource limits source) (evaluateSource limits source)
    unfold evaluateSource
    split
    · exact limited_reportStatic _
    · next e table _ =>
      have hshown : (Pairing.limited outLimit).Tracks id
          (do let v ← Lox.evaluate limits.fuel e; RunM.inspect v.text)
          (do let v ← Lox.evaluate limits.fuel e; RunM.inspect v.text) := by
        refine (limited_evaluate outLimit limits.fuel e).bind fun v => ?_
        rw [Value.relabel_same]
        exact .inspect fun s => congrArg v.text s.relabel_same
      refine (limited_onMachine limits table hshown).bind fun ending => ?_
      cases ending with
      | ok text => exact limited_answer _ _
      | error e => exact limited_complaint _ _
  | run =>
    show (bounded _ _ _).Tracks _ _ id (runSource limits source) (runSource limits source)
    unfold runSource
    split
    · exact limited_reportStatic _
    · next program table _ =>
      refine (limited_onMachine limits table
        (limited_interpret outLimit limits.fuel program)).bind fun ending => ?_
      cases ending with
      | ok _ => exact (Tracks.pure Status.success).mono (fun _ _ h => h) fun _ _ h => h.toFollows
      | error e => exact limited_complaint _ _

/-! ## Main statement -/

/-- Where a mode ends with a status on sinks that take everything, it does the same on
    limited sinks that have room for what it writes.  On others it ends with the failure
    of a sink, never with a status: what was taken is the beginning of what would have
    been written, and the sink that refused holds as much as its limit.  Only a listing
    of tokens can have written a diagnostic before a result is refused: a refusal while
    a program runs is never reported as a fault of the program. -/
theorem perform_limited {limits : Limits} {mode : Mode} {source : String} {status : Status}
    {c : Channels}
    (h : perform limits mode source ⟨.unlimited, .unlimited⟩ = .ok status c)
    (outLimit errLimit : Option Nat) :
    (Sink.Within outLimit c.out.bytes.size ∧ Sink.Within errLimit c.err.bytes.size →
      perform limits mode source ⟨.ofLimit outLimit, .ofLimit errLimit⟩ =
        .ok status ⟨⟨outLimit, c.out.bytes⟩, ⟨errLimit, c.err.bytes⟩⟩) ∧
    (¬(Sink.Within outLimit c.out.bytes.size ∧ Sink.Within errLimit c.err.bytes.size) →
      ∃ c', perform limits mode source ⟨.ofLimit outLimit, .ofLimit errLimit⟩ =
          .error .closed c' ∧ c'.out.Begins c.out ∧ c'.err.Begins c.err ∧
        (c.out.Refused outLimit c'.out ∧ (mode.isListing ∨ c'.err.bytes = .empty) ∨
          c.err.Refused errLimit c'.err)) := by
  have hempty (limit : Option Nat) : Sink.unlimited.Follows limit (.ofLimit limit) :=
    ⟨rfl, rfl, rfl, fun most _ => Nat.zero_le most⟩
  have hstart : Ready outLimit errLimit mode.isListing ⟨.unlimited, .unlimited⟩
      ⟨.ofLimit outLimit, .ofLimit errLimit⟩ :=
    ⟨⟨hempty outLimit, hempty errLimit⟩, .inr rfl⟩
  have hends := (limited_perform limits mode source).ends _ _ hstart
  rw [h] at hends
  generalize hrun : perform limits mode source ⟨.ofLimit outLimit, .ofLimit errLimit⟩ = x at hends
  cases hends with
  | @ok _ _ c' hsame =>
    refine ⟨fun _ => ?_, fun hlong => absurd ⟨hsame.out.within, hsame.err.within⟩ hlong⟩
    obtain ⟨⟨limit, bytes⟩, ⟨limit', bytes'⟩⟩ := c'
    obtain ⟨⟨_, rfl, rfl, _⟩, ⟨_, rfl, rfl, _⟩⟩ := hsame
    rfl
  | @cut _ c' hcut =>
    cases hcut with
    | out hout herr hquiet =>
      exact ⟨fun hfits => absurd hfits.1 hout.not_within,
        fun _ => ⟨c', rfl, hout.begins, herr, .inl ⟨hout, hquiet⟩⟩⟩
    | err herr hout =>
      exact ⟨fun hfits => absurd hfits.2 herr.not_within,
        fun _ => ⟨c', rfl, hout, herr.begins, .inr herr⟩⟩

/-- Two lines of three bytes on a sink for four bytes: the second line is cut. -/
theorem perform_limited_second_line :
    ∃ c', perform ⟨fun _ => none, 1⟩ .run "print \"ab\";print \"cd\";"
        ⟨.ofLimit (some 4), .ofLimit none⟩ = .error .closed c' ∧
      c'.out.bytes.size = 4 ∧ c'.err.bytes = .empty := by
  have hrun : perform ⟨fun _ => none, 1⟩ .run "print \"ab\";print \"cd\";"
      ⟨.unlimited, .unlimited⟩ = .ok .success ⟨⟨none, "ab\ncd\n".toUTF8⟩, .unlimited⟩ := by cbv
  have hlong : ¬Sink.Within (some 4) "ab\ncd\n".toUTF8.size := by decide
  obtain ⟨c', hclosed, _, _, ⟨hout, hquiet⟩ | herr⟩ :=
    (perform_limited hrun (some 4) none).2 fun hfits => hlong hfits.1
  · exact ⟨c', hclosed, (Option.some.inj hout.full).symm, hquiet.resolve_left id⟩
  · cases herr.full

end Mode

end Lox
