/-
  Lox.Proofs.Parsing.Recovery

  A statement that is given up leaves no trace in what comes behind it.

    * `EndsAtSemicolon` — a stretch that ends with its only semicolon, and in which there
      is no other place where reading could start anew;
    * `skipToBoundary_semicolon`, `afterFault_semicolon` — skipping stops right behind that
      semicolon;
    * `Places.upTo` — positions in such a stretch, alone and before other tokens;
    * `Parser.joined` — the results of two texts, one behind the other;
    * `parseProgram_append` — such a stretch before a program gives both results.

  Inside the stretch the two runs see the same tokens, as the end mark of the first one is
  behind the semicolon.  Behind it the second one is where a run on the rest alone starts,
  apart from the faults already found and the numbers already used.
-/
import Lox.Proofs.Parsing.Ends

namespace Lox

/-! ## Stretches -/

/-- A stretch that ends with its only semicolon.  It has no end mark, block or `for` in it,
    and a word that begins a statement only at its start. -/
structure EndsAtSemicolon (s : List Token) : Prop where
  semicolon : ∃ front last, s = front ++ [last] ∧ last.kind = .symbol .semicolon ∧
    ∀ t ∈ front, t.kind ≠ .symbol .semicolon
  open_ : ∀ t ∈ s, t.kind ≠ .eof ∧ t.kind ≠ .symbol .leftBrace ∧ t.kind ≠ .keyword .forWord
  words : ∀ t ∈ s.tail, Parser.startsStatement t.kind = false

theorem EndsAtSemicolon.ne_nil {s : List Token} (h : EndsAtSemicolon s) : s ≠ [] := by
  obtain ⟨front, last, rfl, -⟩ := h.semicolon
  simp

/-- Tokens of such a stretch are left. -/
theorem EndsAtSemicolon.tail {t : Token} {ts : List Token} (h : EndsAtSemicolon (t :: ts))
    (ht : t.kind ≠ .symbol .semicolon) : EndsAtSemicolon ts := by
  obtain ⟨front, last, hs, hlast, hfront⟩ := h.semicolon
  refine ⟨?_, fun u hu => h.open_ u (List.mem_cons_of_mem _ hu),
    fun u hu => h.words u (List.mem_of_mem_tail hu)⟩
  cases front with
  | nil =>
    cases hs
    exact absurd hlast ht
  | cons u front =>
    cases hs
    exact ⟨front, last, rfl, hlast, fun v hv => hfront v (List.mem_cons_of_mem _ hv)⟩

/-- Nothing is behind the semicolon. -/
theorem EndsAtSemicolon.tail_eq_nil {t : Token} {ts : List Token} (h : EndsAtSemicolon (t :: ts))
    (ht : t.kind = .symbol .semicolon) : ts = [] := by
  obtain ⟨front, last, hs, -, hfront⟩ := h.semicolon
  cases front with
  | nil =>
    cases hs
    rfl
  | cons u front =>
    cases hs
    exact absurd ht (hfront t List.mem_cons_self)

namespace Parser

/-! ## Skipping -/

/-- Behind a semicolon skipping stops at once. -/
theorem skipToBoundary_semicolon {last : Token} (hlast : last.kind = .symbol .semicolon)
    (tail : List Token) : skipToBoundary last tail = tail := by
  cases tail with
  | nil => rfl
  | cons t ts => simp [skipToBoundary, hlast]

/-- Skipping goes on up to the semicolon and stops behind it. -/
theorem skipToBoundary_append {ts : List Token} (h : EndsAtSemicolon ts) {last : Token}
    (hlast : last.kind ≠ .symbol .semicolon) (hwords : ∀ t ∈ ts, startsStatement t.kind = false)
    (tail : List Token) : skipToBoundary last (ts ++ tail) = tail := by
  induction ts generalizing last with
  | nil => exact absurd rfl h.ne_nil
  | cons t ts ih =>
    have hgoes : (decide (last.kind = .symbol .semicolon) || startsStatement t.kind) = false := by
      rw [hwords t List.mem_cons_self, Bool.or_false, decide_eq_false hlast]
    rw [List.cons_append, skipToBoundary, hgoes, if_neg Bool.false_ne_true]
    by_cases ht : t.kind = .symbol .semicolon
    · rw [h.tail_eq_nil ht]
      exact skipToBoundary_semicolon ht tail
    · exact ih (h.tail ht) ht fun u hu => hwords u (List.mem_cons_of_mem _ hu)

/-- Wherever in the stretch a fault comes up, reading starts anew right behind it.  The first
    token is skipped whatever it is, be it the semicolon or a word that begins a statement. -/
theorem afterFault_append {ts : List Token} (h : EndsAtSemicolon ts) (tail : List Token) :
    afterFault (ts ++ tail) = tail := by
  cases ts with
  | nil => exact absurd rfl h.ne_nil
  | cons t ts =>
    rw [List.cons_append, afterFault]
    by_cases ht : t.kind = .symbol .semicolon
    · rw [h.tail_eq_nil ht]
      exact skipToBoundary_semicolon ht tail
    · exact skipToBoundary_append (h.tail ht) ht h.words tail

end Parser

/-! ## Positions -/

/-- Positions in a stretch, alone and before `tail`. -/
structure ParseState.Within (tail : List Token) (s s' : ParseState) : Prop
    extends ParseState.Beside #[] s s' where
  stretch : EndsAtSemicolon s.rest
  rest : s'.rest = s.rest ++ tail

/-- Positions behind the stretch. -/
structure ParseState.Behind (tail : List Token) (s s' : ParseState) : Prop
    extends ParseState.Beside #[] s s' where
  stretch : s.rest = []
  rest : s'.rest = tail

namespace ParseState.Within

variable {tail : List Token} {s s' : ParseState} {t t' : Token} {ts ts' : List Token}

/-- The next token is the same, and is one of the stretch. -/
theorem cons (h : s.Within tail s') : ∃ t ts, s.rest = t :: ts ∧ s'.rest = t :: (ts ++ tail) := by
  have hrest := h.rest
  cases hs : s.rest with
  | nil => exact absurd hs h.stretch.ne_nil
  | cons t ts =>
    rw [hs] at hrest
    exact ⟨t, ts, rfl, hrest⟩

theorem tail_eq_append (h : s.Within tail s') (hs : s.rest = t :: ts)
    (hs' : s'.rest = t' :: ts') : ts' = ts ++ tail := by
  rw [h.rest, hs] at hs'
  cases hs'
  rfl

theorem heads (h : s.Within tail s') : Option.Rel Eq s.rest.head? s'.rest.head? := by
  obtain ⟨t, ts, hs, hs'⟩ := h.cons
  rw [hs, hs']
  exact .some rfl

/-- Behind the semicolon nothing of the stretch is left. -/
theorem finish (h : s.Within tail s') (hs : s.rest = t :: ts) (hs' : s'.rest = t' :: ts')
    (ht : t.kind = .symbol .semicolon) :
    ParseState.Behind tail { s with rest := ts } { s' with rest := ts' } := by
  have hnil := (hs ▸ h.stretch).tail_eq_nil ht
  refine ⟨⟨h.ending, h.ending', h.loops, h.faults⟩, hnil, ?_⟩
  show ts' = tail
  rw [h.tail_eq_append hs hs', hnil, List.nil_append]

/-- Neither a block nor a `for` is in the stretch. -/
theorem not_inside (h : s.Within tail s') (ht : s.rest.head? = some t) :
    ¬(t.kind = .symbol .leftBrace ∨ t.kind = .keyword .forWord) := by
  have hopen := h.stretch.open_ t (List.mem_of_head? ht)
  exact not_or.mpr hopen.2

/-- Nor is anything left of it behind a fault. -/
theorem recover (h : s.Within tail s') (d : Diagnostic) :
    ParseState.Behind tail
      { s with faults := s.faults.push d, rest := Parser.afterFault s.rest }
      { s' with faults := s'.faults.push d, rest := Parser.afterFault s'.rest } := by
  refine ⟨⟨h.ending, h.ending', h.loops, h.toBeside.push d⟩, ?_, ?_⟩
  · have hskipped := Parser.afterFault_append h.stretch []
    rwa [List.append_nil] at hskipped
  · show Parser.afterFault s'.rest = tail
    rw [h.rest, Parser.afterFault_append h.stretch]

end ParseState.Within

theorem ParseState.Behind.not_else {tail : List Token} {s s' : ParseState}
    (h : s.Behind tail s') (htail : ∀ t ∈ tail.head?, t.kind ≠ .keyword .elseWord) :
    (∀ t ∈ s.rest.head?, t.kind ≠ .keyword .elseWord) ∧
      ∀ t ∈ s'.rest.head?, t.kind ≠ .keyword .elseWord := by
  rw [h.stretch, h.rest]
  exact ⟨by simp, htail⟩

/-- Positions in a stretch, alone and before tokens that do not begin with `else`. -/
def Places.upTo {tail : List Token} (htail : ∀ t ∈ tail.head?, t.kind ≠ .keyword .elseWord) :
    Places .unnumbered where
  here := ParseState.Within tail
  behind := ParseState.Behind tail
  fault := Eq
  ending h := ⟨h.ending, h.ending'⟩
  heads h := h.heads
  ends h hs := absurd hs h.stretch.ne_nil
  read h hs hs' ht :=
    ⟨⟨h.ending, h.ending', h.loops, h.faults⟩, (hs ▸ h.stretch).tail ht,
      h.tail_eq_append hs hs'⟩
  finish h hs hs' ht := h.finish hs hs' ht
  diagnostic := @Parser.diagnostic_congr
  report {s s' d d'} h hd :=
    ⟨⟨h.ending, h.ending', h.loops, hd ▸ h.toBeside.push d⟩, h.stretch, h.rest⟩
  number h := ⟨⟨h.ending, h.ending', h.loops, h.faults⟩, h.stretch, h.rest⟩
  use _ hn := congrArg (Occurrence.mk 0) hn
  word _ hg := congrArg (Occurrence.mk 0) hg
  loops h := h.loops
  here_loops _ h := ⟨⟨h.ending, h.ending', rfl, h.faults⟩, h.stretch, h.rest⟩
  behind_loops _ h := ⟨⟨h.ending, h.ending', rfl, h.faults⟩, h.stretch, h.rest⟩
  otherwise h := .inr (h.not_else htail)
  inside h ht hkind := absurd hkind (h.not_inside ht)
  recover {s s' d d'} h hd := by
    cases show d = d' from hd
    exact h.recover d

namespace Parser

variable {earlier : Array Diagnostic}

/-! ## Programs -/

/-- The results of two texts, one behind the other: the statements of both, or the faults of
    both. -/
def joined : Except (List Diagnostic) (List Stmt) → Except (List Diagnostic) (List Stmt) →
    Except (List Diagnostic) (List Stmt)
  | .ok p, .ok q => .ok (p ++ q)
  | .ok _, .error faults => .error faults
  | .error faults, .ok _ => .error faults
  | .error faults, .error more => .error (faults ++ more)

theorem joined_verdict (faults more : Array Diagnostic) (p q : List Stmt) :
    joined (verdict faults p) (verdict more q) = verdict (faults ++ more) (p ++ q) := by
  by_cases hfaults : faults = #[]
  · by_cases hmore : more = #[]
    · rw [hfaults, hmore]
      rfl
    · rw [hfaults, Array.empty_append, verdict_empty, verdict_of_ne hmore, verdict_of_ne hmore]
      rfl
  · have hboth : faults ++ more ≠ #[] := fun h => hfaults (Array.append_eq_empty_iff.mp h).1
    rw [verdict_of_ne hfaults, verdict_of_ne hboth, Array.toList_append]
    by_cases hmore : more = #[]
    · rw [hmore, verdict_empty, Array.toList_empty, List.append_nil]
      rfl
    · rw [verdict_of_ne hmore]
      rfl

/-- Statements that go on after others. -/
def GoesOnAfter (before p p' : List Stmt) : Prop :=
  Stmt.listUnnumbered p' = Stmt.listUnnumbered before ++ Stmt.listUnnumbered p

/-- A run that goes on after other statements and faults adds its own ones. -/
theorem outcome_joined {before : List Stmt} {k left : Nat}
    {r r' : EStateM.Result Diagnostic ParseState (List Stmt)}
    (h : Outcomes (Places.after earlier) (ParseState.After earlier) k left (GoesOnAfter before)
      r r') :
    (outcome r').map Stmt.listUnnumbered =
      joined (verdict earlier (Stmt.listUnnumbered before))
        ((outcome r).map Stmt.listUnnumbered) := by
  cases h with
  | @ok p p' t t' ht hp _ =>
    rw [outcome, outcome, verdict_map, verdict_map, joined_verdict, ht.faults,
      show Stmt.listUnnumbered p' = _ from hp]
  | @error e e' t t' ht he _ =>
    -- Where there is a fault, it does not matter which trees were made.
    have hmore : (outcome (.error e t)).map Stmt.listUnnumbered = verdict (t.faults.push e) [] := by
      rw [outcome, verdict_push]
      rfl
    rw [hmore, joined_verdict, ← Array.push_append, verdict_push, outcome, ht.faults,
      show e = e' from he]
    rfl

/-- What is left of a program behind its first statements. -/
def programFrom (n m : Nat) (before : Array Stmt) : Parser (List Stmt) := do
  return (← declarationsFrom (declaration n) false m before).toList

/-- A declaration reads its stretch in the same way whatever is behind it. -/
theorem declaration_behind {tail : List Token} {s s' : ParseState} (h : s.Within tail s')
    (htail : ∀ t ∈ tail.head?, t.kind ≠ .keyword .elseWord) {bound bound' : Nat}
    (hbound : s.rest.length < bound) (hbound' : s.rest.length < bound') :
    ∃ r r' t t', declaration bound s = .ok r t ∧ declaration bound' s' = .ok r' t' ∧
      t.Behind tail t' ∧ Option.Rel Likeness.unnumbered.stmt r r' := by
  obtain ⟨r, t, hrun⟩ := declaration_answers bound s
  obtain ⟨r', t', hrun'⟩ := declaration_answers bound' s'
  have hout := coupled_declarations (C := .upTo htail) hbound hbound' s s'
    ⟨h, h.stretch.ne_nil⟩ (Nat.lt_succ_self _)
  rw [hrun, hrun'] at hout
  cases hout with
  | ok hbehind hr _ => exact ⟨r, r', t, t', hrun, hrun', hbehind, hr⟩

/-- The first declaration of a program, and then the others. -/
theorem program_eq {n : Nat} {s t : ParseState} {r : Option Stmt} (hrest : s.rest ≠ [])
    (hrun : declaration (n + 1) s = .ok r t) :
    program (n + 1) s = programFrom (n + 1) n (r.elim #[] (Array.push #[])) t := by
  have hstep : declarationsFrom (declaration (n + 1)) false (n + 1) #[] s =
      declarationsFrom (declaration (n + 1)) false n (r.elim #[] (Array.push #[])) t := by
    rw [declarationsFrom]
    dsimp only
    cases hs : s.rest with
    | nil => exact absurd hs hrest
    | cons u us =>
      show EStateM.bind (declaration (n + 1)) _ s = _
      rw [EStateM.bind, hrun]
  show EStateM.bind (declarationsFrom _ false (n + 1) #[]) _ s = EStateM.bind _ _ t
  rw [EStateM.bind, hstep]
  rfl

/-- Behind the last token a program is as it was read so far. -/
theorem programFrom_end {n m : Nat} {s : ParseState} (hrest : s.rest = []) (before : Array Stmt) :
    programFrom n m before s = .ok before.toList s := by
  have hstep : declarationsFrom (declaration n) false m before s = .ok before s := by
    cases m with
    | zero => rfl
    | succ m =>
      rw [declarationsFrom]
      dsimp only
      rw [hrest]
  show EStateM.bind _ _ s = _
  rw [EStateM.bind, hstep]
  rfl

/-- A program that is read behind other statements is read as it would be alone. -/
theorem coupled_programFrom {n bound m : Nat} (hbound : n ≤ bound) (hm : n ≤ m)
    (before : Array Stmt) :
    Coupled (.after earlier) (ParseState.After earlier) (ParseState.After earlier) 0 n
      (GoesOnAfter before.toList) (program n) (programFrom bound m before) := by
  intro s s' hs hlt
  rw [← programWithin_eq default hs.ending (Nat.succ_lt_succ hlt) hlt]
  have hread : Gathered (Likeness.unnumbered).stmt before.toList #[] before :=
    ⟨[], (List.append_nil _).symm, .nil⟩
  have hone := (coupled_statements (x := default) (C := .after earlier) (Nat.lt_succ_self n)
    hbound).2
  have hdeclarations := coupled_declarationsFrom (x := default) Places.after_closed false hone
    (Nat.le_succ n) hm hread
  refine hdeclarations.bind (fun a a' ha => .pure ?_) s s' hs hlt
  obtain ⟨read, ha', hrel⟩ := ha
  unfold GoesOnAfter
  rw [ha', Stmt.listUnnumbered_eq_map, Stmt.listUnnumbered_eq_map, Stmt.listUnnumbered_eq_map,
    List.map_append, map_eq_of_forall₂ hrel]

/-- What was read of a first declaration is the same apart from numbers. -/
theorem listUnnumbered_elim {r r' : Option Stmt} (h : Option.Rel Likeness.unnumbered.stmt r r') :
    Stmt.listUnnumbered (r'.elim #[] (Array.push #[])).toList =
      Stmt.listUnnumbered (r.elim #[] (Array.push #[])).toList := by
  cases h with
  | none => rfl
  | some hs => exact congrArg ([·]) hs.symm

/-- A program behind a stretch that ends with its only semicolon. -/
theorem program_append {s tail : List Token} (h : EndsAtSemicolon s)
    (htail : ∀ t ∈ tail.head?, t.kind ≠ .keyword .elseWord) {mark ending : Token}
    (hmark : mark.kind = .eof) (hending : ending.kind = .eof) (id id₁ id₂ : Nat) :
    (outcome (program ((s ++ tail).length + 1) ⟨s ++ tail, ending, 0, #[], id⟩)).map
        Stmt.listUnnumbered =
      joined
        ((outcome (program (s.length + 1) ⟨s, mark, 0, #[], id₁⟩)).map Stmt.listUnnumbered)
        ((outcome (program (tail.length + 1) ⟨tail, ending, 0, #[], id₂⟩)).map
          Stmt.listUnnumbered) := by
  let first : ParseState := ⟨s, mark, 0, #[], id₁⟩
  let second : ParseState := ⟨tail, ending, 0, #[], id₂⟩
  let both : ParseState := ⟨s ++ tail, ending, 0, #[], id⟩
  have hlength : (s ++ tail).length = s.length + tail.length := List.length_append
  have hpos : 0 < s.length := List.length_pos_iff.mpr h.ne_nil
  -- The first declaration ends behind the stretch in both runs, with the same faults.
  have hwithin : first.Within tail both :=
    ⟨⟨hmark, hending, rfl, (Array.empty_append ..).symm⟩, h, rfl⟩
  obtain ⟨r, r', t, t', hrun, hrun', hbehind, hr⟩ :=
    declaration_behind hwithin htail (Nat.lt_succ_self s.length)
      (show s.length < (s ++ tail).length + 1 by omega)
  have hfaults : t'.faults = t.faults := by rw [hbehind.faults, Array.empty_append]
  have hfirst : program (s.length + 1) first = .ok (r.elim #[] (Array.push #[])).toList t := by
    rw [program_eq h.ne_nil hrun, programFrom_end hbehind.stretch]
  have hboth : program ((s ++ tail).length + 1) both =
      programFrom ((s ++ tail).length + 1) (s ++ tail).length (r'.elim #[] (Array.push #[])) t' :=
    program_eq (by simp [both, h.ne_nil]) hrun'
  -- The other run is then where one on the rest alone begins.
  have hadv := declaration_advances hrun'
  have hafter : second.After t'.faults t' :=
    ⟨⟨hending, hadv.ending ▸ hending, hadv.loops, (Array.append_empty ..).symm⟩, hbehind.rest,
      hadv.ending⟩
  have hout := coupled_programFrom (show tail.length + 1 ≤ (s ++ tail).length + 1 by omega)
    (show tail.length + 1 ≤ (s ++ tail).length by omega) (r'.elim #[] (Array.push #[])) second t'
    hafter (Nat.lt_succ_self _)
  rw [hfirst, hboth, outcome_joined hout, outcome, verdict_map, hfaults, listUnnumbered_elim hr]

end Parser

/-! ## Token lists -/

section

variable {s : List Token} (h : ∀ t ∈ s, t.kind ≠ .eof) (ts : List Token)
include h

theorem beforeEnd_append : beforeEnd (s ++ ts) = s ++ beforeEnd ts :=
  List.takeWhile_append_of_pos fun t ht => decide_eq_true (h t ht)

theorem endMark_append : endMark (s ++ ts) = endMark ts := by
  unfold endMark
  rw [List.dropWhile_append_of_pos fun t ht => decide_eq_true (h t ht)]

end

/-- The parser begins with the first token of a list, if it is no end mark. -/
theorem head?_beforeEnd {tokens : List Token} {t : Token} (h : t ∈ (beforeEnd tokens).head?) :
    t ∈ tokens.head? := by
  cases tokens with
  | nil => exact h
  | cons u us =>
    unfold beforeEnd at h
    rw [List.takeWhile_cons] at h
    split at h
    · exact h
    · cases h

/-! ## Statement by statement -/

/-- A bad statement does not hide or disturb the faults behind it: a stretch that ends with
    its only semicolon, before a program, gives the faults of both, in this order, or the
    statements of both. -/
theorem parseProgram_append {s rest : List Token} (h : EndsAtSemicolon s)
    (hrest : ∃ t, rest.getLast? = some t ∧ t.kind = .eof)
    (helse : ∀ t ∈ rest.head?, t.kind ≠ .keyword .elseWord) {mark : Token}
    (hmark : mark.kind = .eof) (id id₁ id₂ : Nat) :
    (parseProgram (s ++ rest) id).result.map Stmt.listUnnumbered =
      Parser.joined ((parseProgram (s ++ [mark]) id₁).result.map Stmt.listUnnumbered)
        ((parseProgram rest id₂).result.map Stmt.listUnnumbered) := by
  obtain ⟨last, hlast, hlastKind⟩ := hrest
  have hended : rest = [] ∨ ∃ t ∈ rest, t.kind = .eof :=
    .inr ⟨last, List.mem_of_getLast? hlast, hlastKind⟩
  have hended₁ : s ++ [mark] = [] ∨ ∃ t ∈ s ++ [mark], t.kind = .eof :=
    .inr ⟨mark, by simp, hmark⟩
  have hended' : s ++ rest = [] ∨ ∃ t ∈ s ++ rest, t.kind = .eof :=
    .inr ⟨last, List.mem_append_right s (List.mem_of_getLast? hlast), hlastKind⟩
  have hmarks : ∀ t ∈ s, t.kind ≠ .eof := fun t ht => (h.open_ t ht).1
  have htail : ∀ t ∈ (beforeEnd rest).head?, t.kind ≠ .keyword .elseWord :=
    fun t ht => helse t (head?_beforeEnd ht)
  unfold parseProgram
  rw [Parser.runOn_result, Parser.runOn_result, Parser.runOn_result,
    ParseState.ofTokens_eq hended, ParseState.ofTokens_eq hended₁, ParseState.ofTokens_eq hended',
    beforeEnd_append hmarks, beforeEnd_append hmarks, endMark_append hmarks, endMark_append hmarks]
  have halone : beforeEnd [mark] = [] := by simp [beforeEnd, hmark]
  have hkind : (endMark [mark]).kind = .eof := endMark_kind (.inr ⟨mark, by simp, hmark⟩)
  rw [halone, List.append_nil]
  exact Parser.program_append h htail hkind (endMark_kind hended) id id₁ id₂

/-- In `var ; print ;` a fault in either statement is found. -/
theorem parseProgram_append_faults :
    (parseProgram ([⟨.keyword .varWord, "var", 1⟩, ⟨.symbol .semicolon, ";", 1⟩] ++
        [⟨.keyword .printWord, "print", 2⟩, ⟨.symbol .semicolon, ";", 2⟩,
          ⟨.eof, "", 2⟩]) 0).result.map Stmt.listUnnumbered =
      .error [Parser.diagnostic ⟨.symbol .semicolon, ";", 1⟩ .variableName,
        Parser.diagnostic ⟨.symbol .semicolon, ";", 2⟩ .expression] := by
  have hfirst : EndsAtSemicolon
      [⟨.keyword .varWord, "var", 1⟩, ⟨.symbol .semicolon, ";", 1⟩] :=
    ⟨⟨[⟨.keyword .varWord, "var", 1⟩], _, rfl, rfl, by simp⟩, by simp,
      by simp [Parser.startsStatement]⟩
  have hmark : (Token.mk .eof "" 1).kind = .eof := rfl
  rw [parseProgram_append hfirst ⟨_, rfl, rfl⟩ (by simp) hmark 0 0 0]
  rfl

end Lox
