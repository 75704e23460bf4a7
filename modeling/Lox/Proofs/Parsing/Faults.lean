/-
  Lox.Proofs.Parsing.Faults

  Where syntax faults stand.

    * `Diagnostic.StandsAmong` — a syntax fault at one of some tokens;
    * `Places.among` — one position, looked at twice, with only such tokens before it and
      only such faults behind it;
    * `Parser.faults_among` — all faults of a rule stand at tokens that it was given.

  The parser beside itself carries what is certain about single tokens from the list to
  the faults, so no rule is looked at here.
-/
import Lox.Proofs.Parsing.Ends

namespace Lox

/-- A syntax fault at a token with some property. -/
def Diagnostic.StandsAmong (P : Token → Prop) (d : Diagnostic) : Prop :=
  ∃ t cause, P t ∧ d = Parser.diagnostic t cause

/-- The same tokens, all with some property, and the same trees. -/
def Likeness.among (P : Token → Prop) : Likeness where
  token t t' := t = t' ∧ P t
  name := Eq
  sign := Eq
  use := Eq
  word := Eq
  expr := Eq
  stmt := Eq
  decl := Eq
  kind_eq h := by rw [h.1]
  name_of_token h _ := by rw [h.1]
  sign_of_token h _ := by rw [h.1]
  exprs := exprLaws_eq
  stmts := stmtLaws_eq

/-- A position in a list that ends in an end mark: every token from there on has the
    property, and so has every token at which a fault was reported before. -/
structure ParseState.Among (P : Token → Prop) (s : ParseState) : Prop where
  mark : s.ending.kind = .eof
  ending : P s.ending
  rest : ∀ t ∈ s.rest, P t
  faults : ∀ d ∈ s.faults, d.StandsAmong P

variable {P : Token → Prop}

theorem ParseState.Among.push {s : ParseState} {d : Diagnostic} (h : s.Among P)
    (hd : d.StandsAmong P) : ∀ d' ∈ s.faults.push d, d'.StandsAmong P := by
  intro d' hd'
  rcases Array.mem_push.mp hd' with hbefore | rfl
  · exact h.faults d' hbefore
  · exact hd

theorem ParseState.Among.suffix {s : ParseState} {ts : List Token} (h : s.Among P)
    (hts : ts <:+ s.rest) : ∀ t ∈ ts, P t :=
  fun t ht => h.rest t (hts.mem ht)

/-- One position, looked at twice, among tokens with a property. -/
def Places.among (P : Token → Prop) : Places (.among P) where
  here s s' := s = s' ∧ s.Among P
  behind s s' := s = s' ∧ s.Among P
  fault d d' := d = d' ∧ d.StandsAmong P
  ending h := ⟨h.2.mark, h.1 ▸ h.2.mark⟩
  heads {s s'} h := by
    obtain ⟨rfl, h⟩ := h
    cases hrest : s.rest with
    | nil => exact .none
    | cons t ts =>
      refine .some ⟨rfl, h.rest t ?_⟩
      rw [hrest]
      exact List.mem_cons_self
  ends h _ := ⟨congrArg ParseState.ending h.1, h.2.ending⟩
  read h hs hs' _ := by
    obtain ⟨rfl, h⟩ := h
    cases hs.symm.trans hs'
    exact ⟨rfl, h.mark, h.ending, h.suffix (hs ▸ List.suffix_cons _ _), h.faults⟩
  finish h hs hs' _ := by
    obtain ⟨rfl, h⟩ := h
    cases hs.symm.trans hs'
    exact ⟨rfl, h.mark, h.ending, h.suffix (hs ▸ List.suffix_cons _ _), h.faults⟩
  diagnostic cause h := ⟨by rw [h.1], _, cause, h.2, rfl⟩
  report h hd := ⟨by rw [h.1, hd.1], h.2.mark, h.2.ending, h.2.rest, h.2.push hd.2⟩
  number h := ⟨by rw [h.1], h.2.mark, h.2.ending, h.2.rest, h.2.faults⟩
  use h hn := congrArg₂ Occurrence.mk (congrArg ParseState.nextId h.1) hn
  word h hg := congrArg₂ Occurrence.mk (congrArg ParseState.nextId h.1) hg
  loops h := by rw [h.1]
  here_loops _ h := ⟨by rw [h.1], h.2.mark, h.2.ending, h.2.rest, h.2.faults⟩
  behind_loops _ h := ⟨by rw [h.1], h.2.mark, h.2.ending, h.2.rest, h.2.faults⟩
  otherwise h := .inl h
  inside _ _ _ _ _ := Iff.rfl
  recover h hd := by
    obtain ⟨rfl, h⟩ := h
    obtain ⟨rfl, hd⟩ := hd
    exact ⟨rfl, h.mark, h.ending, h.suffix (Parser.afterFault_suffix _), h.push hd⟩

theorem Places.among_closed : (Places.among P).Closed := fun _ _ => Iff.rfl

namespace Parser

variable {α : Type} {tokens : List Token} {nextId : Nat} {ds : List Diagnostic}

/-- All faults of a rule stand at tokens of the list, or at its end mark. -/
theorem faults_among {p : Nat → Parser α} {rel : α → α → Prop}
    (hp : ∀ n, Coupled (.among P) (Places.among P).here (Places.among P).here 0 n rel
      (p n) (p n))
    (hmark : ∃ t ∈ tokens, t.kind = .eof) (htokens : ∀ t ∈ tokens, P t)
    (h : (runOn p tokens nextId).result = .error ds) : ∀ d ∈ ds, d.StandsAmong P := by
  have hending : P (endMark tokens) := by
    refine htokens _ ((List.dropWhile_suffix (·.kind ≠ .eof)).mem ?_)
    unfold endMark
    rw [← List.cons_head_tail (dropWhile_ne_nil hmark)]
    exact List.mem_cons_self
  have hstart : (ParseState.ofTokens tokens nextId).Among P := by
    rw [ParseState.ofTokens_eq (.inr hmark)]
    exact ⟨endMark_kind (.inr hmark), hending,
      fun t ht => htokens t ((List.takeWhile_prefix _).mem ht), nofun⟩
  have hout := hp _ _ _ ⟨rfl, hstart⟩ (Nat.lt_succ_self _)
  rw [runOn_result] at h
  revert h
  generalize p _ (ParseState.ofTokens tokens nextId) = r at hout ⊢
  intro h
  cases hout with
  | @ok a a' t t' ht ha _ =>
    unfold outcome verdict at h
    dsimp only at h
    split at h
    · cases h
    · cases h
      exact fun d hd => ht.2.faults d (Array.mem_toList_iff.mp hd)
  | @error e e' t t' ht he _ =>
    cases h
    exact fun d hd => ht.2.push he.2 d (Array.mem_toList_iff.mp hd)

theorem parseProgram_faults_among (hmark : ∃ t ∈ tokens, t.kind = .eof)
    (htokens : ∀ t ∈ tokens, P t) (h : (parseProgram tokens nextId).result = .error ds) :
    ∀ d ∈ ds, d.StandsAmong P :=
  faults_among (fun n => coupled_programs Places.among_closed (Nat.le_refl n) (Nat.le_refl n))
    hmark htokens h

theorem parseExpression_faults_among (hmark : ∃ t ∈ tokens, t.kind = .eof)
    (htokens : ∀ t ∈ tokens, P t) (h : (parseExpression tokens nextId).result = .error ds) :
    ∀ d ∈ ds, d.StandsAmong P :=
  faults_among (fun n => coupled_expressions (Nat.le_succ n) (Nat.le_succ n)) hmark htokens h

end Parser

end Lox
