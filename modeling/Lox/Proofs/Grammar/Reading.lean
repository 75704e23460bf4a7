/-
  Lox.Proofs.Grammar.Reading

  What a step of a parser reads, and how that is put together from what its parts
  read.

    * `ParseState.Advances` — what holds between the positions before and after
      every step: tokens only get fewer, faults and numbers only more;
    * `Parser.Reads n p P` — the step `p` advances, and `P` holds of the stretch it
      read and of its answer, when no fault came up, the list ends in an end mark
      and fewer than `n` tokens were left;
    * `Reads.bind`, `Reads.bindAfter` — one step after another; the second lets the
      later step count on fewer tokens.

  Each single step has a rule of its own for what comes after it, such as
  `Reads.bindToken` for one that reads a token.
-/
import Lox.Parser.Statement

namespace Lox

/-! ## Positions -/

/-- The second position is one that reading from the first can lead to. -/
structure ParseState.Advances (s t : ParseState) : Prop where
  rest : t.rest <:+ s.rest
  ending : t.ending = s.ending
  loops : t.loops = s.loops
  faults : s.faults.toList <+: t.faults.toList
  nextId : s.nextId ≤ t.nextId

namespace ParseState.Advances

theorem refl (s : ParseState) : s.Advances s :=
  ⟨List.suffix_rfl, rfl, rfl, List.prefix_rfl, Nat.le_refl _⟩

theorem trans {s t u : ParseState} (hst : s.Advances t) (htu : t.Advances u) : s.Advances u :=
  ⟨htu.rest.trans hst.rest, htu.ending.trans hst.ending, htu.loops.trans hst.loops,
    hst.faults.trans htu.faults, Nat.le_trans hst.nextId htu.nextId⟩

/-- If no fault came up on the whole way, none came up on its first part. -/
theorem faults_first {s t u : ParseState} (hst : s.Advances t) (htu : t.Advances u)
    (h : u.faults = s.faults) : t.faults = s.faults := by
  have hback := htu.faults
  rw [h] at hback
  have hlength := Nat.le_antisymm hback.length_le hst.faults.length_le
  exact Array.toList_inj.mp (hback.eq_of_length hlength)

end ParseState.Advances

/-- A stretch of tokens that was read: what is in it and behind it, the number of
    loops around it, and the numbers that the first occurrence in it and the first
    one behind it get. -/
structure Stretch where
  loops : Nat
  read : List Token
  rest : List Token
  first : Nat
  next : Nat

namespace Parser

/-- `p` advances, and without faults its answer and what it read satisfy `P`. -/
def Reads {α : Type} (n : Nat) (p : Parser α) (P : Stretch → α → Prop) : Prop :=
  ∀ s, match p s with
    | .ok a t => s.Advances t ∧
        (s.ending.kind = .eof → s.rest.length < n → t.faults = s.faults →
          ∃ read, s.rest = read ++ t.rest ∧ P ⟨s.loops, read, t.rest, s.nextId, t.nextId⟩ a)
    | .error _ t => s.Advances t

namespace Reads

variable {α β : Type} {n : Nat} {p : Parser α}

theorem mono {P Q : Stretch → α → Prop} (h : Reads n p P) (hPQ : ∀ w a, P w a → Q w a) :
    Reads n p Q := by
  intro s
  have hs := h s
  cases hp : p s with
  | error e t =>
    rw [hp] at hs
    exact hs
  | ok a t =>
    rw [hp] at hs
    refine ⟨hs.1, fun hend hlt hfaults => ?_⟩
    obtain ⟨read, hread, ha⟩ := hs.2 hend hlt hfaults
    exact ⟨read, hread, hPQ _ _ ha⟩

theorem shorter {m : Nat} {P : Stretch → α → Prop} (h : Reads n p P) (hmn : m ≤ n) :
    Reads m p P := by
  intro s
  have hs := h s
  cases hp : p s with
  | error e t =>
    rw [hp] at hs
    exact hs
  | ok a t =>
    rw [hp] at hs
    exact ⟨hs.1, fun hend hlt => hs.2 hend (Nat.lt_of_lt_of_le hlt hmn)⟩

/-- One step after another.  `k` is what the first one reads at least, so that the
    second one finds fewer tokens; what is wanted of both is asked of the second. -/
theorem bindAfter (k : α → Nat) {f : α → Parser β} {P : Stretch → α → Prop}
    {R : Stretch → β → Prop} (hp : Reads n p P) (hk : ∀ w a, P w a → k a ≤ w.read.length)
    (hf : ∀ a, Reads (n - k a) (f a) fun w b => ∀ read first,
      P ⟨w.loops, read, w.read ++ w.rest, first, w.first⟩ a →
      R ⟨w.loops, read ++ w.read, w.rest, first, w.next⟩ b) :
    Reads n (p >>= f) R := by
  intro s
  show match EStateM.bind p f s with | .ok a t => _ | .error _ t => _
  rw [EStateM.bind]
  have hs := hp s
  cases hps : p s with
  | error e t =>
    rw [hps] at hs
    exact hs
  | ok a t =>
    rw [hps] at hs
    obtain ⟨hadv, hread⟩ := hs
    have ht := hf a t
    dsimp only
    cases hft : f a t with
    | error e u =>
      rw [hft] at ht
      exact hadv.trans ht
    | ok b u =>
      rw [hft] at ht
      obtain ⟨hadv', hread'⟩ := ht
      refine ⟨hadv.trans hadv', fun hend hlt hfaults => ?_⟩
      have hfirst := hadv.faults_first hadv' hfaults
      obtain ⟨read₁, hrest, ha⟩ := hread hend hlt hfirst
      have hlength := congrArg List.length hrest
      have hsize := hk _ _ ha
      simp only [List.length_append] at hlength hsize
      obtain ⟨read₂, hrest', hb⟩ := hread' (hadv.ending ▸ hend) (by omega)
        (hfaults.trans hfirst.symm)
      rw [hadv.loops] at hb
      refine ⟨read₁ ++ read₂, by rw [hrest, hrest', List.append_assoc], hb read₁ s.nextId ?_⟩
      rw [hrest'] at ha
      exact ha

theorem bind {f : α → Parser β} {P : Stretch → α → Prop} {R : Stretch → β → Prop}
    (hp : Reads n p P)
    (hf : ∀ a, Reads n (f a) fun w b => ∀ read first,
      P ⟨w.loops, read, w.read ++ w.rest, first, w.first⟩ a →
      R ⟨w.loops, read ++ w.read, w.rest, first, w.next⟩ b) :
    Reads n (p >>= f) R :=
  bindAfter (fun _ => 0) hp (fun _ _ _ => Nat.zero_le _) hf

end Reads

end Parser

/-! ## Single steps -/

/-- Nothing was read and no number used. -/
def Stretch.Empty (w : Stretch) : Prop := w.read = [] ∧ w.next = w.first

/-- One token was read and no number used. -/
def Stretch.Single (w : Stretch) (t : Token) : Prop := w.read = [t] ∧ w.next = w.first

/-- An answer with the token that was read, or none and then `C`. -/
def Stretch.AtMostOne {α : Type} (C : Stretch → Prop) (T : α → Token → Prop) (w : Stretch) :
    Option α → Prop
  | none => w.Empty ∧ C w
  | some a => ∃ t, w.Single t ∧ T a t

namespace TokenKind

theorem sameType_symbol {kind : TokenKind} {s : Symbol} :
    kind.sameType (.symbol s) = true ↔ kind = .symbol s := by
  cases kind <;> simp [sameType]

theorem sameType_keyword {kind : TokenKind} {k : Keyword} :
    kind.sameType (.keyword k) = true ↔ kind = .keyword k := by
  cases kind <;> simp [sameType]

theorem sameType_identifier {kind : TokenKind} :
    kind.sameType .identifier = true ↔ kind = .identifier := by
  cases kind <;> simp [sameType]

end TokenKind

namespace Parser

variable {α : Type} {n : Nat}

/-- A step that leaves the position as it is and answers `a` there. -/
theorem Reads.still {p : Parser α} {P : Stretch → α → Prop} (a : ParseState → α)
    (hp : ∀ s, p s = .ok (a s) s)
    (hP : ∀ s : ParseState, s.ending.kind = .eof → s.rest.length < n →
      P ⟨s.loops, [], s.rest, s.nextId, s.nextId⟩ (a s)) :
    Reads n p P := by
  intro s
  rw [hp]
  exact ⟨.refl s, fun hend hlt _ => ⟨[], rfl, hP s hend hlt⟩⟩

theorem reads_fail (fault : SyntaxFault) (P : Stretch → α → Prop) :
    Reads n (fail fault) P :=
  fun s => .refl s

/-- A reported fault is a fault. -/
theorem reads_report (t : Token) (fault : SyntaxFault) :
    Reads n (report t fault) fun _ _ => False := by
  intro s
  refine ⟨⟨List.suffix_rfl, rfl, rfl, by simp, Nat.le_refl _⟩, fun _ _ hfaults => ?_⟩
  have hsize := congrArg Array.size hfaults
  simp at hsize

theorem reads_get : Reads n (get : Parser ParseState) fun w s => w.Empty ∧ s.loops = w.loops :=
  .still id (fun _ => rfl) fun _ _ _ => ⟨⟨rfl, rfl⟩, rfl⟩

/-- At the end of a list the end mark is seen. -/
theorem reads_peek : Reads n peek fun w t =>
    w.Empty ∧ (w.rest.head? = some t ∨ w.rest = [] ∧ t.kind = .eof) := by
  refine .still ParseState.current (fun _ => rfl) fun s hend _ => ⟨⟨rfl, rfl⟩, ?_⟩
  unfold ParseState.current
  cases s.rest with
  | nil => exact .inr ⟨rfl, hend⟩
  | cons t rest => exact .inl rfl

theorem reads_check (kind : TokenKind) : Reads n (check kind) fun w b =>
    w.Empty ∧ b = w.rest.head?.any (·.kind.sameType kind) :=
  .still _ (fun _ => rfl) fun _ _ _ => ⟨⟨rfl, rfl⟩, rfl⟩

/-- A step that reads the next token. -/
theorem advances_tail {s : ParseState} {t : Token} {rest : List Token} (h : s.rest = t :: rest) :
    s.Advances { s with rest } := by
  refine ⟨?_, rfl, rfl, List.prefix_rfl, Nat.le_refl _⟩
  rw [h]
  exact List.suffix_cons t rest

theorem reads_take? {β : Type} (select : TokenKind → Option β) : Reads n (take? select)
    (Stretch.AtMostOne (fun w => ∀ t, w.rest.head? = some t → select t.kind = none)
      fun a t => a.2 = t ∧ select t.kind = some a.1) := by
  intro s
  unfold take?
  cases hrest : s.rest with
  | nil =>
    exact ⟨.refl s, fun _ _ _ => ⟨[], by simp [hrest], ⟨rfl, rfl⟩, by simp [hrest]⟩⟩
  | cons t rest =>
    dsimp only
    cases hselect : select t.kind with
    | none =>
      exact ⟨.refl s, fun _ _ _ =>
        ⟨[], by simp [hrest], ⟨rfl, rfl⟩, by simpa [hrest] using hselect⟩⟩
    | some b =>
      exact ⟨advances_tail hrest, fun _ _ _ => ⟨[t], rfl, t, ⟨rfl, rfl⟩, rfl, hselect⟩⟩

theorem reads_accept (kind : TokenKind) : Reads n (accept kind)
    (Stretch.AtMostOne (fun w => ∀ t, w.rest.head? = some t → t.kind.sameType kind = false)
      fun a t => a = t ∧ t.kind.sameType kind = true) := by
  intro s
  unfold accept
  cases hrest : s.rest with
  | nil =>
    exact ⟨.refl s, fun _ _ _ => ⟨[], by simp [hrest], ⟨rfl, rfl⟩, by simp [hrest]⟩⟩
  | cons t rest =>
    dsimp only
    cases hkind : t.kind.sameType kind with
    | false =>
      exact ⟨.refl s, fun _ _ _ => ⟨[], by simp [hrest], ⟨rfl, rfl⟩, by simpa [hrest] using hkind⟩⟩
    | true =>
      exact ⟨advances_tail hrest, fun _ _ _ => ⟨[t], rfl, t, ⟨rfl, rfl⟩, rfl, hkind⟩⟩

theorem reads_occurrence (name : Lexeme) : Reads n (occurrence name) fun w use =>
    w.read = [] ∧ use = ⟨w.first, name⟩ ∧ w.next = w.first + 1 := by
  intro s
  exact ⟨⟨List.suffix_rfl, rfl, rfl, List.prefix_rfl, Nat.le_succ _⟩,
    fun _ _ _ => ⟨[], rfl, rfl, rfl, rfl⟩⟩

/-- The count of loops is another one inside, and the same again afterwards. -/
theorem reads_withLoops {p : Parser α} {P : Stretch → α → Prop} (change : Nat → Nat)
    (hp : Reads n p P) :
    Reads n (withLoops change p) fun w a => P { w with loops := change w.loops } a := by
  intro s
  have hs := hp { s with loops := change s.loops }
  unfold withLoops
  cases hrun : p { s with loops := change s.loops } with
  | ok a t =>
    rw [hrun] at hs
    obtain ⟨hadv, hread⟩ := hs
    exact ⟨⟨hadv.rest, hadv.ending, rfl, hadv.faults, hadv.nextId⟩, hread⟩
  | error e t =>
    rw [hrun] at hs
    exact ⟨hs.rest, hs.ending, rfl, hs.faults, hs.nextId⟩

theorem skipToBoundary_suffix (last : Token) (ts : List Token) : skipToBoundary last ts <:+ ts := by
  induction ts generalizing last with
  | nil => exact List.suffix_rfl
  | cons t rest ih =>
    unfold skipToBoundary
    split
    · exact List.suffix_rfl
    · exact (ih t).trans (List.suffix_cons t rest)

theorem afterFault_suffix (ts : List Token) : afterFault ts <:+ ts := by
  cases ts with
  | nil => exact List.suffix_rfl
  | cons t rest => exact (skipToBoundary_suffix t rest).trans (List.suffix_cons t rest)

/-- A step that gave up leaves a fault. -/
theorem reads_recovering {p : Parser α} {P : Stretch → α → Prop} (hp : Reads n p P) :
    Reads n (recovering p) fun w r => ∃ a, r = some a ∧ P w a := by
  intro s
  have hs := hp s
  unfold recovering
  cases hrun : p s with
  | ok a t =>
    rw [hrun] at hs
    refine ⟨hs.1, fun hend hlt hfaults => ?_⟩
    obtain ⟨read, hrest, ha⟩ := hs.2 hend hlt hfaults
    exact ⟨read, hrest, a, rfl, ha⟩
  | error e t =>
    rw [hrun] at hs
    refine ⟨⟨(afterFault_suffix t.rest).trans hs.rest, hs.ending, hs.loops,
      hs.faults.trans (by simp), hs.nextId⟩, fun _ _ hfaults => ?_⟩
    have hsize := hs.faults.length_le
    rw [← hfaults] at hsize
    simp only [Array.toList_push, List.length_append, List.length_singleton] at hsize
    omega

/-! ## What comes after a single step -/

namespace Reads

variable {β : Type} {R : Stretch → β → Prop}

/-- The end of a rule. -/
theorem done (b : β) (h : ∀ loops rest id, R ⟨loops, [], rest, id, id⟩ b) :
    Reads n (Pure.pure b) R :=
  .still (fun _ => b) (fun _ => rfl) fun _ _ _ => h _ _ _

/-- A step that only looks. -/
theorem bindStill {p : Parser α} {f : α → Parser β} {C : Stretch → α → Prop}
    (hp : Reads n p fun w a => w.Empty ∧ C w a)
    (hf : ∀ a, Reads n (f a) fun w b =>
      C ⟨w.loops, [], w.read ++ w.rest, w.first, w.first⟩ a → R w b) :
    Reads n (p >>= f) R := by
  refine hp.bind fun a => (hf a).mono ?_
  rintro ⟨loops, read₂, rest, middle, next⟩ b h read first ⟨⟨hread, hnext⟩, ha⟩
  dsimp only at hread hnext h ha
  subst hread hnext
  exact h ha

/-- A step that reads one token. -/
theorem bindToken {p : Parser α} {f : α → Parser β} {T : α → Token → Prop}
    (hp : Reads n p fun w a => ∃ t, w.Single t ∧ T a t)
    (hf : ∀ a, Reads (n - 1) (f a) fun w b => ∀ t, T a t →
      R ⟨w.loops, t :: w.read, w.rest, w.first, w.next⟩ b) :
    Reads n (p >>= f) R := by
  refine hp.bindAfter (fun _ => 1) ?_ fun a => (hf a).mono ?_
  · rintro w a ⟨t, ⟨hread, _⟩, _⟩
    rw [hread]
    exact Nat.le_refl 1
  · rintro ⟨loops, read₂, rest, middle, next⟩ b h read first ⟨t, ⟨hread, hnext⟩, ha⟩
    dsimp only at hread hnext h ha
    subst hread hnext
    exact h t ha

/-- Reading the token that was just seen. -/
theorem bindAdvance {t : Token} {p : Parser β} (ht : t.kind ≠ .eof)
    (hp : Reads (n - 1) p fun w b => R ⟨w.loops, t :: w.read, w.rest, w.first, w.next⟩ b) :
    Reads n (advance >>= fun _ => p) fun w b =>
      ((w.read ++ w.rest).head? = some t ∨ w.read ++ w.rest = [] ∧ t.kind = .eof) → R w b := by
  intro s
  have hstep : (advance >>= fun _ => p) s = p { s with rest := s.rest.tail } := rfl
  have hadv : s.Advances { s with rest := s.rest.tail } :=
    ⟨List.tail_suffix _, rfl, rfl, List.prefix_rfl, Nat.le_refl _⟩
  have hs := hp { s with rest := s.rest.tail }
  rw [hstep]
  cases hrun : p { s with rest := s.rest.tail } with
  | error e u =>
    rw [hrun] at hs
    exact hadv.trans hs
  | ok b u =>
    rw [hrun] at hs
    obtain ⟨hadv', hread⟩ := hs
    refine ⟨hadv.trans hadv', fun hend hlt hfaults => ?_⟩
    cases hrest : s.rest with
    | nil =>
      have hu := hadv'.rest
      rw [hrest] at hu
      have hnil : u.rest = [] := List.suffix_nil.mp hu
      refine ⟨[], hnil.symm, ?_⟩
      rintro (hhead | ⟨_, heof⟩)
      · simp [hnil] at hhead
      · exact absurd heof ht
    | cons head tail =>
      rw [hrest] at hlt hread
      obtain ⟨read₂, htail, hb⟩ := hread hend (by simp at hlt ⊢; omega) hfaults
      refine ⟨head :: read₂, congrArg (head :: ·) htail, ?_⟩
      rintro (hhead | ⟨hnil, _⟩)
      · cases hhead
        exact hb
      · cases hnil

/-- A step that reads one token or none. -/
theorem bindOption {p : Parser (Option α)} {f : Option α → Parser β} {C : Stretch → Prop}
    {T : α → Token → Prop} (hp : Reads n p (Stretch.AtMostOne C T))
    (hnone : Reads n (f none) fun w b =>
      C ⟨w.loops, [], w.read ++ w.rest, w.first, w.first⟩ → R w b)
    (hsome : ∀ a, Reads (n - 1) (f (some a)) fun w b => ∀ t, T a t →
      R ⟨w.loops, t :: w.read, w.rest, w.first, w.next⟩ b) :
    Reads n (p >>= f) R := by
  refine hp.bindAfter (fun r => if r.isSome then 1 else 0) ?_ fun r => ?_
  · rintro w (_ | a) h
    · exact Nat.zero_le _
    · obtain ⟨t, ⟨hread, _⟩, _⟩ := h
      rw [hread]
      exact Nat.le_refl 1
  · cases r with
    | none =>
      refine hnone.mono ?_
      rintro ⟨loops, read₂, rest, middle, next⟩ b h read first ⟨⟨hread, hnext⟩, hC⟩
      dsimp only at hread hnext h hC
      subst hread hnext
      exact h hC
    | some a =>
      refine (hsome a).mono ?_
      rintro ⟨loops, read₂, rest, middle, next⟩ b h read first ⟨t, ⟨hread, hnext⟩, ha⟩
      dsimp only at hread hnext h ha
      subst hread hnext
      exact h t ha

end Reads

/-! ## Expected tokens -/

theorem reads_expect (kind : TokenKind) (fault : SyntaxFault) :
    Reads n (expect kind fault) fun w a =>
    ∃ t, w.Single t ∧ a = t ∧ t.kind.sameType kind = true := by
  refine (reads_accept kind).bindOption (reads_fail _ _) fun a => .done a fun loops rest id => ?_
  exact fun t ht => ⟨t, ⟨rfl, rfl⟩, ht⟩

theorem reads_expectSymbol (s : Symbol) (fault : SyntaxFault) :
    Reads n (expectSymbol s fault) fun w a => ∃ t, w.Single t ∧ a = t ∧ t.kind = .symbol s :=
  (reads_expect _ fault).mono fun _ _ ⟨t, hone, ha, hkind⟩ =>
    ⟨t, hone, ha, TokenKind.sameType_symbol.mp hkind⟩

theorem reads_expectName (fault : SyntaxFault) : Reads n (expectName fault) fun w a =>
    ∃ t, w.Single t ∧ a = t.toLexeme ∧ t.kind = .identifier := by
  refine (reads_expect .identifier fault).bindToken fun a =>
    .done a.toLexeme fun loops rest id => ?_
  exact fun t ⟨ha, hkind⟩ => ⟨t, ⟨rfl, rfl⟩, congrArg _ ha, TokenKind.sameType_identifier.mp hkind⟩

/-- A symbol that may be there or not. -/
theorem Reads.bindSymbol {β : Type} {R : Stretch → β → Prop} {s : Symbol} {f : Bool → Parser β}
    (hnone : Reads n (f false) fun w b =>
      (∀ t, (w.read ++ w.rest).head? = some t → t.kind ≠ .symbol s) → R w b)
    (hsome : Reads (n - 1) (f true) fun w b => ∀ t : Token, t.kind = .symbol s →
      R ⟨w.loops, t :: w.read, w.rest, w.first, w.next⟩ b) :
    Reads n (acceptSymbol s >>= f) R := by
  unfold acceptSymbol
  rw [bind_assoc]
  refine (reads_accept (.symbol s)).bindOption
    (hnone.mono fun w b h hhead => h fun t ht hkind => ?_)
    fun a => hsome.mono fun w b h t ⟨_, hkind⟩ => h t (TokenKind.sameType_symbol.mp hkind)
  have hsame := hhead t ht
  rw [TokenKind.sameType_symbol.mpr hkind] at hsame
  cases hsame

end Parser

end Lox
