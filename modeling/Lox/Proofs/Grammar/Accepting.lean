/-
  Lox.Proofs.Grammar.Accepting

  Runs of the parser that do not give up.

    * `Yields r loops faults rest good P` — the run `r` ended with an answer that
      satisfies `P`, before `rest` and inside as many loops as it began; if `good`
      holds it reported nothing;
    * `Yields.bind` — one step after another;
    * equations such as `bind_expectSymbol` — a step that reads the token it asks for.
-/
import Lox.Proofs.Grammar.Reading

namespace Lox.Parser

variable {α β : Type}

theorem bind_of_ok {p : Parser α} {f : α → Parser β} {s t : ParseState} {a : α}
    (h : p s = .ok a t) : (p >>= f) s = f a t := by
  show EStateM.bind p f s = _
  rw [EStateM.bind, h]

/-- A run that did not give up. -/
def Yields (r : EStateM.Result Diagnostic ParseState α) (loops : Nat) (faults : Array Diagnostic)
    (rest : List Token) (good : Prop) (P : α → Prop) : Prop :=
  ∃ a t, r = .ok a t ∧ t.rest = rest ∧ t.loops = loops ∧ (good → t.faults = faults) ∧ P a

namespace Yields

variable {r : EStateM.Result Diagnostic ParseState α} {loops : Nat} {faults : Array Diagnostic}
  {rest rest₂ : List Token} {good good' : Prop} {P : α → Prop} {Q : β → Prop}

theorem mono {P' : α → Prop} (h : Yields r loops faults rest good P) (hgood : good' → good)
    (hP : ∀ a, P a → P' a) : Yields r loops faults rest good' P' := by
  obtain ⟨a, t, hr, hrest, hloops, hfaults, ha⟩ := h
  exact ⟨a, t, hr, hrest, hloops, fun hg => hfaults (hgood hg), hP a ha⟩

theorem done (a : α) (s : ParseState) (ha : P a) :
    Yields ((pure a : Parser α) s) s.loops s.faults s.rest good P :=
  ⟨a, s, rfl, rfl, rfl, fun _ => rfl, ha⟩

theorem bind {p : Parser α} {f : α → Parser β} {s : ParseState}
    (h : Yields (p s) loops faults rest good P)
    (hf : ∀ a t, t.rest = rest → t.loops = loops → P a →
      Yields (f a t) t.loops t.faults rest₂ good Q) :
    Yields ((p >>= f) s) loops faults rest₂ good Q := by
  obtain ⟨a, t, hr, hrest, hloops, hfaults, ha⟩ := h
  obtain ⟨b, u, hr', hrest', hloops', hfaults', hb⟩ := hf a t hrest hloops ha
  refine ⟨b, u, ?_, hrest', hloops'.trans hloops, fun hg => (hfaults' hg).trans (hfaults hg), hb⟩
  rw [bind_of_ok hr]
  exact hr'

end Yields

/-! ## Tokens -/

variable {s : ParseState} {t : Token} {rest : List Token}

theorem bind_peek (h : s.rest = t :: rest) (f : Token → Parser β) : (peek >>= f) s = f t s := by
  show f s.current s = f t s
  unfold ParseState.current
  rw [h]
  rfl

theorem bind_advance (h : s.rest = t :: rest) (f : Unit → Parser β) :
    (advance >>= f) s = f () { s with rest } := by
  show f () { s with rest := s.rest.tail } = _
  rw [h]
  rfl

theorem bind_check (h : s.rest = t :: rest) (kind : TokenKind) (f : Bool → Parser β) :
    (check kind >>= f) s = f (t.kind.sameType kind) s := by
  show f (s.rest.head?.any (·.kind.sameType kind)) s = _
  rw [h]
  rfl

theorem bind_take? {δ : Type} {select : TokenKind → Option δ} {d : δ} (h : s.rest = t :: rest)
    (hselect : select t.kind = some d) (f : Option (δ × Token) → Parser β) :
    (take? select >>= f) s = f (some (d, t)) { s with rest } := by
  show EStateM.bind (take? select) f s = _
  unfold EStateM.bind take?
  rw [h]
  dsimp only
  rw [hselect]

theorem bind_take?_none {δ : Type} {select : TokenKind → Option δ}
    (h : ∀ t, s.rest.head? = some t → select t.kind = none) (f : Option (δ × Token) → Parser β) :
    (take? select >>= f) s = f none s := by
  show EStateM.bind (take? select) f s = _
  unfold EStateM.bind take?
  cases hrest : s.rest with
  | nil => rfl
  | cons t rest =>
    dsimp only
    rw [h t (by rw [hrest]; rfl)]

theorem bind_accept {kind : TokenKind} (h : s.rest = t :: rest)
    (hkind : t.kind.sameType kind = true)
    (f : Option Token → Parser β) : (accept kind >>= f) s = f (some t) { s with rest } := by
  show EStateM.bind (accept kind) f s = _
  unfold EStateM.bind accept
  rw [h]
  dsimp only
  rw [if_pos hkind]

theorem bind_accept_none {kind : TokenKind}
    (h : ∀ t, s.rest.head? = some t → t.kind.sameType kind = false) (f : Option Token → Parser β) :
    (accept kind >>= f) s = f none s := by
  show EStateM.bind (accept kind) f s = _
  unfold EStateM.bind accept
  cases hrest : s.rest with
  | nil => rfl
  | cons t rest =>
    dsimp only
    rw [if_neg (by rw [h t (by rw [hrest]; rfl)]; exact Bool.false_ne_true)]

theorem bind_expect {kind : TokenKind} {fault : SyntaxFault} (h : s.rest = t :: rest)
    (hkind : t.kind.sameType kind = true) (f : Token → Parser β) :
    (expect kind fault >>= f) s = f t { s with rest } := by
  unfold expect
  rw [bind_assoc, bind_accept h hkind]
  rfl

theorem bind_expectSymbol {symbol : Symbol} {fault : SyntaxFault} (h : s.rest = t :: rest)
    (hkind : t.kind = .symbol symbol) (f : Token → Parser β) :
    (expectSymbol symbol fault >>= f) s = f t { s with rest } :=
  bind_expect h (TokenKind.sameType_symbol.mpr hkind) f

theorem bind_expectName {fault : SyntaxFault} (h : s.rest = t :: rest)
    (hkind : t.kind = .identifier) (f : Lexeme → Parser β) :
    (expectName fault >>= f) s = f t.toLexeme { s with rest } := by
  unfold expectName
  rw [bind_assoc, bind_expect h (TokenKind.sameType_identifier.mpr hkind)]
  rfl

theorem bind_acceptSymbol {symbol : Symbol} (h : s.rest = t :: rest)
    (hkind : t.kind = .symbol symbol) (f : Bool → Parser β) :
    (acceptSymbol symbol >>= f) s = f true { s with rest } := by
  unfold acceptSymbol
  rw [bind_assoc, bind_accept h (TokenKind.sameType_symbol.mpr hkind)]
  rfl

theorem bind_acceptSymbol_none {symbol : Symbol}
    (h : ∀ t, s.rest.head? = some t → t.kind ≠ .symbol symbol) (f : Bool → Parser β) :
    (acceptSymbol symbol >>= f) s = f false s := by
  unfold acceptSymbol
  rw [bind_assoc, bind_accept_none]
  · rfl
  · intro t ht
    rw [Bool.eq_false_iff]
    exact fun hsame => h t ht (TokenKind.sameType_symbol.mp hsame)

/-! ## Other steps -/

/-- A fault that is reported where the run is not good. -/
theorem yields_reportIf {bad : Prop} [Decidable bad] {fault : SyntaxFault} {p : Parser α}
    {good : Prop} {P : α → Prop} (hbad : bad → ¬good)
    (h : ∀ faults, Yields (p { s with faults }) s.loops faults rest good P) :
    Yields ((if bad then peek >>= fun t => report t fault >>= fun _ => p else p) s) s.loops s.faults
      rest good P := by
  split
  · next hb =>
    obtain ⟨a, t, hr, hrest, hloops, _, ha⟩ := h (s.faults.push (diagnostic s.current fault))
    exact ⟨a, t, hr, hrest, hloops, fun hg => absurd hg (hbad hb), ha⟩
  · exact h s.faults

theorem yields_withLoops {p : Parser α} (change : Nat → Nat) {good : Prop} {P : α → Prop}
    (h : Yields (p { s with loops := change s.loops }) (change s.loops) s.faults rest good P) :
    Yields (withLoops change p s) s.loops s.faults rest good P := by
  obtain ⟨a, t, hr, hrest, _, hfaults, ha⟩ := h
  refine ⟨a, { t with loops := s.loops }, ?_, hrest, rfl, hfaults, ha⟩
  unfold withLoops
  rw [hr]

theorem yields_recovering {p : Parser α} {loops : Nat} {faults : Array Diagnostic} {good : Prop}
    {P : α → Prop} (h : Yields (p s) loops faults rest good P) :
    Yields (recovering p s) loops faults rest good fun r => ∃ a, r = some a ∧ P a := by
  obtain ⟨a, t, hr, hrest, hloops, hfaults, ha⟩ := h
  refine ⟨some a, t, ?_, hrest, hloops, hfaults, a, rfl, ha⟩
  unfold recovering
  rw [hr]

end Lox.Parser
