/-
  Lox.Proofs.Renaming.Parallel

  Two runs side by side, on machines that differ in mirrored stores only.

    * `RunM.Mirrors` — one action on a machine and another one on the same machine
      with the mirrored store end in the same way, and leave such machines;
    * `Mirrors.bind` — one action after another;
    * `Machine.Abreast` — the machines stand in the frames of the same scopes, which
      are marked as the flags tell.
-/
import Lox.Proofs.Renaming.Mirror

namespace Lox

open RunM

/-! ## Actions side by side -/

section

variable (r : Renaming) (n : Nat)

/-- Values that both runs have at the same point. -/
structure Value.Twins (marks : List Bool) (s : Store) (v v' : Value) : Prop where
  fits : v.Fits r.table n s
  mirrors : v.Mirrors r marks s v'

/-- The machine fits, and the other store mirrors its store. -/
structure Machine.Mirrors (marks : List Bool) (m : Machine) (s' : Store) : Prop where
  fits : m.Fits r.table n
  store : m.store.Mirrors r marks s'

/-- What is left of a machine that had a mirrored store, on the way to another one. -/
structure Machine.Onward (marks : List Bool) (m : Machine) (marks₁ : List Bool) (m₁ : Machine)
    (s₁' : Store) : Prop where
  grown : m.Grown m₁
  marks : marks <+: marks₁
  mirrors : m₁.Mirrors r n marks₁ s₁'

/-- The two actions end in the same way, the second one on the mirrored store, and
    `R` holds of what they yield. -/
def RunM.Mirrors {α : Type} (marks : List Bool) (p p' : RunM α) (m : Machine) (s' : Store)
    (R : List Bool → Store → α → α → Prop) : Prop :=
  match p m, p' { m with store := s' } with
  | .ok a m₁, .ok a' m₁' => ∃ marks₁ s₁', m₁' = { m₁ with store := s₁' } ∧
    m.Onward r n marks marks₁ m₁ s₁' ∧ R marks₁ m₁.store a a'
  | .error halt m₁, .error halt' m₁' => halt' = halt ∧ ∃ marks₁ s₁',
    m₁' = { m₁ with store := s₁' } ∧ m.Onward r n marks marks₁ m₁ s₁'
  | _, _ => False

/-- The machine stands in the frames of the scopes, and these are marked so. -/
structure Machine.Abreast (marks : List Bool) (scopes : List Scope) (flags : List Bool)
    (m : Machine) (s' : Store) : Prop extends m.Mirrors r n marks s' where
  chain : m.store.Chain m.env scopes
  signed : m.store.Signed marks m.env flags

end

variable {r : Renaming} {n : Nat} {marks marks₁ : List Bool} {m m₁ : Machine} {s' s₁' : Store}
  {scopes : List Scope} {flags : List Bool} {α β : Type}

theorem Value.Twins.grow {s t : Store} {v v' : Value} (h : v.Twins r n marks s v')
    (hst : s.Grows t) (hmarks : marks <+: marks₁) : v.Twins r n marks₁ t v' :=
  ⟨h.fits.grow hst, h.mirrors.grow hst hmarks⟩

namespace Machine

theorem Onward.refl (h : m.Mirrors r n marks s') : m.Onward r n marks marks m s' :=
  ⟨evolution_grown.refl m, List.prefix_rfl, h⟩

theorem Onward.trans {marks₂ : List Bool} {m₂ : Machine} {s₂' : Store}
    (h : m.Onward r n marks marks₁ m₁ s₁') (h₁ : m₁.Onward r n marks₁ marks₂ m₂ s₂') :
    m.Onward r n marks marks₂ m₂ s₂' :=
  ⟨evolution_grown.trans h.grown h₁.grown, h.marks.trans h₁.marks, h₁.mirrors⟩

theorem Onward.twins (h : m.Onward r n marks marks₁ m₁ s₁') {v v' : Value}
    (hv : v.Twins r n marks m.store v') : v.Twins r n marks₁ m₁.store v' :=
  hv.grow h.grown.store h.marks

theorem Abreast.step (h : m.Abreast r n marks scopes flags s')
    (ho : m.Onward r n marks marks₁ m₁ s₁') : m₁.Abreast r n marks₁ scopes flags s₁' := by
  refine ⟨ho.mirrors, ho.grown.chain h.chain, ?_⟩
  rw [ho.grown.env]
  exact h.signed.grow ho.grown.store ho.marks

theorem Abreast.length (h : m.Abreast r n marks scopes flags s') : flags.length = scopes.length :=
  h.signed.length h.store.root h.chain

/-- The frame of the position is marked as its scope is chosen. -/
theorem Abreast.mark (h : m.Abreast r n marks scopes flags s') :
    marks.getD m.env false = flags.headD false := by
  have hsigned := h.signed
  rw [List.getD_eq_getElem?_getD]
  cases flags with
  | nil =>
    rw [show m.env = Store.globals from hsigned, h.store.global]
    rfl
  | cons flag flags =>
    rw [hsigned.1]
    rfl

/-- So is the frame at a distance. -/
theorem Abreast.mark_ancestor (h : m.Abreast r n marks scopes flags s') {d : Nat} {g : FrameId}
    (hd : d < scopes.length) (hg : m.store.ancestor? m.env d = some g) :
    marks.getD g false = flagAt flags (some d) := by
  have hmark := h.signed.ancestor? (h.length ▸ hd) hg
  rw [flagAt, List.getD_eq_getElem?_getD, List.getD_eq_getElem?_getD, hmark]

end Machine

namespace RunM.Mirrors

variable {p p' : RunM α} {f f' : α → RunM β} {R : List Bool → Store → α → α → Prop}
  {after : List Bool → Store → β → β → Prop}

theorem of_ok {a a' : α} (hrun : p m = .ok a m₁)
    (hrun' : p' { m with store := s' } = .ok a' { m₁ with store := s₁' })
    (ho : m.Onward r n marks marks₁ m₁ s₁') (hR : R marks₁ m₁.store a a') :
    RunM.Mirrors r n marks p p' m s' R := by
  unfold RunM.Mirrors
  rw [hrun, hrun']
  exact ⟨marks₁, s₁', rfl, ho, hR⟩

theorem of_error {halt : Halt} (hrun : p m = .error halt m₁)
    (hrun' : p' { m with store := s' } = .error halt { m₁ with store := s₁' })
    (ho : m.Onward r n marks marks₁ m₁ s₁') : RunM.Mirrors r n marks p p' m s' R := by
  unfold RunM.Mirrors
  rw [hrun, hrun']
  exact ⟨rfl, marks₁, s₁', rfl, ho⟩

/-- An action that is known to be sound, and the same action on the mirrored store. -/
theorem of_sound {Q : α → Store → Prop} (hs : RunM.Sound r.table n p m Q) {a a' : α}
    (hrun : p m = .ok a m₁)
    (hrun' : p' { m with store := s' } = .ok a' { m₁ with store := s₁' })
    (hmarks : marks <+: marks₁) (hstore : m₁.store.Mirrors r marks₁ s₁')
    (hR : Q a m₁.store → R marks₁ m₁.store a a') : RunM.Mirrors r n marks p p' m s' R := by
  obtain ⟨hgrown, hfits, hQ⟩ := hs.ok hrun
  exact of_ok hrun hrun' ⟨hgrown, hmarks, hfits, hstore⟩ (hR hQ)

/-- What becomes of the second action where the outcome of the first one is known. -/
theorem ok (h : RunM.Mirrors r n marks p p' m s' R) {a : α} (hrun : p m = .ok a m₁) :
    ∃ a' marks₁ s₁', p' { m with store := s' } = .ok a' { m₁ with store := s₁' } ∧
      m.Onward r n marks marks₁ m₁ s₁' ∧ R marks₁ m₁.store a a' := by
  unfold RunM.Mirrors at h
  rw [hrun] at h
  cases hrun' : p' { m with store := s' } with
  | ok a' m₁' =>
    rw [hrun'] at h
    obtain ⟨marks₁, s₁', rfl, h⟩ := h
    exact ⟨a', marks₁, s₁', rfl, h⟩
  | error halt m₁' =>
    rw [hrun'] at h
    exact h.elim

theorem error (h : RunM.Mirrors r n marks p p' m s' R) {halt : Halt}
    (hrun : p m = .error halt m₁) :
    ∃ marks₁ s₁', p' { m with store := s' } = .error halt { m₁ with store := s₁' } ∧
      m.Onward r n marks marks₁ m₁ s₁' := by
  unfold RunM.Mirrors at h
  rw [hrun] at h
  cases hrun' : p' { m with store := s' } with
  | ok a' m₁' =>
    rw [hrun'] at h
    exact h.elim
  | error halt' m₁' =>
    rw [hrun'] at h
    obtain ⟨rfl, marks₁, s₁', rfl, ho⟩ := h
    exact ⟨marks₁, s₁', rfl, ho⟩

/-- Actions from a later point on. -/
theorem later {a a' : α} (hrun : p m = .ok a m₁)
    (hrun' : p' { m with store := s' } = .ok a' { m₁ with store := s₁' })
    (ho : m.Onward r n marks marks₁ m₁ s₁')
    (h : RunM.Mirrors r n marks₁ (f a) (f' a') m₁ s₁' after) :
    RunM.Mirrors r n marks (p >>= f) (p' >>= f') m s' after := by
  have hbind : (p >>= f) m = f a m₁ := by
    show EStateM.bind p f m = f a m₁
    rw [EStateM.bind, hrun]
  have hbind' : (p' >>= f') { m with store := s' } = f' a' { m₁ with store := s₁' } := by
    show EStateM.bind p' f' _ = _
    rw [EStateM.bind, hrun']
  cases hrest : f a m₁ with
  | ok b m₂ =>
    obtain ⟨b', marks₂, s₂', hrest', ho₂, hafter⟩ := h.ok hrest
    exact of_ok (hbind.trans hrest) (hbind'.trans hrest') (ho.trans ho₂) hafter
  | error halt m₂ =>
    obtain ⟨marks₂, s₂', hrest', ho₂⟩ := h.error hrest
    exact of_error (hbind.trans hrest) (hbind'.trans hrest') (ho.trans ho₂)

theorem bind (hp : RunM.Mirrors r n marks p p' m s' R)
    (hf : ∀ a a' marks₁ m₁ s₁', m.Onward r n marks marks₁ m₁ s₁' → R marks₁ m₁.store a a' →
      RunM.Mirrors r n marks₁ (f a) (f' a') m₁ s₁' after) :
    RunM.Mirrors r n marks (p >>= f) (p' >>= f') m s' after := by
  cases hrun : p m with
  | ok a m₁ =>
    obtain ⟨a', marks₁, s₁', hrun', ho, hR⟩ := hp.ok hrun
    exact later hrun hrun' ho (hf a a' marks₁ m₁ s₁' ho hR)
  | error halt m₁ =>
    obtain ⟨marks₁, s₁', hrun', ho⟩ := hp.error hrun
    have hbind : (p >>= f) m = .error halt m₁ := by
      show EStateM.bind p f m = _
      rw [EStateM.bind, hrun]
    have hbind' : (p' >>= f') { m with store := s' } = .error halt { m₁ with store := s₁' } := by
      show EStateM.bind p' f' _ = _
      rw [EStateM.bind, hrun']
    exact of_error hbind hbind' ho

theorem mono {R' : List Bool → Store → α → α → Prop} (h : RunM.Mirrors r n marks p p' m s' R)
    (hR : ∀ marks₁ s a a', m.store.Grows s → R marks₁ s a a' → R' marks₁ s a a') :
    RunM.Mirrors r n marks p p' m s' R' := by
  cases hrun : p m with
  | ok a m₁ =>
    obtain ⟨a', marks₁, s₁', hrun', ho, ha⟩ := h.ok hrun
    exact of_ok hrun hrun' ho (hR _ _ _ _ ho.grown.store ha)
  | error halt m₁ =>
    obtain ⟨marks₁, s₁', hrun', ho⟩ := h.error hrun
    exact of_error hrun hrun' ho

theorem pure (hm : m.Mirrors r n marks s') {a a' : α} (ha : R marks m.store a a') :
    RunM.Mirrors r n marks (pure a) (pure a') m s' R :=
  of_ok rfl rfl (.refl hm) ha

theorem throw (hm : m.Mirrors r n marks s') (halt : Halt) :
    RunM.Mirrors r n marks (throw halt) (throw halt) m s' R :=
  of_error rfl rfl (.refl hm)

/-- A fault tells the line of its token, not the text. -/
theorem fail (hm : m.Mirrors r n marks s') {at_ at_' : Lexeme} (hline : at_'.line = at_.line)
    (fault : RuntimeFault) :
    RunM.Mirrors r n marks (RunM.fail at_ fault) (RunM.fail at_' fault) m s' R := by
  have hrun : (RunM.fail at_' fault : RunM α) { m with store := s' } =
      .error (.error ⟨at_.line, fault⟩) { m with store := s' } := by
    rw [← hline]
    rfl
  exact of_error rfl hrun (.refl hm)

theorem inspect (hm : m.Mirrors r n marks s') {g : Store → α}
    (hg : R marks m.store (g m.store) (g s')) :
    RunM.Mirrors r n marks (RunM.inspect g) (RunM.inspect g) m s' R :=
  of_ok rfl rfl (.refl hm) hg

/-- Where only the position differs, the store is still mirrored. -/
theorem moved {marks₁ : List Bool} {m₁ m₂ : Machine} {s₁' : Store}
    (h : m₁.Mirrors r n marks₁ s₁') (htable : m₂.table = m₁.table) (hstore : m₂.store = m₁.store) :
    m₂.Mirrors r n marks₁ s₁' := by
  refine ⟨⟨htable.trans h.fits.table, ?_⟩, ?_⟩
  · rw [hstore]
    exact h.fits.store
  · rw [hstore]
    exact h.store

/-- An action inside another frame; the frame of the position is put back. -/
theorem withFrame {g : FrameId}
    (h : RunM.Mirrors r n marks p p' { m with env := g } s' R) :
    RunM.Mirrors r n marks (RunM.withFrame g p) (RunM.withFrame g p') m s' R := by
  cases hrun : p { m with env := g } with
  | ok a m₁ =>
    obtain ⟨a', marks₁, s₁', hrun', ho, hR⟩ := h.ok hrun
    have hframe : RunM.withFrame g p m = .ok a { m₁ with env := m.env } := by
      rw [RunM.withFrame, hrun]
    have hframe' : RunM.withFrame g p' { m with store := s' } =
        .ok a' { m₁ with env := m.env, store := s₁' } := by
      rw [RunM.withFrame, hrun']
    exact of_ok hframe hframe'
      ⟨⟨rfl, ho.grown.table, ho.grown.store⟩, ho.marks, moved ho.mirrors rfl rfl⟩ hR
  | error halt m₁ =>
    obtain ⟨marks₁, s₁', hrun', ho⟩ := h.error hrun
    have hframe : RunM.withFrame g p m = .error halt { m₁ with env := m.env } := by
      rw [RunM.withFrame, hrun]
    have hframe' : RunM.withFrame g p' { m with store := s' } =
        .error halt { m₁ with env := m.env, store := s₁' } := by
      rw [RunM.withFrame, hrun']
    exact of_error hframe hframe'
      ⟨⟨rfl, ho.grown.table, ho.grown.store⟩, ho.marks, moved ho.mirrors rfl rfl⟩

theorem deeper (h : RunM.Mirrors r n marks p p' { m with depth := m.depth + 1 } s' R) :
    RunM.Mirrors r n marks (RunM.deeper p) (RunM.deeper p') m s' R := by
  cases hrun : p { m with depth := m.depth + 1 } with
  | ok a m₁ =>
    obtain ⟨a', marks₁, s₁', hrun', ho, hR⟩ := h.ok hrun
    have hdeeper : RunM.deeper p m = .ok a { m₁ with depth := m₁.depth - 1 } := by
      rw [RunM.deeper, hrun]
    have hdeeper' : RunM.deeper p' { m with store := s' } =
        .ok a' { m₁ with depth := m₁.depth - 1, store := s₁' } := by
      rw [RunM.deeper, hrun']
    exact of_ok hdeeper hdeeper'
      ⟨⟨ho.grown.env, ho.grown.table, ho.grown.store⟩, ho.marks, moved ho.mirrors rfl rfl⟩ hR
  | error halt m₁ =>
    obtain ⟨marks₁, s₁', hrun', ho⟩ := h.error hrun
    have hdeeper : RunM.deeper p m = .error halt { m₁ with depth := m₁.depth - 1 } := by
      rw [RunM.deeper, hrun]
    have hdeeper' : RunM.deeper p' { m with store := s' } =
        .error halt { m₁ with depth := m₁.depth - 1, store := s₁' } := by
      rw [RunM.deeper, hrun']
    exact of_error hdeeper hdeeper'
      ⟨⟨ho.grown.env, ho.grown.table, ho.grown.store⟩, ho.marks, moved ho.mirrors rfl rfl⟩

end RunM.Mirrors

end Lox
