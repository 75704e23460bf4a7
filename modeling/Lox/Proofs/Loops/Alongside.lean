/-
  Lox.Proofs.Loops.Alongside

  Two runs on machines whose stores match.

    * `Machine.across` — a machine with the table, the store and the frame of the second
      run; everything else is the same in both;
    * `RunM.Accords` — two actions end in the same way, and leave such machines;
    * `Machine.Stands` — the machines stand in frames with matching ways outward;
    * `RunM.Accords.bind` — one action after another;
    * `RunM.Accords.inScope` — a scope that both runs make, and `.leftScope`, `.rightScope`,
      one that only one of them makes.
-/
import Lox.Proofs.Actions
import Lox.Proofs.Loops.Stores

namespace Lox

open RunM

/-- The machine of the second run. -/
def Machine.across (m : Machine) (T' : Table) (s' : Store) (f' : FrameId) : Machine :=
  { m with table := T', store := s', env := f' }

section

variable (T T' : Table) (pairs : FramePairs)

structure Machine.Matches (m : Machine) (s' : Store) : Prop where
  table : m.table = T
  store : m.store.Matches T T' pairs s'

/-- What became of machines with matching stores: these grew, and so did the pairs. -/
structure Machine.Further (m : Machine) (s' : Store) (pairs₁ : FramePairs) (m₁ : Machine)
    (s₁' : Store) : Prop where
  grown : m.Grown m₁
  grown' : s'.Grows s₁'
  pairs : pairs ⊆ pairs₁
  matching : m₁.Matches T T' pairs₁ s₁'

/-- The two actions end in the same way, and `R` holds of what they yield. -/
inductive RunM.Accords {α : Type} (p p' : RunM α) (m : Machine) (s' : Store) (f' : FrameId)
    (R : FramePairs → Store → Store → α → α → Prop) : Prop
  | ok {a a' : α} {m₁ : Machine} {pairs₁ : FramePairs} {s₁' : Store} :
      p m = .ok a m₁ → p' (m.across T' s' f') = .ok a' (m₁.across T' s₁' f') →
      m.Further T T' pairs s' pairs₁ m₁ s₁' → R pairs₁ m₁.store s₁' a a' → Accords p p' m s' f' R
  | error {halt : Halt} {m₁ : Machine} {pairs₁ : FramePairs} {s₁' : Store} :
      p m = .error halt m₁ → p' (m.across T' s' f') = .error halt (m₁.across T' s₁' f') →
      m.Further T T' pairs s' pairs₁ m₁ s₁' → Accords p p' m s' f' R

/-- The frames along the ways outward from both positions are side by side. -/
structure Machine.Stands (links : List Link) (m : Machine) (s' : Store) (f' : FrameId) :
    Prop extends m.Matches T T' pairs s' where
  beside : Store.Beside pairs m.store s' links m.env f'

end

variable {T T' : Table} {pairs pairs₁ : FramePairs} {m m₁ : Machine} {s' s₁' : Store}
  {f' : FrameId} {links : List Link} {α β : Type}

namespace Machine

theorem Further.refl (h : m.Matches T T' pairs s') : m.Further T T' pairs s' pairs m s' :=
  ⟨evolution_grown.refl m, .refl s', List.Subset.refl pairs, h⟩

theorem Further.trans {pairs₂ : FramePairs} {m₂ : Machine} {s₂' : Store}
    (h : m.Further T T' pairs s' pairs₁ m₁ s₁')
    (h₁ : m₁.Further T T' pairs₁ s₁' pairs₂ m₂ s₂') :
    m.Further T T' pairs s' pairs₂ m₂ s₂' :=
  ⟨evolution_grown.trans h.grown h₁.grown, h.grown'.trans h₁.grown',
    List.Subset.trans h.pairs h₁.pairs, h₁.matching⟩

theorem Further.value (h : m.Further T T' pairs s' pairs₁ m₁ s₁') {v v' : Value}
    (hv : v.Matches T T' pairs m.store s' v') : v.Matches T T' pairs₁ m₁.store s₁' v' :=
  hv.grow h.pairs h.grown.store h.grown'

/-- Where only the store changed. -/
theorem Further.stored {s : Store} (hm : m.Matches T T' pairs s') (hgrows : m.store.Grows s)
    (hgrows' : s'.Grows s₁') (hpairs : pairs ⊆ pairs₁) (hs : s.Matches T T' pairs₁ s₁') :
    m.Further T T' pairs s' pairs₁ { m with store := s } s₁' :=
  ⟨⟨rfl, rfl, hgrows⟩, hgrows', hpairs, hm.table, hs⟩

theorem Stands.step (h : m.Stands T T' pairs links s' f')
    (ho : m.Further T T' pairs s' pairs₁ m₁ s₁') : m₁.Stands T T' pairs₁ links s₁' f' := by
  refine ⟨ho.matching, ?_⟩
  rw [ho.grown.env]
  exact h.beside.grow ho.pairs ho.grown.store ho.grown'

/-- In a scope of both ways, the positions are in a pair of frames. -/
theorem Stands.pair (h : m.Stands T T' pairs links s' f') (hshared : Link.Shared links) :
    (m.env, f') ∈ pairs :=
  h.beside.pair hshared h.store.global

end Machine

namespace RunM.Accords

variable {p p' : RunM α} {q q' : α → RunM β} {R : FramePairs → Store → Store → α → α → Prop}
  {after : FramePairs → Store → Store → β → β → Prop}

/-- Actions that are known to come to the same. -/
theorem congr {r r' : RunM α} (h : RunM.Accords T T' pairs p p' m s' f' R) (hr : r m = p m)
    (hr' : r' (m.across T' s' f') = p' (m.across T' s' f')) :
    RunM.Accords T T' pairs r r' m s' f' R := by
  cases h with
  | ok hrun hrun' ho ha => exact .ok (hr.trans hrun) (hr'.trans hrun') ho ha
  | error hrun hrun' ho => exact .error (hr.trans hrun) (hr'.trans hrun') ho

/-- Actions from a later point on. -/
theorem later (ho : m.Further T T' pairs s' pairs₁ m₁ s₁')
    (h : RunM.Accords T T' pairs₁ p p' m₁ s₁' f' R) {r r' : RunM α} (hr : r m = p m₁)
    (hr' : r' (m.across T' s' f') = p' (m₁.across T' s₁' f')) :
    RunM.Accords T T' pairs r r' m s' f' R := by
  cases h with
  | ok hrun hrun' ho₁ ha => exact .ok (hr.trans hrun) (hr'.trans hrun') (ho.trans ho₁) ha
  | error hrun hrun' ho₁ => exact .error (hr.trans hrun) (hr'.trans hrun') (ho.trans ho₁)

theorem bind (hp : RunM.Accords T T' pairs p p' m s' f' R)
    (hq : ∀ a a' pairs₁ m₁ s₁', m.Further T T' pairs s' pairs₁ m₁ s₁' →
      R pairs₁ m₁.store s₁' a a' → RunM.Accords T T' pairs₁ (q a) (q' a') m₁ s₁' f' after) :
    RunM.Accords T T' pairs (p >>= q) (p' >>= q') m s' f' after := by
  cases hp with
  | ok hrun hrun' ho ha =>
    exact later ho (hq _ _ _ _ _ ho ha) (bind_of_ok hrun q) (bind_of_ok hrun' q')
  | error hrun hrun' ho => exact .error (bind_of_error hrun q) (bind_of_error hrun' q') ho

/-- Of the machine each action has its own. -/
theorem bindGet {g g' : Machine → RunM β}
    (h : RunM.Accords T T' pairs (g m) (g' (m.across T' s' f')) m s' f' after) :
    RunM.Accords T T' pairs (get >>= g) (get >>= g') m s' f' after :=
  h.congr rfl rfl

theorem pure (hm : m.Matches T T' pairs s') {a a' : α} (ha : R pairs m.store s' a a') :
    RunM.Accords T T' pairs (pure a) (pure a') m s' f' R :=
  .ok rfl rfl (.refl hm) ha

theorem throw (hm : m.Matches T T' pairs s') (halt : Halt) :
    RunM.Accords T T' pairs (throw halt) (throw halt) m s' f' R :=
  .error rfl rfl (.refl hm)

theorem fail (hm : m.Matches T T' pairs s') (at_ : Lexeme) (fault : RuntimeFault) :
    RunM.Accords T T' pairs (RunM.fail at_ fault) (RunM.fail at_ fault) m s' f' R :=
  throw hm _

theorem inspect (hm : m.Matches T T' pairs s') {g g' : Store → α}
    (hg : R pairs m.store s' (g m.store) (g' s')) :
    RunM.Accords T T' pairs (RunM.inspect g) (RunM.inspect g') m s' f' R :=
  .ok rfl rfl (.refl hm) hg

/-- A change of both stores. -/
theorem make (hm : m.Matches T T' pairs s') {g g' : Store → α × Store} (hpairs : pairs ⊆ pairs₁)
    (hgrows : m.store.Grows (g m.store).2) (hgrows' : s'.Grows (g' s').2)
    (hs : (g m.store).2.Matches T T' pairs₁ (g' s').2)
    (ha : R pairs₁ (g m.store).2 (g' s').2 (g m.store).1 (g' s').1) :
    RunM.Accords T T' pairs (RunM.make g) (RunM.make g') m s' f' R :=
  .ok rfl rfl (.stored hm hgrows hgrows' hpairs hs) ha

/-- Actions inside other frames; the frames of the positions are put back. -/
theorem withFrame {g g' : FrameId}
    (h : RunM.Accords T T' pairs p p' { m with env := g } s' g' R) :
    RunM.Accords T T' pairs (RunM.withFrame g p) (RunM.withFrame g' p') m s' f' R := by
  have back {pairs₁ m₁ s₁'} (ho : Machine.Further T T' pairs { m with env := g } s' pairs₁ m₁ s₁') :
      m.Further T T' pairs s' pairs₁ { m₁ with env := m.env } s₁' :=
    ⟨⟨rfl, ho.grown.table, ho.grown.store⟩, ho.grown', ho.pairs, ho.matching.table,
      ho.matching.store⟩
  cases h with
  | ok hrun hrun' ho ha =>
    exact .ok (withFrame_of_ok hrun) (withFrame_of_ok (m := m.across T' s' f') hrun') (back ho) ha
  | error hrun hrun' ho =>
    exact .error (withFrame_of_error hrun) (withFrame_of_error (m := m.across T' s' f') hrun')
      (back ho)

theorem deeper (h : RunM.Accords T T' pairs p p' { m with depth := m.depth + 1 } s' f' R) :
    RunM.Accords T T' pairs (RunM.deeper p) (RunM.deeper p') m s' f' R := by
  have back {pairs₁ m₁ s₁'}
      (ho : Machine.Further T T' pairs { m with depth := m.depth + 1 } s' pairs₁ m₁ s₁') :
      m.Further T T' pairs s' pairs₁ { m₁ with depth := m₁.depth - 1 } s₁' :=
    ⟨⟨ho.grown.env, ho.grown.table, ho.grown.store⟩, ho.grown', ho.pairs, ho.matching.table,
      ho.matching.store⟩
  cases h with
  | ok hrun hrun' ho ha =>
    exact .ok (deeper_of_ok hrun) (deeper_of_ok (m := m.across T' s' f') hrun') (back ho) ha
  | error hrun hrun' ho =>
    exact .error (deeper_of_error hrun) (deeper_of_error (m := m.across T' s' f') hrun') (back ho)

end RunM.Accords

/-! ## New scopes -/

/-- Does something in a new scope. -/
def RunM.inScope (p : RunM α) : RunM α := do
  let around := (← get).env
  let frame ← make (·.child around)
  withFrame frame p

namespace RunM.Accords

variable {p p' : RunM α} {R : FramePairs → Store → Store → α → α → Prop}

/-- A scope of both runs begins in a new pair of frames. -/
theorem inScope (h : m.Stands T T' pairs links s' f')
    (hp : ∀ {pairs₁ m₁ s₁' g'}, Machine.Stands T T' pairs₁ (.both :: links) m₁ s₁' g' →
      RunM.Accords T T' pairs₁ p p' m₁ s₁' g' R) :
    RunM.Accords T T' pairs (RunM.inScope p) (RunM.inScope p') m s' f' R := by
  have hpairs := List.subset_cons_self (m.store.frames.size, s'.frames.size) pairs
  have hgrows := m.store.grows_newFrame ⟨.empty, some m.env⟩
  have hgrows' := s'.grows_newFrame ⟨.empty, some f'⟩
  have hempty (name : String) : Option.Rel (Value.Matches T T' pairs m.store s')
      ((Bindings.empty : Bindings Value).get? name) ((Bindings.empty : Bindings Value).get? name) :=
    .none
  have hstore := h.store.newFrame (some m.env) (some f') hempty
  have ho := Machine.Further.stored h.toMatches hgrows hgrows' hpairs hstore
  refine .later ho (.withFrame (hp ⟨⟨h.table, hstore⟩, List.mem_cons_self, m.env, f', ?_, ?_,
    h.beside.grow hpairs hgrows hgrows'⟩)) rfl rfl
  · exact m.store.parent?_newFrame_self _
  · exact s'.parent?_newFrame_self _

/-- A scope that only the first run makes. -/
theorem leftScope (h : m.Stands T T' pairs links s' f')
    (hp : ∀ {m₁}, Machine.Stands T T' pairs (.left :: links) m₁ s' f' →
      RunM.Accords T T' pairs p p' m₁ s' f' R) :
    RunM.Accords T T' pairs (RunM.inScope p) p' m s' f' R := by
  have hgrows := m.store.grows_newFrame ⟨.empty, some m.env⟩
  have hstore := h.store.leftFrame ⟨.empty, some m.env⟩
  have hinside := @hp { m with store := (m.store.child m.env).2, env := m.store.frames.size }
    ⟨⟨h.table, hstore⟩, m.env, m.store.parent?_newFrame_self _,
      h.beside.grow (List.Subset.refl _) hgrows (.refl s')⟩
  have back {pairs₁ m₁ s₁'} (ho : Machine.Further T T' pairs
      { m with store := (m.store.child m.env).2, env := m.store.frames.size } s' pairs₁ m₁ s₁') :
      m.Further T T' pairs s' pairs₁ { m₁ with env := m.env } s₁' :=
    ⟨⟨rfl, ho.grown.table, hgrows.trans ho.grown.store⟩, ho.grown', ho.pairs, ho.matching.table,
      ho.matching.store⟩
  cases hinside with
  | ok hrun hrun' ho ha => exact .ok (withFrame_of_ok hrun) hrun' (back ho) ha
  | error hrun hrun' ho => exact .error (withFrame_of_error hrun) hrun' (back ho)

/-- A scope that only the second run makes. -/
theorem rightScope (h : m.Stands T T' pairs links s' f')
    (hp : ∀ {s₁' g'}, Machine.Stands T T' pairs (.right :: links) m s₁' g' →
      RunM.Accords T T' pairs p p' m s₁' g' R) :
    RunM.Accords T T' pairs p (RunM.inScope p') m s' f' R := by
  have hgrows := s'.grows_newFrame ⟨.empty, some f'⟩
  have hstore := h.store.rightFrame ⟨.empty, some f'⟩
  have hinside := @hp (s'.child f').2 s'.frames.size ⟨⟨h.table, hstore⟩, f',
    s'.parent?_newFrame_self _, h.beside.grow (List.Subset.refl _) (.refl m.store) hgrows⟩
  have back {pairs₁ m₁ s₁'} (ho : m.Further T T' pairs (s'.child f').2 pairs₁ m₁ s₁') :
      m.Further T T' pairs s' pairs₁ m₁ s₁' :=
    ⟨ho.grown, hgrows.trans ho.grown', ho.pairs, ho.matching⟩
  let entered : Machine := m.across T' (s'.child f').2 f'
  cases hinside with
  | ok hrun hrun' ho ha =>
    exact .ok hrun (withFrame_of_ok (m := entered) hrun') (back ho) ha
  | error hrun hrun' ho =>
    exact .error hrun (withFrame_of_error (m := entered) hrun') (back ho)

end RunM.Accords

end Lox
