/-
  Lox.Proofs.Actions

  How an action ends that is put together of others: in a sequence, in another frame, or
  one call deeper.  `bind_eq` tells it of a sequence as an equation, `bind_of_ok`,
  `bind_of_error` and their companions of parts whose end is known, and `bind_ok` and its
  companions what the end of the whole says of the parts.
-/
import Lox.Evaluation

namespace Lox.RunM

variable {α β : Type} {p : RunM α} {f : α → RunM β} {m n : Machine} {a : α} {b : β} {halt : Halt}

/-- One action after another. -/
theorem bind_eq (p : RunM α) (f : α → RunM β) (m : Machine) :
    (p >>= f) m = match p m with
      | .ok a n => f a n
      | .error halt n => .error halt n := by
  show EStateM.bind p f m = _
  rw [EStateM.bind]
  cases p m <;> rfl

/-! ## Parts that succeed -/

theorem bind_of_ok (h : p m = .ok a n) (f : α → RunM β) : (p >>= f) m = f a n := by
  rw [bind_eq, h]

theorem withFrame_of_ok {g : FrameId} (h : p { m with env := g } = .ok a n) :
    withFrame g p m = .ok a { n with env := m.env } := by
  unfold withFrame
  rw [h]

theorem deeper_of_ok (h : p { m with depth := m.depth + 1 } = .ok a n) :
    deeper p m = .ok a { n with depth := n.depth - 1 } := by
  unfold deeper
  rw [h]

/-! ## Parts that fail -/

theorem bind_of_error (h : p m = .error halt n) (f : α → RunM β) : (p >>= f) m = .error halt n := by
  rw [bind_eq, h]

theorem withFrame_of_error {g : FrameId} (h : p { m with env := g } = .error halt n) :
    withFrame g p m = .error halt { n with env := m.env } := by
  unfold withFrame
  rw [h]

theorem deeper_of_error (h : p { m with depth := m.depth + 1 } = .error halt n) :
    deeper p m = .error halt { n with depth := n.depth - 1 } := by
  unfold deeper
  rw [h]

/-! ## Wholes that succeed -/

/-- A sequence succeeds if both of its parts do. -/
theorem bind_ok (h : (p >>= f) m = .ok b n) : ∃ a m', p m = .ok a m' ∧ f a m' = .ok b n := by
  rw [bind_eq] at h
  cases hrun : p m with
  | ok a m' =>
    rw [hrun] at h
    exact ⟨a, m', rfl, h⟩
  | error halt m' =>
    rw [hrun] at h
    cases h

/-- Behind a first part that has succeeded there is the rest. -/
theorem ok_of_bind_ok {m' : Machine} (h : (p >>= f) m = .ok b n) (hp : p m = .ok a m') :
    f a m' = .ok b n :=
  (bind_of_ok hp f).symm.trans h

theorem withFrame_ok {g : FrameId} (h : withFrame g p m = .ok a n) :
    ∃ n', p { m with env := g } = .ok a n' ∧ n = { n' with env := m.env } := by
  unfold withFrame at h
  cases hrun : p { m with env := g } with
  | ok a' n' =>
    rw [hrun] at h
    cases h
    exact ⟨n', rfl, rfl⟩
  | error halt n' =>
    rw [hrun] at h
    cases h

theorem deeper_ok (h : deeper p m = .ok a n) :
    ∃ n', p { m with depth := m.depth + 1 } = .ok a n' ∧
      n = { n' with depth := n'.depth - 1 } := by
  unfold deeper at h
  cases hrun : p { m with depth := m.depth + 1 } with
  | ok a' n' =>
    rw [hrun] at h
    cases h
    exact ⟨n', rfl, rfl⟩
  | error halt n' =>
    rw [hrun] at h
    cases h

/-! ## Wholes that fail -/

/-- A sequence fails in its first part, or behind it. -/
theorem bind_error (h : (p >>= f) m = .error halt n) :
    p m = .error halt n ∨ ∃ a m', p m = .ok a m' ∧ f a m' = .error halt n := by
  rw [bind_eq] at h
  cases hrun : p m with
  | ok a m' =>
    rw [hrun] at h
    exact .inr ⟨a, m', rfl, h⟩
  | error halt' m' =>
    rw [hrun] at h
    cases h
    exact .inl rfl

theorem withFrame_error {g : FrameId} (h : withFrame g p m = .error halt n) :
    ∃ n', p { m with env := g } = .error halt n' := by
  unfold withFrame at h
  cases hrun : p { m with env := g } with
  | ok a n' => simp [hrun] at h
  | error halt' n' =>
    simp only [hrun] at h
    cases h
    exact ⟨n', rfl⟩

theorem deeper_error (h : deeper p m = .error halt n) :
    ∃ n', p { m with depth := m.depth + 1 } = .error halt n' := by
  unfold deeper at h
  cases hrun : p { m with depth := m.depth + 1 } with
  | ok a n' => simp [hrun] at h
  | error halt' n' =>
    simp only [hrun] at h
    cases h
    exact ⟨n', rfl⟩

end Lox.RunM
