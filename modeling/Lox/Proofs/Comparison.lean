/-
  Lox.Proofs.Comparison

  Two runs side by side, whatever they run on.

    * `Comparison` — how the states of two stopped runs correspond, and how they do
      where only the second one was stopped;
    * `Comparison.Ends` — the runs end in the same way, or the second one was cut short;
    * `Comparison.Tracks` — one action is followed by another one in this way.

  A run that is cut short says nothing of what the first one does afterwards, but that
  it can only add to what is there (`grows`).
-/

namespace Lox

/-- What is compared in two runs. -/
structure Comparison (ε σ : Type) where
  /-- States of runs that were both stopped. -/
  stopped : σ → σ → Prop
  /-- The second run was cut short, and the first one is at least as far. -/
  cut : σ → σ → Prop
  /-- What the first run can do after that. -/
  grows : σ → σ → Prop
  /-- Why the second run is stopped where the first one is. -/
  stop : ε → ε
  /-- Why the second run is cut short. -/
  closed : ε
  refl (s : σ) : grows s s
  trans {s t u : σ} : grows s t → grows t u → grows s u
  later {s t s' : σ} : cut s s' → grows s t → cut t s'

namespace Comparison

variable {ε σ α β γ δ : Type}

/-- The state that a result leaves. -/
def left : EStateM.Result ε σ α → σ
  | .ok _ s => s
  | .error _ s => s

section

variable (C : Comparison ε σ)

/-- Two results that correspond: the answers are as `g` tells, and so are the states. -/
inductive Ends (post : σ → σ → Prop) (g : α → β) :
    EStateM.Result ε σ α → EStateM.Result ε σ β → Prop
  | ok {a s s'} : post s s' → Ends post g (.ok a s) (.ok (g a) s')
  | error {e s s'} : C.stopped s s' → Ends post g (.error e s) (.error (C.stop e) s')
  | cut {x s'} : C.cut (left x) s' → Ends post g x (.error C.closed s')

/-- The second action follows the first one. -/
structure Tracks (pre post : σ → σ → Prop) (g : α → β) (p : EStateM ε σ α) (p' : EStateM ε σ β) :
    Prop where
  grows : ∀ s, C.grows s (left (p s))
  ends : ∀ s s', pre s s' → C.Ends post g (p s) (p' s')

end

variable {C : Comparison ε σ} {pre mid post : σ → σ → Prop} {g : α → β} {h : γ → δ}

namespace Tracks

theorem pure (a : α) : C.Tracks pre pre g (Pure.pure a) (Pure.pure (g a)) :=
  ⟨fun s => C.refl s, fun _ _ hs => .ok hs⟩

theorem throw (e : ε) (hpre : ∀ s s', pre s s' → C.stopped s s') :
    C.Tracks pre post g (MonadExcept.throw e) (MonadExcept.throw (C.stop e)) :=
  ⟨fun s => C.refl s, fun _ _ hs => .error (hpre _ _ hs)⟩

theorem bind {p : EStateM ε σ α} {p' : EStateM ε σ β} {f : α → EStateM ε σ γ}
    {f' : β → EStateM ε σ δ} (hp : C.Tracks pre mid g p p')
    (hf : ∀ a, C.Tracks mid post h (f a) (f' (g a))) :
    C.Tracks pre post h (p >>= f) (p' >>= f') := by
  constructor
  · intro s
    have hfirst := hp.grows s
    show C.grows s (left (EStateM.bind p f s))
    unfold EStateM.bind
    cases hrun : p s with
    | ok a t =>
      rw [hrun] at hfirst
      exact C.trans hfirst ((hf a).grows t)
    | error e t =>
      rw [hrun] at hfirst
      exact hfirst
  · intro s s' hs
    show C.Ends post h (EStateM.bind p f s) (EStateM.bind p' f' s')
    unfold EStateM.bind
    match p s, p' s', hp.ends s s' hs with
    | .ok a t, _, .ok ht => exact (hf a).ends _ _ ht
    | _, _, .error ht => exact .error ht
    | .ok a t, _, .cut hcut => exact .cut (C.later hcut ((hf a).grows t))
    | .error e t, _, .cut hcut => exact .cut hcut

theorem mono {pre' post' : σ → σ → Prop} {p : EStateM ε σ α} {p' : EStateM ε σ β}
    (hp : C.Tracks pre mid g p p') (hpre : ∀ s s', pre' s s' → pre s s')
    (hpost : ∀ s s', mid s s' → post' s s') : C.Tracks pre' post' g p p' := by
  refine ⟨hp.grows, fun s s' hs => ?_⟩
  match p s, p' s', hp.ends s s' (hpre _ _ hs) with
  | _, _, .ok ht => exact .ok (hpost _ _ ht)
  | _, _, .error ht => exact .error ht
  | _, _, .cut hcut => exact .cut hcut

end Tracks

end Comparison

end Lox
