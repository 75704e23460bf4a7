/-
  Lox.Proofs.Scoping.Soundness

  Scoped trees run well in a fitting store.

    * `RunM.Sound` — an action keeps the store fitting, whatever it ends with, and
      never stops because of an operator that is none or for want of a `super`; what it
      yields is as told;
    * `Sound.bind` — one action after another;
    * `Expr.sound`, `Stmt.sound`, `invoke_sound` — for every tree and every call.

  The frame of the position stays the innermost frame of the scopes of the tree: a
  block and a call add a frame for the scope they add, a declaration binds the name
  it puts into its scope.
-/
import Lox.Proofs.Scoping.Frames

namespace Lox

open RunM

/-! ## Sound actions -/

/-- The faults that are excluded before a program runs: that a token is no operator by
    the grammar, and that a `super` is bound to nothing by the scopes. -/
def RuntimeFault.Internal : RuntimeFault → Prop
  | invalidUnaryOperator => True
  | invalidBinaryOperator => True
  | superUnresolved => True
  | superUnbound => True
  | _ => False

theorem RuntimeFault.OfOperands.not_internal {fault : RuntimeFault} (h : fault.OfOperands) :
    ¬fault.Internal := by
  cases h <;> exact id

/-- Why a run of scoped trees may halt: not because of such a fault. -/
def Halt.Plain (halt : Halt) : Prop := ∀ e, halt = .error e → ¬e.fault.Internal

section

variable (T : Table) (n : Nat)

/-- The table is `T`, and everything in the store fits it. -/
structure Machine.Fits (m : Machine) : Prop where
  table : m.table = T
  store : m.store.Fits T n

/-- The action keeps a machine fitting, and `Q` holds of what it yields. -/
def RunM.Sound {α : Type} (p : RunM α) (m : Machine) (Q : α → Store → Prop) : Prop :=
  match p m with
  | .ok a m' => m.Grown m' ∧ m'.Fits T n ∧ Q a m'.store
  | .error halt m' => m.Grown m' ∧ m'.Fits T n ∧ halt.Plain

end

variable {T : Table} {n : Nat} {m : Machine} {α β : Type}

namespace RunM.Sound

variable {p : RunM α} {Q Q' : α → Store → Prop} {f : α → RunM β} {after : β → Store → Prop}

theorem of_ok {a : α} {m' : Machine} (h : p m = .ok a m') (hgrown : m.Grown m')
    (hfits : m'.Fits T n) (ha : Q a m'.store) : Sound T n p m Q := by
  unfold Sound
  rw [h]
  exact ⟨hgrown, hfits, ha⟩

/-- What is known where a sound action succeeded. -/
theorem ok (h : Sound T n p m Q) {a : α} {m' : Machine} (hrun : p m = .ok a m') :
    m.Grown m' ∧ m'.Fits T n ∧ Q a m'.store := by
  unfold Sound at h
  rw [hrun] at h
  exact h

/-- What is known where a sound action stopped. -/
theorem error (h : Sound T n p m Q) {halt : Halt} {m' : Machine} (hrun : p m = .error halt m') :
    m.Grown m' ∧ m'.Fits T n ∧ halt.Plain := by
  unfold Sound at h
  rw [hrun] at h
  exact h

theorem mono (h : Sound T n p m Q) (hpost : ∀ a s, m.store.Grows s → Q a s → Q' a s) :
    Sound T n p m Q' := by
  unfold Sound at h ⊢
  cases hrun : p m with
  | ok a m' =>
    rw [hrun] at h
    exact ⟨h.1, h.2.1, hpost a _ h.1.store h.2.2⟩
  | error halt m' =>
    rw [hrun] at h
    exact h

/-- Behind an action of which the outcome is known. -/
theorem step {a : α} {m' : Machine} (hrun : p m = .ok a m') (hgrown : m.Grown m')
    (h : Sound T n (f a) m' after) : Sound T n (p >>= f) m after := by
  have hbind : (p >>= f) m = f a m' := by
    show EStateM.bind p f m = f a m'
    rw [EStateM.bind, hrun]
  unfold Sound at h ⊢
  rw [hbind]
  cases hrest : f a m' with
  | ok b m'' =>
    rw [hrest] at h
    exact ⟨evolution_grown.trans hgrown h.1, h.2⟩
  | error halt m'' =>
    rw [hrest] at h
    exact ⟨evolution_grown.trans hgrown h.1, h.2⟩

theorem bind (hp : Sound T n p m Q)
    (hf : ∀ a m', m.Grown m' → m'.Fits T n → Q a m'.store → Sound T n (f a) m' after) :
    Sound T n (p >>= f) m after := by
  cases hrun : p m with
  | ok a m' =>
    obtain ⟨hgrown, hfits, ha⟩ := hp.ok hrun
    exact step hrun hgrown (hf a m' hgrown hfits ha)
  | error halt m' =>
    have hbind : (p >>= f) m = .error halt m' := by
      show EStateM.bind p f m = .error halt m'
      rw [EStateM.bind, hrun]
    unfold Sound at hp ⊢
    rw [hrun] at hp
    rw [hbind]
    exact hp

theorem pure (hm : m.Fits T n) {a : α} (ha : Q a m.store) :
    Sound T n (pure a : RunM α) m Q :=
  of_ok rfl (evolution_grown.refl m) hm ha

theorem throw (hm : m.Fits T n) {halt : Halt} (hhalt : halt.Plain) :
    Sound T n (throw halt : RunM α) m Q :=
  ⟨evolution_grown.refl m, hm, hhalt⟩

theorem fail (hm : m.Fits T n) {at_ : Lexeme} {fault : RuntimeFault} (hfault : ¬fault.Internal) :
    Sound T n (RunM.fail at_ fault : RunM α) m Q := by
  refine throw hm ?_
  rintro _ ⟨⟩
  exact hfault

theorem inspect (hm : m.Fits T n) {g : Store → α} (hg : Q (g m.store) m.store) :
    Sound T n (RunM.inspect g) m Q :=
  of_ok rfl (evolution_grown.refl m) hm hg

/-- A change of the store that lets it grow and keeps it fitting. -/
theorem make (hm : m.Fits T n) {g : Store → α × Store} (hgrows : m.store.Grows (g m.store).2)
    (hfits : (g m.store).2.Fits T n) (ha : Q (g m.store).1 (g m.store).2) :
    Sound T n (RunM.make g) m Q :=
  of_ok rfl ⟨rfl, rfl, hgrows⟩ ⟨hm.table, hfits⟩ ha

theorem change (hm : m.Fits T n) {g : Store → Store} {Q : Unit → Store → Prop}
    (hgrows : m.store.Grows (g m.store)) (hfits : (g m.store).Fits T n)
    (ha : Q () (g m.store)) : Sound T n (RunM.change g) m Q :=
  of_ok rfl ⟨rfl, rfl, hgrows⟩ ⟨hm.table, hfits⟩ ha

/-- An action inside another frame; the frame of the position is put back. -/
theorem withFrame {g : FrameId} (h : Sound T n p { m with env := g } Q) :
    Sound T n (RunM.withFrame g p) m Q := by
  unfold Sound at h ⊢
  unfold RunM.withFrame
  cases hrun : p { m with env := g } with
  | ok a m' =>
    rw [hrun] at h
    exact ⟨⟨rfl, h.1.table, h.1.store⟩, ⟨h.2.1.table, h.2.1.store⟩, h.2.2⟩
  | error halt m' =>
    rw [hrun] at h
    exact ⟨⟨rfl, h.1.table, h.1.store⟩, ⟨h.2.1.table, h.2.1.store⟩, h.2.2⟩

theorem deeper (h : Sound T n p { m with depth := m.depth + 1 } Q) :
    Sound T n (RunM.deeper p) m Q := by
  unfold Sound at h ⊢
  unfold RunM.deeper
  cases hrun : p { m with depth := m.depth + 1 } with
  | ok a m' =>
    rw [hrun] at h
    exact ⟨⟨h.1.env, h.1.table, h.1.store⟩, ⟨h.2.1.table, h.2.1.store⟩, h.2.2⟩
  | error halt m' =>
    rw [hrun] at h
    exact ⟨⟨h.1.env, h.1.table, h.1.store⟩, ⟨h.2.1.table, h.2.1.store⟩, h.2.2⟩

end RunM.Sound

/-! ## Occurrences -/

/-- The table has the place of an occurrence, and the scope there needs its name. -/
structure Table.Binds (T : Table) (n : Nat) (scopes : List Scope) (use : Occurrence) : Prop where
  places : T.Places n scopes use
  needs : ∀ d scope, T[use.id]? = some d → scopes[d]? = some scope → scope.Needs use.name.text

theorem Table.Readable.binds {scopes : List Scope} {use : Occurrence}
    (h : T.Readable n scopes use) : T.Binds n scopes use :=
  ⟨h.1, fun d scope hd hscope => .inl (h.2 d scope hd hscope)⟩

/-- Where the table places an occurrence there is a scope, and it has the name. -/
theorem Table.Places.scope {scopes : List Scope} {use : Occurrence} (h : T.Places n scopes use)
    {d : Nat} (hd : T[use.id]? = some d) :
    ∃ scope, scopes[d]? = some scope ∧ scope.contains use.name.text = true := by
  rw [h.2] at hd
  obtain ⟨hlt, hcontains, _⟩ := List.findIdx?_eq_some_iff_getElem.mp hd
  exact ⟨scopes[d], List.getElem?_eq_getElem hlt, hcontains⟩

theorem Table.Places.binds_this {scopes : List Scope} {use : Occurrence}
    (h : T.Places n scopes use) (hname : use.name.text = "this") : T.Binds n scopes use := by
  refine ⟨h, fun d scope hd hscope => ?_⟩
  obtain ⟨found, hfound, hcontains⟩ := h.scope hd
  rw [hscope] at hfound
  cases hfound
  exact .inr ⟨hcontains, .inl hname⟩

variable {scopes : List Scope}

/-- The frame at a recorded distance is there and binds the name. -/
theorem Table.Binds.frame {use : Occurrence} (h : T.Binds n scopes use) {s : Store} {f : FrameId}
    (hchain : s.Chain f scopes) {d : Nat} (hd : T[use.id]? = some d) :
    ∃ g v, s.ancestor? f d = some g ∧ s.own? g use.name.text = some v := by
  obtain ⟨scope, hscope, _⟩ := h.places.scope hd
  obtain ⟨g, hg, _, hbound⟩ := hchain.ancestor? hscope
  obtain ⟨v, hv⟩ := Option.isSome_iff_exists.mp (hbound _ (h.needs d scope hd hscope))
  exact ⟨g, v, hg, hv⟩

/-- The frame at a recorded distance is there. -/
theorem Table.Places.frame {use : Occurrence} (h : T.Places n scopes use) {s : Store} {f : FrameId}
    (hchain : s.Chain f scopes) {d : Nat} (hd : T[use.id]? = some d) :
    ∃ g, s.ancestor? f d = some g ∧ (s.parent? g).isSome := by
  obtain ⟨scope, hscope, _⟩ := h.scope hd
  obtain ⟨g, hg, hlinked, _⟩ := hchain.ancestor? hscope
  exact ⟨g, hg, hlinked⟩

/-- A `super` has a class at its distance, and an instance one frame further in. -/
theorem Table.Inherits.frames {use : Occurrence} (h : T.Inherits n scopes use) {s : Store}
    {f : FrameId} (hchain : s.Chain f scopes) (hs : s.Fits T n) :
    ∃ d parent i, T[use.id]? = some (d + 1) ∧
      (∃ g, s.ancestor? f (d + 1) = some g ∧ (s.parent? g).isSome) ∧
      s.namedAt? f (d + 1) "super" = some (.class parent) ∧
      s.namedAt? f d "this" = some (.instance i) ∧ parent.Fits T n s := by
  obtain ⟨_, d, receiver, parent, hd, hreceiver, hthis, hparent, hsuper⟩ := h
  obtain ⟨g, hg, _, hbound⟩ := hchain.ancestor? hreceiver
  obtain ⟨v, hv⟩ := Option.isSome_iff_exists.mp (hbound "this" (.inr ⟨hthis, .inl rfl⟩))
  obtain ⟨i, rfl⟩ := (hs.vars g _ v hv).2.1 rfl
  obtain ⟨g', hg', hlinked, houter⟩ := hchain.ancestor? hparent
  obtain ⟨w, hw⟩ := Option.isSome_iff_exists.mp (houter "super" (.inr ⟨hsuper, .inr rfl⟩))
  obtain ⟨cls, rfl⟩ := (hs.vars g' _ w hw).2.2 rfl
  refine ⟨d, cls, i, hd, ⟨g', hg', hlinked⟩, ?_, ?_, (hs.vars g' _ _ hw).1⟩
  · rw [Store.namedAt?, hg']
    exact hw
  · rw [Store.namedAt?, hg]
    exact hv

/-- Reading an occurrence yields a fitting value; only one that the table does not
    have can be undefined. -/
theorem Table.Binds.lookUp {use : Occurrence} (h : T.Binds n scopes use) (hm : m.Fits T n)
    (hchain : m.store.Chain m.env scopes) :
    (∃ v, m.lookUp use = .ok v ∧ v.Fits T n m.store) ∨
      T[use.id]? = none ∧ m.lookUp use = .error (Store.undefined use.name) := by
  unfold Machine.lookUp
  rw [hm.table]
  cases hd : T[use.id]? with
  | some d =>
    obtain ⟨g, v, hg, hv⟩ := h.frame hchain hd
    refine .inl ⟨v, ?_, (hm.store.vars g _ v hv).1⟩
    simp only [Store.getAt, Store.namedAt?, hg, Option.bind_some, hv]
  | none =>
    cases hget : (m.store.owner? use.name.text Store.globals).bind
        (m.store.own? · use.name.text) with
    | none => exact .inr ⟨rfl, by simp only [Store.get, hget]⟩
    | some v =>
      obtain ⟨g, _, hv⟩ := Option.bind_eq_some_iff.mp hget
      exact .inl ⟨v, by simp only [Store.get, hget], (hm.store.vars g _ v hv).1⟩

theorem sound_read {use : Occurrence} (h : T.Binds n scopes use) (hm : m.Fits T n)
    (hchain : m.store.Chain m.env scopes) :
    Sound T n (read use) m fun v s => v.Fits T n s := by
  have hread := read_eq use m
  rcases h.lookUp hm hchain with ⟨v, hv, hfits⟩ | ⟨_, herror⟩
  · rw [hv] at hread
    exact .of_ok hread (evolution_grown.refl m) hm hfits
  · rw [herror] at hread
    unfold Sound
    rw [hread]
    refine ⟨evolution_grown.refl m, hm, ?_⟩
    rintro _ ⟨⟩
    exact id

theorem sound_define {name : Lexeme} (hname : name.Ordinary) {v : Value} (hm : m.Fits T n)
    (hv : v.Fits T n (m.store.define m.env name.text v)) (hchain : m.store.Chain m.env scopes) :
    Sound T n (define name.text v) m fun _ s => s.Chain m.env (Scope.mark scopes name.text true) :=
  .of_ok rfl ⟨rfl, rfl, m.store.grows_define m.env name.text v⟩
    ⟨hm.table, hm.store.define hv (hname.suits v)⟩ (hchain.define name.text v)

/-- The frame that is written to binds the name from then on. -/
theorem sound_write {use : Occurrence} (hname : use.name.Ordinary) {v : Value} (hm : m.Fits T n)
    (hv : v.Fits T n m.store) : Sound T n (write use v) m fun _ _ => True := by
  unfold Sound RunM.write
  cases target? m use with
  | none =>
    refine ⟨evolution_grown.refl m, hm, ?_⟩
    rintro _ ⟨⟩
    exact id
  | some g =>
    have hgrow := m.store.grows_define g use.name.text v
    exact ⟨⟨rfl, rfl, hgrow⟩, ⟨hm.table, hm.store.define (hv.grow hgrow) (hname.suits v)⟩, trivial⟩

/-! ## Operators and properties -/

/-- A value that refers to nothing fits every store. -/
theorem Value.Free.fits {v : Value} (h : v.Free) (s : Store) : v.Fits T n s := by
  cases v with
  | function closure stamp => exact h.elim
  | «class» cls => exact h.elim
  | _ => trivial

theorem sound_unary (sign : Lexeme) {op : TokenKind} (hop : InFront op) (v : Value)
    (hm : m.Fits T n) : Sound T n (op.applyUnary sign v) m fun v s => v.Fits T n s := by
  rcases op.applyUnary_cases sign v with ⟨w, heq, hw⟩ | ⟨fault, heq, hfault | ⟨hno, _⟩⟩
  · rw [heq]
    exact .pure hm (hw.fits _)
  · rw [heq]
    exact .fail hm hfault.not_internal
  · exact absurd hop hno

theorem sound_binary (sign : Lexeme) {op : TokenKind} {rule : Rule} (hop : InBetween rule op)
    (a b : Value) (hm : m.Fits T n) :
    Sound T n (op.applyBinary sign a b) m fun v s => v.Fits T n s := by
  rcases op.applyBinary_cases sign a b with ⟨w, heq, hw⟩ | ⟨fault, heq, hfault | ⟨hno, _⟩⟩
  · rw [heq]
    exact .pure hm (hw.fits _)
  · rw [heq]
    exact .fail hm hfault.not_internal
  · exact absurd hop (hno rule)

theorem sound_asInstance (at_ : Lexeme) (fault : RuntimeFault) (v : Value) (hm : m.Fits T n)
    (hfault : ¬fault.Internal) :
    Sound T n (asInstance at_ fault v) m fun _ _ => True := by
  unfold asInstance
  split
  · exact .pure hm trivial
  · exact .fail hm hfault

theorem sound_functionValue {closure : Closure} (hm : m.Fits T n)
    (hclosure : closure.Fits T n m.store) :
    Sound T n (make (·.functionValue closure)) m fun v s => v.Fits T n s := by
  have hgrows : m.store.Grows m.store.newStamp.2 := Store.grows_of_frames rfl
  exact .make hm hgrows hm.store.newStamp (Closure.Fits.grow hclosure hgrows)

/-- The frame of `this` is the one frame that the closure of a method lacks. -/
theorem sound_bindMethod {method : Closure} (i : InstanceId) (hm : m.Fits T n)
    (hmethod : method.FitsMethod T n m.store) :
    Sound T n (make (·.bindMethod method i)) m fun closure s =>
      closure.Fits T n s ∧ closure.decl = method.decl := by
  obtain ⟨outer, hchain, hscoped⟩ := hmethod
  refine .make hm (m.store.grows_newFrame _) (hm.store.newFrame fun name v hv => ?_)
    ⟨⟨.single "this" true :: outer, hchain.push fun name hname => ?_, hscoped⟩, rfl⟩
  · by_cases hne : "this" = name
    · have hvalue : some (Value.instance i) = some v := by
        rw [← hv, ← hne]
        rfl
      cases hvalue
      exact ⟨trivial, fun _ => ⟨i, rfl⟩, fun heq => by simp [← hne] at heq⟩
    · have hnone : (Bindings.single "this" (Value.instance i)).get? name = none := by
        show Bindings.find? name [("this", Value.instance i)] = none
        rw [Bindings.find?, if_neg hne]
        rfl
      rw [hnone] at hv
      cases hv
  · rw [hname.of_single]
    rfl

theorem sound_boundMethod {method : Closure} (i : InstanceId) (hm : m.Fits T n)
    (hmethod : method.FitsMethod T n m.store) :
    Sound T n (boundMethod method i) m fun v s => v.Fits T n s :=
  (sound_bindMethod i hm hmethod).bind fun _ _ _ hm' hclosure => sound_functionValue hm' hclosure.1

theorem sound_readProperty (i : InstanceId) (property : Lexeme) (hm : m.Fits T n) :
    Sound T n (readProperty i property) m fun v s => v.Fits T n s := by
  refine Sound.bind (Q := fun field s => ∀ v, field = some v → v.Fits T n s)
    (.inspect hm fun v hv => hm.store.fields i _ v hv) fun field m' _ hm' hfield => ?_
  split
  · next v => exact .pure hm' (hfield v rfl)
  · refine Sound.bind (Q := fun method s => ∀ c, method = some c → c.FitsMethod T n s)
      (.inspect hm' fun c hc => hm'.store.methods i _ c hc) fun method m'' _ hm'' hmethod => ?_
    split
    · next c => exact sound_boundMethod i hm'' (hmethod c rfl)
    · exact .fail hm'' id

/-- What a `super` finds when the two frames are as they should be. -/
theorem superBinding_eq {keyword : Occurrence} {d : Nat} {parent : Class} {i : InstanceId}
    (hd : m.table[keyword.id]? = some (d + 1))
    (hparent : m.store.namedAt? m.env (d + 1) "super" = some (.class parent))
    (hreceiver : m.store.namedAt? m.env d "this" = some (.instance i)) :
    superBinding keyword m = .ok (parent, i) m := by
  have hget (f : Machine → RunM (Class × InstanceId)) : (get >>= f) m = f m m := rfl
  unfold superBinding
  rw [hget]
  simp only [hd, Nat.add_one_ne_zero, if_false, Nat.add_sub_cancel, hparent, hreceiver]
  rfl

theorem sound_superMethod {keyword : Occurrence} (method : Lexeme)
    (h : T.Inherits n scopes keyword) (hm : m.Fits T n) (hchain : m.store.Chain m.env scopes) :
    Sound T n (superMethod keyword method) m fun v s => v.Fits T n s := by
  obtain ⟨d, parent, i, hd, -, hparent, hreceiver, hfits⟩ := h.frames hchain hm.store
  rw [← hm.table] at hd
  refine .step (superBinding_eq hd hparent hreceiver) (evolution_grown.refl m) ?_
  dsimp only
  split
  · next c hc => exact sound_boundMethod i hm (hfits _ c hc)
  · exact .fail hm id

/-! ## Expressions -/

/-- A call of fitting values goes well. -/
def Invoke.Sound (T : Table) (n : Nat) (call : Invoke) : Prop :=
  ∀ f paren vs (m : Machine), m.Fits T n → f.Fits T n m.store → (∀ v ∈ vs, v.Fits T n m.store) →
    RunM.Sound T n (call f paren vs) m fun v s => v.Fits T n s

variable {call : Invoke}

mutual

/-- A scoped expression goes well inside the frames of its scopes. -/
theorem Expr.sound (hcall : call.Sound T n) (e : Expr) (he : e.Scoped T n scopes) {m : Machine}
    (hm : m.Fits T n) (hchain : m.store.Chain m.env scopes) :
    Sound T n (e.eval call) m fun v s => v.Fits T n s := by
  cases e with
  | literal value => exact .pure hm ((Value.free_ofLiteral value).fits _)
  | grouping inner => exact Expr.sound hcall inner he hm hchain
  | unary op sign operand =>
    exact (Expr.sound hcall operand he.2 hm hchain).bind fun v _ _ hm' _ =>
      sound_unary sign he.1 v hm'
  | binary op sign left right =>
    obtain ⟨⟨rule, hop⟩, hleft, hright⟩ := he
    refine (Expr.sound hcall left hleft hm hchain).bind fun a m₁ hg hm₁ _ => ?_
    exact (Expr.sound hcall right hright hm₁ (hg.chain hchain)).bind fun b _ _ hm₂ _ =>
      sound_binary sign hop a b hm₂
  | logical op sign left right =>
    refine (Expr.sound hcall left he.1 hm hchain).bind fun a m₁ hg hm₁ ha => ?_
    split
    · exact .pure hm₁ ha
    · exact Expr.sound hcall right he.2 hm₁ (hg.chain hchain)
  | name use => exact sound_read (Table.Readable.binds he) hm hchain
  | assign target value =>
    refine (Expr.sound hcall value he.2.2 hm hchain).bind fun v m₁ _ hm₁ hv => ?_
    exact (sound_write he.2.1 hm₁ hv).bind fun _ m₂ hg hm₂ _ => .pure hm₂ (hv.grow hg.store)
  | call callee paren arguments =>
    refine (Expr.sound hcall callee he.1 hm hchain).bind fun f m₁ hg hm₁ hf => ?_
    refine (Expr.listSound hcall arguments he.2 hm₁ (hg.chain hchain)).bind
      fun vs m₂ hg₂ hm₂ hvs => ?_
    exact hcall f paren vs m₂ hm₂ (hf.grow hg₂.store) hvs
  | get object property =>
    refine (Expr.sound hcall object he hm hchain).bind fun v m₁ _ hm₁ _ => ?_
    exact (sound_asInstance property .propertyOfNonInstance v hm₁ id).bind
      fun i _ _ hm₂ _ => sound_readProperty i property hm₂
  | set object property value =>
    -- The object is checked before the value is evaluated.
    refine (Expr.sound hcall object he.1 hm hchain).bind fun o m₁ hg hm₁ _ => ?_
    refine (sound_asInstance property .fieldOfNonInstance o hm₁ id).bind
      fun i m₂ hg₂ hm₂ _ => ?_
    have hvalue := Expr.sound hcall value he.2 hm₂ (hg₂.chain (hg.chain hchain))
    refine hvalue.bind fun v m₃ _ hm₃ hv => ?_
    refine Sound.bind (Q := fun _ s => v.Fits T n s) (.change hm₃ (Store.grows_of_frames rfl)
      (hm₃.store.setField hv) (hv.grow (Store.grows_of_frames rfl))) fun _ m₄ _ hm₄ hv₄ => ?_
    exact .pure hm₄ hv₄
  | this keyword => exact sound_read (he.2.binds_this he.1) hm hchain
  | super keyword method => exact sound_superMethod method he hm hchain

theorem Expr.listSound (hcall : call.Sound T n) (es : List Expr)
    (hes : Expr.ListScoped T n scopes es) {m : Machine} (hm : m.Fits T n)
    (hchain : m.store.Chain m.env scopes) :
    Sound T n (Expr.listEval call es) m fun vs s => ∀ v ∈ vs, v.Fits T n s := by
  cases es with
  | nil => exact .pure hm nofun
  | cons e es =>
    refine (Expr.sound hcall e hes.1 hm hchain).bind fun v m₁ hg hm₁ hv => ?_
    refine (Expr.listSound hcall es hes.2 hm₁ (hg.chain hchain)).bind
      fun vs m₂ hg₂ hm₂ hvs => .pure hm₂ fun w hw => ?_
    rcases List.mem_cons.mp hw with rfl | hmem
    · exact hv.grow hg₂.store
    · exact hvs w hmem

end

theorem Expr.optionSound (hcall : call.Sound T n) (e : Option Expr)
    (he : Expr.OptionScoped T n scopes e) (hm : m.Fits T n)
    (hchain : m.store.Chain m.env scopes) :
    Sound T n (Expr.optionEval call e) m fun v s => v.Fits T n s := by
  cases e with
  | none => exact .pure hm trivial
  | some e => exact Expr.sound hcall e he hm hchain

/-! ## Statements -/

def Flow.Fits (T : Table) (n : Nat) (s : Store) : Flow → Prop
  | .returned v => v.Fits T n s
  | _ => True

theorem sound_whileLoop {condition : RunM Bool} {body : RunM Flow}
    (hcondition : ∀ m : Machine, m.Fits T n → m.store.Chain m.env scopes →
      Sound T n condition m fun _ _ => True)
    (hbody : ∀ m : Machine, m.Fits T n → m.store.Chain m.env scopes →
      Sound T n body m fun flow s => flow.Fits T n s)
    (bound : Nat) {m : Machine} (hm : m.Fits T n) (hchain : m.store.Chain m.env scopes) :
    Sound T n (whileLoop condition body bound) m fun flow s => flow.Fits T n s := by
  induction bound generalizing m with
  | zero => exact .throw hm nofun
  | succ bound ih =>
    refine (hcondition m hm hchain).bind fun holds m₁ hg hm₁ _ => ?_
    split
    · refine (hbody m₁ hm₁ (hg.chain hchain)).bind fun flow m₂ hg₂ hm₂ hflow => ?_
      cases flow with
      | normal => exact ih hm₂ (hg₂.chain (hg.chain hchain))
      | broken => exact .pure hm₂ trivial
      | returned v => exact .pure hm₂ hflow
    · exact .pure hm₁ trivial

/-- A function closes over the frame in which it is bound itself. -/
theorem sound_defineFunction {decl : FunctionDecl} (hname : decl.name.Ordinary)
    (hdecl : decl.Scoped T n (Scope.mark scopes decl.name.text true)) (hm : m.Fits T n)
    (hchain : m.store.Chain m.env scopes) :
    Sound T n (defineFunction decl) m fun _ s =>
      s.Chain m.env (Scope.mark scopes decl.name.text true) := by
  refine .step rfl (evolution_grown.refl m) ?_
  refine Sound.bind (Q := fun v _ => ∃ stamp, v = .function ⟨decl, m.env, false⟩ stamp)
    (.make hm (Store.grows_of_frames rfl) hm.store.newStamp ⟨_, rfl⟩) ?_
  rintro _ m₁ hg hm₁ ⟨stamp, rfl⟩
  have hchain₁ := hg.chain hchain
  rw [← hg.env]
  exact sound_define hname hm₁ ⟨_, hchain₁.define _ _, hdecl⟩ hchain₁

theorem FunctionDecl.ListScoped.scoped {ds : List FunctionDecl}
    (h : FunctionDecl.ListScoped T n scopes ds) : ∀ d ∈ ds, d.Scoped T n scopes := by
  induction ds with
  | nil => nofun
  | cons d ds ih =>
    intro e he
    rcases List.mem_cons.mp he with rfl | hmem
    · exact h.1
    · exact ih h.2 e hmem

/-- The methods of a class are its declarations by their names, closed over one frame;
    `init` is the initializer. -/
theorem methodTable_get? {frame : FrameId} {methods : List FunctionDecl} {name : String}
    {method : Closure} (h : (methodTable frame methods).get? name = some method) :
    method.decl ∈ methods ∧ method.frame = frame ∧ method.decl.name.text = name ∧
      method.isInitializer = decide (name = "init") := by
  suffices hfold : ∀ table : Bindings Closure,
      (methods.foldl (fun table d => table.insert d.name.text ⟨d, frame, d.name.text = "init"⟩)
        table).get? name = some method →
      (method.decl ∈ methods ∧ method.frame = frame ∧ method.decl.name.text = name ∧
        method.isInitializer = decide (name = "init")) ∨ table.get? name = some method from
    (hfold .empty h).resolve_right nofun
  clear h
  induction methods with
  | nil => exact fun table h => .inr h
  | cons d ds ih =>
    intro table h
    rcases ih _ h with ⟨hmem, hrest⟩ | hold
    · exact .inl ⟨List.mem_cons_of_mem _ hmem, hrest⟩
    · by_cases hname : name = d.name.text
      · rw [hname, Bindings.get?_insert_self] at hold
        cases hold
        exact .inl ⟨List.mem_cons_self, rfl, hname.symm, by rw [hname]⟩
      · rw [table.get?_insert_of_ne hname] at hold
        exact .inr hold

/-- A class fits once its name is bound, which its methods may use. -/
theorem sound_bindClass {name : Lexeme} {methods : List FunctionDecl} {parent : Option Class}
    {frame : FrameId} {inner : List Scope} (hname : name.Ordinary)
    (hparent : ∀ cls, parent = some cls → cls.Fits T n m.store)
    (hmethods : FunctionDecl.ListScoped T n (.single "this" true :: inner) methods)
    (hframe : ∀ t, m.store.Grows t → t.Chain m.env (Scope.mark scopes name.text true) →
      t.Chain frame inner)
    (hm : m.Fits T n) (hchain : m.store.Chain m.env scopes) :
    Sound T n (do
      let stamp ← make Store.newStamp
      define name.text (.class ⟨stamp, name.text, methodTable frame methods, parent⟩)) m
      fun _ s => s.Chain m.env (Scope.mark scopes name.text true) := by
  refine Sound.bind (Q := fun _ _ => True)
    (.make hm (Store.grows_of_frames rfl) hm.store.newStamp trivial) fun stamp m₁ hg hm₁ _ => ?_
  have hchain₁ := hg.chain hchain
  rw [← hg.env] at hframe ⊢
  refine sound_define hname hm₁ (fun called method hmethod => ?_) hchain₁
  have hgrow := m₁.store.grows_define m₁.env name.text
    (.class ⟨stamp, name.text, methodTable frame methods, parent⟩)
  unfold Class.findMethod at hmethod
  split at hmethod
  · next found hfound =>
    cases hmethod
    obtain ⟨hmem, rfl, -⟩ := methodTable_get? hfound
    exact ⟨inner, hframe _ (hg.store.trans hgrow) (hchain₁.define _ _),
      hmethods.scoped _ hmem⟩
  · split at hmethod
    · next cls =>
      exact ((hparent cls rfl).grow (hg.store.trans hgrow)) called method hmethod
    · cases hmethod

/-- A class without a superclass closes over the frame in which it is bound. -/
theorem sound_defineClass_base {name : Lexeme} {methods : List FunctionDecl}
    (hname : name.Ordinary)
    (hmethods : FunctionDecl.ListScoped T n
      (.single "this" true :: Scope.mark scopes name.text true) methods)
    (hm : m.Fits T n) (hchain : m.store.Chain m.env scopes) :
    Sound T n (defineClass name none methods) m fun _ s =>
      s.Chain m.env (Scope.mark scopes name.text true) := by
  refine Sound.bind (Q := fun parent _ => none = parent) (.pure hm rfl) ?_
  rintro _ m₁ hg hm₁ rfl
  have hframe : methodFrame none m₁ = .ok m₁.env m₁ := rfl
  refine .step hframe (evolution_grown.refl m₁) ?_
  rw [← hg.env]
  exact sound_bindClass hname nofun hmethods (fun _ _ h => h) hm₁ (hg.chain hchain)

/-- A superclass clause that goes well yields a fitting class. -/
theorem sound_superclassOf {use : Occurrence} (huse : T.Readable n scopes use) (hm : m.Fits T n)
    (hchain : m.store.Chain m.env scopes) :
    Sound T n (superclassOf (some use)) m fun parent s =>
      ∃ cls, parent = some cls ∧ cls.Fits T n s := by
  refine (sound_read huse.binds hm hchain).bind fun v m₁ _ hm₁ hv => ?_
  split
  · exact .pure hm₁ ⟨_, rfl, hv⟩
  · exact .fail hm₁ id

/-- The methods of a subclass close over a frame with the superclass. -/
theorem sound_methodFrame {cls : Class} (hcls : cls.Fits T n m.store) (hm : m.Fits T n)
    (hchain : m.store.Chain m.env scopes) :
    Sound T n (methodFrame (some cls)) m fun f s =>
      s.Chain f (.single "super" true :: scopes) ∧ s.parent? f = some m.env := by
  have hpush : (m.store.newFrame ⟨.single "super" (.class cls), some m.env⟩).2.Chain
      m.store.frames.size (.single "super" true :: scopes) := by
    apply hchain.push
    intro called hcalled
    rw [hcalled.of_single]
    rfl
  refine .step rfl (evolution_grown.refl m) ?_
  refine .make hm (m.store.grows_newFrame _) (hm.store.newFrame fun called v hv => ?_)
    ⟨hpush, m.store.parent?_newFrame_self _⟩
  by_cases hne : "super" = called
  · have hvalue : some (Value.class cls) = some v := by
      rw [← hv, ← hne]
      rfl
    cases hvalue
    exact ⟨hcls, fun heq => by simp [← hne] at heq, fun _ => ⟨cls, rfl⟩⟩
  · have hnone : (Bindings.single "super" (Value.class cls)).get? called = none := by
      show Bindings.find? called [("super", Value.class cls)] = none
      rw [Bindings.find?, if_neg hne]
      rfl
    rw [hnone] at hv
    cases hv

/-- A class with a superclass closes over a frame of its own inside that one. -/
theorem sound_defineClass_derived {name : Lexeme} {use : Occurrence} {methods : List FunctionDecl}
    (hname : name.Ordinary) (huse : T.Readable n scopes use)
    (hmethods : FunctionDecl.ListScoped T n
      (.single "this" true :: .single "super" true :: Scope.mark scopes name.text true) methods)
    (hm : m.Fits T n) (hchain : m.store.Chain m.env scopes) :
    Sound T n (defineClass name (some use) methods) m fun _ s =>
      s.Chain m.env (Scope.mark scopes name.text true) := by
  refine (sound_superclassOf huse hm hchain).bind ?_
  rintro _ m₁ hg hm₁ ⟨cls, rfl, hcls⟩
  refine (sound_methodFrame hcls hm₁ (hg.chain hchain)).bind fun f m₂ hg₂ hm₂ hf => ?_
  have hchain₂ := hg₂.chain (hg.chain hchain)
  have henv : m₂.env = m.env := hg₂.env.trans hg.env
  rw [← henv]
  refine sound_bindClass hname ?_ hmethods (fun t hgrow houter => ?_) hm₂ hchain₂
  · rintro _ ⟨⟩
    exact hcls.grow hg₂.store
  · -- The frame of `super` is inside the one that has the class by now.
    refine ⟨(hf.1.grow hgrow).1, m₂.env, ?_, houter⟩
    rw [hg₂.env]
    exact hgrow.parent? hf.2

/-- What is known behind a statement: its flow fits, and if it ended normally, the
    frames are those of the scopes behind it. -/
def Stmt.Leaves (T : Table) (n : Nat) (f : FrameId) (after : List Scope) (flow : Flow) (s : Store) :
    Prop :=
  flow.Fits T n s ∧ (flow = .normal → s.Chain f after)

mutual

/-- A scoped statement goes well inside the frames of its scopes. -/
theorem Stmt.sound (hcall : call.Sound T n) (bound : Nat) (s : Stmt) {scopes : List Scope}
    (hs : s.Scoped T n scopes) {m : Machine} (hm : m.Fits T n)
    (hchain : m.store.Chain m.env scopes) :
    Sound T n (s.exec call bound) m (Stmt.Leaves T n m.env (s.after scopes)) := by
  match s with
  | .expression value =>
    exact (Expr.sound hcall value hs hm hchain).bind fun _ m₁ hg hm₁ _ =>
      .pure hm₁ ⟨trivial, fun _ => hchain.grow hg.store⟩
  | .print value =>
    refine (Expr.sound hcall value hs hm hchain).bind fun v m₁ hg hm₁ _ => ?_
    refine Sound.bind (Q := fun _ _ => True) ?_ fun _ m₂ hg₂ hm₂ _ =>
      .pure hm₂ ⟨trivial, fun _ => (hchain.grow hg.store).grow hg₂.store⟩
    have hsame (out : Sink) : m₁.Grown { m₁ with out } := evolution_grown.printed m₁ out
    unfold Sound RunM.print
    dsimp only
    split
    · next h =>
      split at h <;> cases h
      exact ⟨hsame _, ⟨hm₁.table, hm₁.store⟩, trivial⟩
    · next h =>
      split at h <;> cases h
      exact ⟨hsame _, ⟨hm₁.table, hm₁.store⟩, nofun⟩
  | .var name initializer =>
    -- The initializer runs where the name is declared, but not yet ready.
    refine (Expr.optionSound hcall initializer hs.2 hm (hchain.declare hs.1.ordinary)).bind
      fun v m₁ hg hm₁ hv => ?_
    have hv := hv.grow (m₁.store.grows_define m₁.env name.text v)
    refine (sound_define hs.1.ordinary hm₁ hv (hg.chain hchain)).bind fun _ m₂ _ hm₂ hafter =>
      .pure hm₂ ⟨trivial, fun _ => hg.env ▸ hafter⟩
  | .block body =>
    refine .step rfl (evolution_grown.refl m) ?_
    refine Sound.bind (Q := fun f s => s.Chain f (.empty :: scopes))
      (.make hm (m.store.grows_newFrame _) (hm.store.child m.env)
        (hchain.push fun _ h => absurd h Scope.not_needs_empty))
      fun f m₁ hg hm₁ hinner => ?_
    have hbody := Stmt.listSound hcall bound body hs (m := { m₁ with env := f })
      ⟨hm₁.table, hm₁.store⟩ hinner
    -- Frames are only added to, so those around the block are there behind it.
    exact hbody.withFrame.mono fun flow t hgrow h =>
      ⟨h.1, fun _ => (hchain.grow hg.store).grow hgrow⟩
  | .ifElse condition yes none =>
    -- A branch declares nothing: the scopes behind it are those before it.
    refine (Expr.sound hcall condition hs.1 hm hchain).bind fun v m₁ hg hm₁ _ => ?_
    split
    · rw [← hg.env]
      refine (Stmt.sound hcall bound yes hs.2.1 hm₁ (hg.chain hchain)).mono fun flow t _ h => ?_
      rw [Stmt.Plain.after hs.2.2] at h
      exact h
    · exact .pure hm₁ ⟨trivial, fun _ => hchain.grow hg.store⟩
  | .ifElse condition yes (some no) =>
    obtain ⟨hcondition, hyes, hplain, hno, hplain'⟩ := hs
    refine (Expr.sound hcall condition hcondition hm hchain).bind fun v m₁ hg hm₁ _ => ?_
    rw [← hg.env]
    split
    · refine (Stmt.sound hcall bound yes hyes hm₁ (hg.chain hchain)).mono fun flow t _ h => ?_
      rw [Stmt.Plain.after hplain] at h
      exact h
    · refine (Stmt.sound hcall bound no hno hm₁ (hg.chain hchain)).mono fun flow t _ h => ?_
      rw [Stmt.Plain.after hplain'] at h
      exact h
  | .while condition body =>
    refine (sound_whileLoop (fun m₁ hm₁ hchain₁ => ?_) (fun m₁ hm₁ hchain₁ => ?_) bound hm
      hchain).mono fun flow t hgrow h => ⟨h, fun _ => hchain.grow hgrow⟩
    · exact (Expr.sound hcall condition hs.1 hm₁ hchain₁).bind fun _ _ _ hm₂ _ => .pure hm₂ trivial
    · exact (Stmt.sound hcall bound body hs.2.1 hm₁ hchain₁).mono fun _ _ _ h => h.1
  | .break keyword => exact .pure hm ⟨trivial, nofun⟩
  | .function decl =>
    exact (sound_defineFunction hs.1.ordinary hs.2 hm hchain).bind fun _ m₁ _ hm₁ hafter =>
      .pure hm₁ ⟨trivial, fun _ => hafter⟩
  | .return keyword value =>
    exact (Expr.optionSound hcall value hs hm hchain).bind fun v m₁ _ hm₁ hv =>
      .pure hm₁ ⟨hv, nofun⟩
  | .class name none methods =>
    exact (sound_defineClass_base hs.1.ordinary hs.2 hm hchain).bind fun _ m₁ _ hm₁ hafter =>
      .pure hm₁ ⟨trivial, fun _ => hafter⟩
  | .class name (some parent) methods =>
    exact (sound_defineClass_derived hs.1.ordinary hs.2.1 hs.2.2 hm hchain).bind
      fun _ m₁ _ hm₁ hafter => .pure hm₁ ⟨trivial, fun _ => hafter⟩

theorem Stmt.listSound (hcall : call.Sound T n) (bound : Nat) (ss : List Stmt)
    {scopes : List Scope} (hss : Stmt.ListScoped T n scopes ss) {m : Machine} (hm : m.Fits T n)
    (hchain : m.store.Chain m.env scopes) :
    Sound T n (Stmt.listExec call bound ss) m
      (Stmt.Leaves T n m.env (Stmt.listAfter scopes ss)) := by
  match ss with
  | [] => exact .pure hm ⟨trivial, fun _ => hchain⟩
  | s :: ss =>
    refine (Stmt.sound hcall bound s hss.1 hm hchain).bind fun flow m₁ hg hm₁ hflow => ?_
    split
    · have hafter := hflow.2 rfl
      rw [← hg.env] at hafter ⊢
      exact Stmt.listSound hcall bound ss hss.2 hm₁ hafter
    · next hne => exact .pure hm₁ ⟨hflow.1, fun h => absurd h (by simpa using hne)⟩

end

/-! ## Calls -/

theorem parameterVars_get? {parameters : List Lexeme} {arguments : List Value} {name : String}
    {v : Value} (h : (parameterVars parameters arguments).get? name = some v) :
    (∃ p ∈ parameters, p.text = name) ∧ v ∈ arguments := by
  suffices hfold : ∀ vars : Bindings Value,
      ((parameters.zip arguments).foldl (fun vars p => vars.insert p.1.text p.2) vars).get? name =
        some v →
      (∃ p ∈ parameters, p.text = name) ∧ v ∈ arguments ∨ vars.get? name = some v from
    (hfold .empty h).resolve_right nofun
  clear h
  induction parameters generalizing arguments with
  | nil => exact fun vars h => .inr h
  | cons p ps ih =>
    intro vars h
    cases arguments with
    | nil => exact .inr h
    | cons a as =>
      rcases ih _ h with ⟨⟨q, hq, hname⟩, hmem⟩ | hold
      · exact .inl ⟨⟨q, List.mem_cons_of_mem _ hq, hname⟩, List.mem_cons_of_mem _ hmem⟩
      · by_cases hname : name = p.text
        · rw [hname, Bindings.get?_insert_self] at hold
          cases hold
          exact .inl ⟨⟨p, List.mem_cons_self, hname.symm⟩, List.mem_cons_self⟩
        · rw [vars.get?_insert_of_ne hname] at hold
          exact .inr hold

/-- With as many arguments as parameters every parameter is bound. -/
theorem parameterVars_contains {parameters : List Lexeme} {arguments : List Value}
    (hlength : parameters.length = arguments.length) {p : Lexeme} (hp : p ∈ parameters) :
    (parameterVars parameters arguments).contains p.text = true := by
  suffices hfold : ∀ vars : Bindings Value, (p ∈ parameters ∨ vars.contains p.text = true) →
      ((parameters.zip arguments).foldl (fun vars p => vars.insert p.1.text p.2) vars).contains
        p.text = true from
    hfold .empty (.inl hp)
  clear hp
  induction parameters generalizing arguments with
  | nil => exact fun vars h => h.resolve_left nofun
  | cons q qs ih =>
    intro vars h
    cases arguments with
    | nil => cases hlength
    | cons a as =>
      refine ih (Nat.succ.inj hlength) (vars.insert q.text a) ?_
      by_cases hname : p.text = q.text
      · refine .inr ?_
        rw [Bindings.contains, hname, Bindings.get?_insert_self]
        rfl
      · rw [Bindings.contains, vars.get?_insert_of_ne hname]
        rcases h with hmem | hold
        · rcases List.mem_cons.mp hmem with rfl | hmem
          · exact absurd rfl hname
          · exact .inl hmem
        · exact .inr hold

/-- The machine in which the body of a function begins to run. -/
def Machine.enter (m : Machine) (closure : Closure) (arguments : List Value) : Machine :=
  let vars := parameterVars closure.decl.parameters arguments
  let made := m.store.newFrame ⟨vars, some closure.frame⟩
  { m with store := made.2, env := made.1, depth := m.depth + 1 }

/-- The body of a function begins in the frames of its scopes. -/
theorem Closure.Fits.enter_parameters {closure : Closure} {arguments : List Value}
    (h : closure.Fits T n m.store) (hm : m.Fits T n) (harity : closure.arity = arguments.length)
    (harguments : ∀ v ∈ arguments, v.Fits T n m.store) :
    (m.enter closure arguments).Fits T n ∧ ∃ outer,
      (m.enter closure arguments).store.Chain (m.enter closure arguments).env
          (Scope.ofParameters closure.decl.parameters :: outer) ∧
        Stmt.ListScoped T n (Scope.ofParameters closure.decl.parameters :: outer)
          closure.decl.body := by
  obtain ⟨⟨name, parameters, body⟩, frame, isInitializer⟩ := closure
  obtain ⟨outer, hchain, hordinary, hbody⟩ := h
  refine ⟨⟨hm.table, hm.store.newFrame fun called v hv => ?_⟩, outer,
    hchain.push fun called hcalled => ?_, hbody⟩
  · obtain ⟨⟨p, hp, rfl⟩, hmem⟩ := parameterVars_get? hv
    exact ⟨harguments v hmem, (hordinary p hp).suits v⟩
  · obtain ⟨p, hp, rfl⟩ := hcalled.of_parameters
    exact parameterVars_contains harity hp

theorem Closure.Fits.enter {closure : Closure} {arguments : List Value}
    (h : closure.Fits T n m.store) (hm : m.Fits T n) (harity : closure.arity = arguments.length)
    (harguments : ∀ v ∈ arguments, v.Fits T n m.store) :
    (m.enter closure arguments).Fits T n ∧ ∃ scopes,
      (m.enter closure arguments).store.Chain (m.enter closure arguments).env scopes ∧
        Stmt.ListScoped T n scopes closure.decl.body :=
  (h.enter_parameters hm harity harguments).imp_right fun ⟨_, hbody⟩ => ⟨_, hbody⟩

theorem sound_checkArity (paren : Lexeme) (expected got : Nat) (hm : m.Fits T n) :
    Sound T n (checkArity paren expected got) m fun _ _ => expected = got := by
  unfold checkArity
  split
  · next h => exact .pure hm h
  · exact .fail hm id

variable {run : List Stmt → RunM Flow}

theorem sound_callClosure
    (hrun : ∀ body scopes (m : Machine), m.Fits T n → m.store.Chain m.env scopes →
      Stmt.ListScoped T n scopes body → Sound T n (run body) m fun flow s => flow.Fits T n s)
    {closure : Closure} (paren : Lexeme) {arguments : List Value} (hm : m.Fits T n)
    (hclosure : closure.Fits T n m.store) (harity : closure.arity = arguments.length)
    (harguments : ∀ v ∈ arguments, v.Fits T n m.store) :
    Sound T n (callClosure run closure paren arguments) m fun v s => v.Fits T n s := by
  obtain ⟨hentered, scopes, hchain, hbody⟩ := hclosure.enter hm harity harguments
  refine .step rfl (evolution_grown.refl m) ?_
  split
  · exact .fail hm id
  · refine .step rfl ⟨rfl, rfl, m.store.grows_newFrame _⟩ ?_
    refine Sound.bind (Q := fun flow s => flow.Fits T n s) (.deeper (.withFrame ?_))
      fun flow m₁ _ hm₁ hflow => ?_
    · exact hrun _ scopes _ hentered hchain hbody
    · split
      · refine .inspect hm₁ ?_
        cases hown : m₁.store.own? closure.frame "this" with
        | none => trivial
        | some v => exact (hm₁.store.vars _ _ v hown).1
      · refine .pure hm₁ ?_
        cases flow with
        | returned v => exact hflow
        | _ => trivial

theorem sound_instantiate
    (hrun : ∀ body scopes (m : Machine), m.Fits T n → m.store.Chain m.env scopes →
      Stmt.ListScoped T n scopes body → Sound T n (run body) m fun flow s => flow.Fits T n s)
    {cls : Class} (paren : Lexeme) {arguments : List Value} (hm : m.Fits T n)
    (hcls : cls.Fits T n m.store) (harity : cls.arity = arguments.length)
    (harguments : ∀ v ∈ arguments, v.Fits T n m.store) :
    Sound T n (instantiate run cls paren arguments) m fun v s => v.Fits T n s := by
  refine Sound.bind (Q := fun _ _ => True)
    (.make hm (Store.grows_of_frames rfl) (hm.store.newInstance hcls) trivial)
    fun i m₁ hg hm₁ _ => ?_
  split
  · exact .pure hm₁ trivial
  · next init hinit =>
    have hinit' : cls.arity = init.arity := by simp only [Class.arity, hinit]
    refine (sound_bindMethod i hm₁ ((hcls.grow hg.store) _ _ hinit)).bind
      fun closure m₂ hg₂ hm₂ hclosure => ?_
    have harity' : closure.arity = arguments.length := by
      rw [← harity, hinit', Closure.arity, Closure.arity, hclosure.2]
    refine (sound_callClosure hrun paren hm₂ hclosure.1 harity' fun v hv => ?_).bind
      fun _ m₃ _ hm₃ _ => .pure hm₃ trivial
    exact ((harguments v hv).grow hg.store).grow hg₂.store

theorem sound_callValue
    (hrun : ∀ body scopes (m : Machine), m.Fits T n → m.store.Chain m.env scopes →
      Stmt.ListScoped T n scopes body → Sound T n (run body) m fun flow s => flow.Fits T n s) :
    Invoke.Sound T n (callValue run) := by
  intro f paren arguments m hm hf harguments
  unfold callValue
  split
  · refine (sound_checkArity _ _ _ hm).bind fun _ m₁ _ hm₁ _ => ?_
    unfold Sound readClock
    cases m₁.clock m₁.ticks with
    | none => exact ⟨evolution_grown.refl m₁, hm₁, nofun⟩
    | some reading => exact ⟨evolution_grown.ticked m₁, ⟨hm₁.table, hm₁.store⟩, trivial⟩
  · refine (sound_checkArity _ _ _ hm).bind fun _ m₁ hg hm₁ harity => ?_
    exact sound_callClosure hrun _ hm₁ (Closure.Fits.grow hf hg.store) harity
      fun v hv => (harguments v hv).grow hg.store
  · refine (sound_checkArity _ _ _ hm).bind fun _ m₁ hg hm₁ harity => ?_
    exact sound_instantiate hrun _ hm₁ (Class.Fits.grow hf hg.store) harity
      fun v hv => (harguments v hv).grow hg.store
  · exact .fail hm id

/-- Every call of fitting values goes well, however deep it may go. -/
theorem invoke_sound (k : Nat) : Invoke.Sound T n (invoke k) := by
  induction k with
  | zero => exact fun _ _ _ _ hm _ _ => .throw hm nofun
  | succ k ih =>
    exact sound_callValue fun body scopes m hm hchain hbody =>
      (Stmt.listSound ih k body hbody hm hchain).mono fun _ _ _ h => h.1

end Lox
