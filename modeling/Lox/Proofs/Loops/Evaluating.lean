/-
  Lox.Proofs.Loops.Evaluating

  An expression that two tables place alike has matching values in both runs
  (`Expr.matches`).

  A look-up by distance ends in a pair of frames, and one without a distance in the
  global frames, which are a pair as well; so both find matching values, or neither
  finds one.
-/
import Lox.Proofs.Loops.Alongside
import Lox.Proofs.Renaming.Evaluating

namespace Lox

open RunM

variable {T T' : Table} {ν : Nat → Nat} {pairs : FramePairs} {m : Machine} {s' : Store}
  {f' : FrameId} {links : List Link}

/-! ## Occurrences -/

/-- At joined distances both runs find matching values for a name, or none. -/
theorem Machine.Stands.namedAt? (h : m.Stands T T' pairs links s' f') {d d' : Nat}
    (hjoins : Link.Joins links d d') (name : String) :
    Option.Rel (Value.Matches T T' pairs m.store s') (m.store.namedAt? m.env d name)
      (s'.namedAt? f' d' name) := by
  obtain ⟨g, g', hg, hg', hpair⟩ := h.beside.ancestor? hjoins
  rw [Store.namedAt?, Store.namedAt?, hg, hg']
  exact h.store.vars _ hpair name

/-- What an occurrence means in both runs: matching values, or the same fault. -/
theorem Machine.Stands.lookUp (h : m.Stands T T' pairs links s' f') {use : Occurrence}
    (huse : use.Placed T T' ν links) :
    (∃ v v', m.lookUp use = .ok v ∧
        (m.across T' s' f').lookUp (use.relabel (.numbers ν)) = .ok v' ∧
        v.Matches T T' pairs m.store s' v') ∨
      ∃ e, m.lookUp use = .error e ∧
        (m.across T' s' f').lookUp (use.relabel (.numbers ν)) = .error e := by
  rcases huse with ⟨hnone, hnone'⟩ | ⟨d, d', hd, hd', hjoins⟩
  · have hlook : m.lookUp use = m.store.get Store.globals use.name := by
      simp only [Machine.lookUp, h.table, hnone]
    have hlook' : (m.across T' s' f').lookUp (use.relabel (.numbers ν)) =
        s'.get Store.globals use.name := by
      simp only [Machine.lookUp, Machine.across, Occurrence.relabel_numbers, hnone']
    rw [hlook, hlook', Store.get_globals h.store.root, Store.get_globals h.store.root']
    rcases rel_cases (h.store.vars _ h.store.global use.name.text) with
      ⟨hown, hown'⟩ | ⟨v, v', hown, hown', hv⟩
    · rw [hown, hown']
      exact .inr ⟨_, rfl, rfl⟩
    · rw [hown, hown']
      exact .inl ⟨v, v', rfl, rfl, hv⟩
  · have hlook : m.lookUp use = m.store.getAt m.env d use.name := by
      simp only [Machine.lookUp, h.table, hd]
    have hlook' : (m.across T' s' f').lookUp (use.relabel (.numbers ν)) =
        s'.getAt f' d' use.name := by
      simp only [Machine.lookUp, Machine.across, Occurrence.relabel_numbers, hd']
    rw [hlook, hlook', Store.getAt, Store.getAt]
    rcases rel_cases (h.namedAt? hjoins use.name.text) with
      ⟨hnamed, hnamed'⟩ | ⟨v, v', hnamed, hnamed', hv⟩
    · rw [hnamed, hnamed']
      exact .inr ⟨_, rfl, rfl⟩
    · rw [hnamed, hnamed']
      exact .inl ⟨v, v', rfl, rfl, hv⟩

theorem matches_read (h : m.Stands T T' pairs links s' f') {use : Occurrence}
    (huse : use.Placed T T' ν links) :
    RunM.Accords T T' pairs (read use) (read (use.relabel (.numbers ν))) m s' f'
      (Value.Matches T T') := by
  have hread := read_eq use m
  have hread' := read_eq (use.relabel (.numbers ν)) (m.across T' s' f')
  rcases h.lookUp huse with ⟨v, v', hlook, hlook', hv⟩ | ⟨e, hlook, hlook'⟩
  · rw [hlook] at hread
    rw [hlook'] at hread'
    exact .ok hread hread' (.refl h.toMatches) hv
  · rw [hlook] at hread
    rw [hlook'] at hread'
    exact .error hread hread' (.refl h.toMatches)

/-- Binding a name in the frames of the positions. -/
theorem matches_define (h : m.Stands T T' pairs links s' f') (hshared : Link.Shared links)
    (name : String) {v v' : Value} (hv : v.Matches T T' pairs m.store s' v') :
    RunM.Accords T T' pairs (define name v) (define name v') m s' f' fun _ _ _ _ _ => True :=
  .ok rfl rfl (.stored h.toMatches (m.store.grows_define m.env name v)
    (s'.grows_define f' name v') (List.Subset.refl _)
    (h.store.define (h.pair hshared) name hv)) trivial

/-- Both runs write to a pair of frames, or none of them finds the name. -/
theorem matches_write (h : m.Stands T T' pairs links s' f') {use : Occurrence}
    (huse : use.Placed T T' ν links) {v v' : Value} (hv : v.Matches T T' pairs m.store s' v') :
    RunM.Accords T T' pairs (write use v) (write (use.relabel (.numbers ν)) v') m s' f'
      fun _ _ _ _ _ => True := by
  have inPair {g g' : FrameId} (hpair : (g, g') ∈ pairs) (htarget : target? m use = some g)
      (htarget' : target? (m.across T' s' f') (use.relabel (.numbers ν)) = some g') :
      RunM.Accords T T' pairs (write use v) (write (use.relabel (.numbers ν)) v') m s' f'
        fun _ _ _ _ _ => True := by
    have hwrite : write use v m = .ok () { m with store := m.store.define g use.name.text v } := by
      rw [write, htarget]
    have hwrite' : write (use.relabel (.numbers ν)) v' (m.across T' s' f') =
        .ok () (m.across T' (s'.define g' use.name.text v') f') := by
      rw [write, htarget']
      rfl
    exact .ok hwrite hwrite' (.stored h.toMatches (m.store.grows_define g use.name.text v)
      (s'.grows_define g' use.name.text v') (List.Subset.refl _)
      (h.store.define hpair use.name.text hv)) trivial
  rcases huse with ⟨hnone, hnone'⟩ | ⟨d, d', hd, hd', hjoins⟩
  · have hglobals : target? m use = m.store.owner? use.name.text Store.globals := by
      simp only [target?, h.table, hnone]
    have hglobals' : target? (m.across T' s' f') (use.relabel (.numbers ν)) =
        s'.owner? use.name.text Store.globals := by
      simp only [target?, Machine.across, Occurrence.relabel_numbers, hnone']
    rw [Store.owner?_globals h.store.root] at hglobals
    rw [Store.owner?_globals h.store.root'] at hglobals'
    rcases rel_cases (h.store.vars _ h.store.global use.name.text) with
      ⟨hown, hown'⟩ | ⟨_, _, hown, hown', _⟩
    · rw [hown] at hglobals
      rw [hown'] at hglobals'
      have hwrite : write use v m = .error (.error (Store.undefined use.name)) m := by
        rw [write, hglobals]
        rfl
      have hwrite' : write (use.relabel (.numbers ν)) v' (m.across T' s' f') =
          .error (.error (Store.undefined use.name)) (m.across T' s' f') := by
        rw [write, hglobals']
        rfl
      exact .error hwrite hwrite' (.refl h.toMatches)
    · rw [hown] at hglobals
      rw [hown'] at hglobals'
      exact inPair h.store.global hglobals hglobals'
  · obtain ⟨g, g', hg, hg', hpair⟩ := h.beside.ancestor? hjoins
    refine inPair hpair ?_ ?_
    · simp only [target?, h.table, hd, hg]
    · simp only [target?, Machine.across, Occurrence.relabel_numbers, hd', hg']

/-! ## Operators -/

namespace Value

variable {s : Store}

theorem Matches.bare {v v' : Value} (h : v.Matches T T' pairs s s' v') : v'.bare = v.bare := by
  cases v with
  | function closure stamp =>
    obtain ⟨_, rfl, ν, links, f', _, _, _, rfl⟩ := h
    simp only [Value.bare, FunctionDecl.relabel_name, Lexeme.relabel_numbers]
  | «class» cls =>
    obtain ⟨cls', rfl, hcls⟩ := h
    simp only [Value.bare, hcls.stamp, hcls.name]
  | _ => rw [show v' = _ from h]

theorem Plain.matches {v : Value} (h : v.Plain) : v.Matches T T' pairs s s' v := by
  cases v with
  | function closure stamp => exact h.elim
  | «class» cls => exact h.elim
  | _ => rfl

theorem Matches.isTruthy {v v' : Value} (h : v.Matches T T' pairs s s' v') :
    v'.isTruthy = v.isTruthy := by
  rw [← isTruthy_bare v', h.bare, isTruthy_bare]

end Value

theorem RunM.Constant.matches {α : Type} {p : RunM α} {P : α → Prop} (h : p.Constant P)
    (hm : m.Matches T T' pairs s') {R : FramePairs → Store → Store → α → α → Prop}
    (hR : ∀ a, P a → R pairs m.store s' a a) : RunM.Accords T T' pairs p p m s' f' R := by
  rcases h with ⟨a, rfl, ha⟩ | ⟨at_, fault, rfl⟩
  · exact .pure hm (hR a ha)
  · exact .fail hm at_ fault

theorem matches_unary (sign : Lexeme) (op : TokenKind) {v v' : Value}
    (hm : m.Matches T T' pairs s') (hv : v.Matches T T' pairs m.store s' v') :
    RunM.Accords T T' pairs (op.applyUnary sign v) (op.applyUnary sign v') m s' f'
      (Value.Matches T T') := by
  rw [← op.applyUnary_bare sign v', hv.bare, op.applyUnary_bare]
  exact (op.unary_constant sign v).matches hm fun _ h => h.plain.matches

theorem matches_binary (sign : Lexeme) (op : TokenKind) {a a' b b' : Value}
    (hm : m.Matches T T' pairs s') (ha : a.Matches T T' pairs m.store s' a')
    (hb : b.Matches T T' pairs m.store s' b') :
    RunM.Accords T T' pairs (op.applyBinary sign a b) (op.applyBinary sign a' b') m s' f'
      (Value.Matches T T') := by
  rw [← op.applyBinary_bare sign a', ha.bare, hb.bare, op.applyBinary_bare]
  exact (op.binary_constant sign a b).matches hm fun _ h => h.plain.matches

theorem matches_asInstance (at_ : Lexeme) (fault : RuntimeFault) {v v' : Value}
    (hm : m.Matches T T' pairs s') (hv : v.Matches T T' pairs m.store s' v') :
    RunM.Accords T T' pairs (asInstance at_ fault v) (asInstance at_ fault v') m s' f'
      fun _ _ _ i i' => i' = i := by
  rw [← asInstance_bare at_ fault v', hv.bare, asInstance_bare]
  exact (asInstance_constant at_ fault v).matches hm fun _ _ => rfl

/-! ## Properties -/

theorem rel_single_same {R : Value → Value → Prop} (key : String) {v v' : Value} (h : R v v')
    (name : String) :
    Option.Rel R ((Bindings.single key v).get? name) ((Bindings.single key v').get? name) := by
  show Option.Rel R (Bindings.find? name [(key, v)]) (Bindings.find? name [(key, v')])
  unfold Bindings.find?
  split
  · exact .some h
  · exact .none

theorem matches_functionValue {closure closure' : Closure} (hm : m.Matches T T' pairs s')
    (h : closure.Matches T T' pairs m.store s' closure') :
    RunM.Accords T T' pairs (make (·.functionValue closure)) (make (·.functionValue closure')) m
      s' f' (Value.Matches T T') := by
  have hgrows : m.store.Grows m.store.newStamp.2 := Store.grows_of_frames rfl
  have hgrows' : s'.Grows s'.newStamp.2 := Store.grows_of_frames rfl
  refine .make hm (List.Subset.refl _) hgrows hgrows' hm.store.newStamp ⟨closure', ?_,
    h.grow (List.Subset.refl _) hgrows hgrows'⟩
  show Value.function closure' s'.nextStamp = Value.function closure' m.store.nextStamp
  rw [hm.store.stamp]

/-- Binding a method adds the frame of `this` in both runs. -/
theorem matches_bindMethod {method method' : Closure} (i : InstanceId)
    (hm : m.Matches T T' pairs s') (h : method.MatchesMethod T T' pairs m.store s' method') :
    RunM.Accords T T' pairs (make (·.bindMethod method i)) (make (·.bindMethod method' i)) m s' f'
      (Closure.Matches T T') := by
  obtain ⟨ν, links, g', hbeside, hplaced, rfl⟩ := h
  have hpairs := List.subset_cons_self (m.store.frames.size, s'.frames.size) pairs
  have hgrows := m.store.grows_newFrame ⟨.single "this" (.instance i), some method.frame⟩
  have hgrows' := s'.grows_newFrame ⟨.single "this" (.instance i), some g'⟩
  have hthis : Value.Matches T T' pairs m.store s' (.instance i) (.instance i) := rfl
  have hstore := hm.store.newFrame (some method.frame) (some g') (rel_single_same "this" hthis)
  refine .make hm hpairs hgrows hgrows' hstore ⟨ν, .both :: links, s'.frames.size, ?_,
    List.mem_cons_self, hplaced, rfl⟩
  exact ⟨List.mem_cons_self, method.frame, g', m.store.parent?_newFrame_self _,
    s'.parent?_newFrame_self _, hbeside.grow hpairs hgrows hgrows'⟩

theorem matches_boundMethod {method method' : Closure} (i : InstanceId)
    (hm : m.Matches T T' pairs s') (h : method.MatchesMethod T T' pairs m.store s' method') :
    RunM.Accords T T' pairs (boundMethod method i) (boundMethod method' i) m s' f'
      (Value.Matches T T') := by
  apply (matches_bindMethod i hm h).bind
  intro closure closure' pairs₁ m₁ s₁' ho hclosure
  exact matches_functionValue ho.matching hclosure

theorem matches_readProperty (i : InstanceId) (property : Lexeme)
    (hm : m.Matches T T' pairs s') :
    RunM.Accords T T' pairs (readProperty i property) (readProperty i property) m s' f'
      (Value.Matches T T') := by
  refine RunM.Accords.bind (R := fun pairs₁ s s' => Option.Rel (Value.Matches T T' pairs₁ s s'))
    (.inspect hm (hm.store.fields i property.text)) fun field field' pairs₁ m₁ s₁' ho hrel => ?_
  rcases rel_cases hrel with ⟨rfl, rfl⟩ | ⟨v, v', rfl, rfl, hv⟩
  · -- No field: the method, if the class has one.
    refine RunM.Accords.bind
      (R := fun pairs₂ s s' => Option.Rel (Closure.MatchesMethod T T' pairs₂ s s'))
      (.inspect ho.matching (ho.matching.store.methods i property.text))
      fun method method' pairs₂ m₂ s₂' ho₂ hrel₂ => ?_
    rcases rel_cases hrel₂ with ⟨rfl, rfl⟩ | ⟨c, c', rfl, rfl, hc⟩
    · exact .fail ho₂.matching property _
    · exact matches_boundMethod i ho₂.matching hc
  · exact .pure ho.matching hv

/-- What `super` means at a distance. -/
theorem superBinding_at {keyword : Occurrence} {d : Nat}
    (hd : m.table[keyword.id]? = some (d + 1)) :
    superBinding keyword m =
      (match m.store.namedAt? m.env (d + 1) "super", m.store.namedAt? m.env d "this" with
        | some (.class parent), some (.instance i) => pure (parent, i)
        | _, _ => fail keyword.name .superUnbound : RunM (Class × InstanceId)) m := by
  have hget (p : Machine → RunM (Class × InstanceId)) : (get >>= p) m = p m m := rfl
  unfold superBinding
  rw [hget]
  dsimp only
  rw [hd]
  rfl

/-- `super` means matching classes and the same instance in both runs. -/
theorem matches_superBinding (h : m.Stands T T' pairs links s' f') {keyword : Occurrence}
    (hplaced : Use.Placed T T' ν links ⟨.super, keyword⟩) :
    RunM.Accords T T' pairs (superBinding keyword)
      (superBinding (keyword.relabel (.numbers ν))) m s' f'
      fun pairs₁ s s' b b' => b.1.Matches T T' pairs₁ s s' b'.1 ∧ b'.2 = b.2 := by
  obtain ⟨d, d', hd, hd', hreceiver, hparent⟩ := hplaced
  rw [← h.table] at hd
  have hbinding := superBinding_at hd
  have hbinding' := @superBinding_at (m.across T' s' f') (keyword.relabel (.numbers ν)) d' hd'
  refine RunM.Accords.congr ?_ hbinding hbinding'
  have hm := h.toMatches
  show RunM.Accords T T' pairs _ (match s'.namedAt? f' (d' + 1) "super",
    s'.namedAt? f' d' "this" with
      | some (.class parent), some (.instance i) => pure (parent, i)
      | _, _ => fail keyword.name .superUnbound) m s' f' _
  rcases rel_cases (h.namedAt? hparent "super") with
    ⟨hnone, hnone'⟩ | ⟨v, v', hfound, hfound', hv⟩
  · rw [hnone, hnone']
    exact .fail hm _ _
  rw [hfound, hfound']
  cases v with
  | «class» cls =>
    obtain ⟨cls', rfl, hcls⟩ := hv
    rcases rel_cases (h.namedAt? hreceiver "this") with
      ⟨hnone, hnone'⟩ | ⟨w, w', hthis, hthis', hw⟩
    · rw [hnone, hnone']
      exact .fail hm _ _
    rw [hthis, hthis']
    cases w with
    | «instance» i =>
      cases hw
      exact .pure hm ⟨hcls, rfl⟩
    | «class» other =>
      obtain ⟨_, rfl, _⟩ := hw
      exact .fail hm _ _
    | function closure stamp =>
      obtain ⟨_, rfl, _⟩ := hw
      exact .fail hm _ _
    | _ =>
      cases hw
      exact .fail hm _ _
  | function closure stamp =>
    obtain ⟨_, rfl, _⟩ := hv
    exact .fail hm _ _
  | _ =>
    cases hv
    exact .fail hm _ _

theorem matches_superMethod (h : m.Stands T T' pairs links s' f') {keyword : Occurrence}
    (hplaced : Use.Placed T T' ν links ⟨.super, keyword⟩) (method : Lexeme) :
    RunM.Accords T T' pairs (superMethod keyword method)
      (superMethod (keyword.relabel (.numbers ν)) method) m s' f' (Value.Matches T T') := by
  apply (matches_superBinding h hplaced).bind
  rintro ⟨parent, i⟩ ⟨parent', i'⟩ pairs₁ m₁ s₁' ho ⟨hparent, rfl⟩
  dsimp only
  rcases rel_cases (hparent.methods method.text) with ⟨hnone, hnone'⟩ | ⟨c, c', hc, hc', hmethod⟩
  · rw [hnone, hnone']
    exact .fail ho.matching method _
  · rw [hc, hc']
    exact matches_boundMethod i' ho.matching hmethod

/-! ## Expressions -/

/-- Calls of matching values with matching arguments end in the same way. -/
def Invoke.Matches (T T' : Table) (call : Invoke) : Prop :=
  ∀ {f g : Value} (paren : Lexeme) {vs vs' : List Value} {pairs : FramePairs} {m : Machine}
    {s' : Store} {f' : FrameId}, m.Matches T T' pairs s' → f.Matches T T' pairs m.store s' g →
    List.Forall₂ (Value.Matches T T' pairs m.store s') vs vs' →
    RunM.Accords T T' pairs (call f paren vs) (call g paren vs') m s' f' (Value.Matches T T')

variable {call : Invoke}

mutual

theorem Expr.matches (hcall : call.Matches T T') (e : Expr) (he : e.Placed T T' ν links)
    {pairs : FramePairs} {m : Machine} {s' : Store} (h : m.Stands T T' pairs links s' f') :
    RunM.Accords T T' pairs (e.eval call) ((e.relabel (.numbers ν)).eval call) m s' f'
      (Value.Matches T T') := by
  cases e with
  | literal value => exact .pure h.toMatches (Value.free_ofLiteral value).plain.matches
  | grouping inner => exact Expr.matches hcall inner he h
  | unary op sign operand =>
    apply (Expr.matches hcall operand he h).bind
    intro v v' pairs₁ m₁ s₁' ho hv
    exact matches_unary sign op ho.matching hv
  | binary op sign left right =>
    obtain ⟨hleft, hright⟩ := List.forall_mem_append.mp he
    apply (Expr.matches hcall left hleft h).bind
    intro a a' pairs₁ m₁ s₁' ho ha
    apply (Expr.matches hcall right hright (h.step ho)).bind
    intro b b' pairs₂ m₂ s₂' ho₂ hb
    exact matches_binary sign op ho₂.matching (ho₂.value ha) hb
  | logical op sign left right =>
    obtain ⟨hleft, hright⟩ := List.forall_mem_append.mp he
    apply (Expr.matches hcall left hleft h).bind
    intro a a' pairs₁ m₁ s₁' ho ha
    have hdecided : op.decidedBy a' = op.decidedBy a := by
      rw [← op.decidedBy_bare a', ha.bare, op.decidedBy_bare]
    rw [hdecided]
    split
    · exact .pure ho.matching ha
    · exact Expr.matches hcall right hright (h.step ho)
  | name use => exact matches_read h (he _ List.mem_cons_self)
  | assign target value =>
    obtain ⟨htarget, hvalue⟩ := List.forall_mem_cons.mp he
    apply (Expr.matches hcall value hvalue h).bind
    intro v v' pairs₁ m₁ s₁' ho hv
    apply (matches_write (h.step ho) htarget hv).bind
    intro _ _ pairs₂ m₂ s₂' ho₂ _
    exact .pure ho₂.matching (ho₂.value hv)
  | call callee paren arguments =>
    obtain ⟨hcallee, harguments⟩ := List.forall_mem_append.mp he
    apply (Expr.matches hcall callee hcallee h).bind
    intro f g pairs₁ m₁ s₁' ho hf
    apply (Expr.listMatches hcall arguments harguments (h.step ho)).bind
    intro vs vs' pairs₂ m₂ s₂' ho₂ hvs
    exact hcall paren ho₂.matching (ho₂.value hf) hvs
  | get object property =>
    apply (Expr.matches hcall object he h).bind
    intro v v' pairs₁ m₁ s₁' ho hv
    apply (matches_asInstance property .propertyOfNonInstance ho.matching hv).bind
    rintro _ i pairs₂ m₂ s₂' ho₂ rfl
    exact matches_readProperty _ property ho₂.matching
  | set object property value =>
    obtain ⟨hobject, hvalue⟩ := List.forall_mem_append.mp he
    apply (Expr.matches hcall object hobject h).bind
    intro o o' pairs₁ m₁ s₁' ho hv
    apply (matches_asInstance property .fieldOfNonInstance ho.matching hv).bind
    rintro _ i pairs₂ m₂ s₂' ho₂ rfl
    apply (Expr.matches hcall value hvalue ((h.step ho).step ho₂)).bind
    intro v v' pairs₃ m₃ s₃' ho₃ hv₃
    have hset : m₃.Further T T' pairs₃ s₃' pairs₃
        { m₃ with store := m₃.store.setField i property.text v }
        (s₃'.setField i property.text v') :=
      .stored ho₃.matching (Store.grows_of_frames rfl) (Store.grows_of_frames rfl)
        (List.Subset.refl _) (ho₃.matching.store.setField i property.text hv₃)
    exact .later hset (.pure hset.matching (hset.value hv₃)) rfl rfl
  | this keyword => exact matches_read h (he _ List.mem_cons_self)
  | super keyword method => exact matches_superMethod h (he _ List.mem_cons_self) method

theorem Expr.listMatches (hcall : call.Matches T T') (es : List Expr)
    (hes : Expr.ListPlaced T T' ν links es) {pairs : FramePairs} {m : Machine} {s' : Store}
    (h : m.Stands T T' pairs links s' f') :
    RunM.Accords T T' pairs (Expr.listEval call es)
      (Expr.listEval call (Expr.listRelabel (.numbers ν) es)) m s' f'
      fun pairs₁ s s' => List.Forall₂ (Value.Matches T T' pairs₁ s s') := by
  cases es with
  | nil => exact .pure h.toMatches .nil
  | cons e es =>
    obtain ⟨he, hes⟩ := List.forall_mem_append.mp hes
    apply (Expr.matches hcall e he h).bind
    intro v v' pairs₁ m₁ s₁' ho hv
    apply (Expr.listMatches hcall es hes (h.step ho)).bind
    intro vs vs' pairs₂ m₂ s₂' ho₂ hvs
    exact .pure ho₂.matching (.cons (ho₂.value hv) hvs)

end

theorem Expr.optionMatches (hcall : call.Matches T T') (e : Option Expr)
    (he : Expr.OptionPlaced T T' ν links e) (h : m.Stands T T' pairs links s' f') :
    RunM.Accords T T' pairs (Expr.optionEval call e)
      (Expr.optionEval call (e.map (Expr.relabel (.numbers ν)))) m s' f' (Value.Matches T T') := by
  cases e with
  | none => exact .pure h.toMatches (Value.Plain.matches trivial)
  | some e => exact Expr.matches hcall e he h

end Lox
