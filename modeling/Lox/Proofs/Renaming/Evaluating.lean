/-
  Lox.Proofs.Renaming.Evaluating

  A renamed expression has the value of the expression itself (`Expr.mirrors`).

  An occurrence is looked up in the same frame in both runs, under the name that the
  frame has for it.  That the look-up succeeds where the table has a distance is
  known already; here it matters because a failure would tell the name.
-/
import Lox.Proofs.Operators
import Lox.Proofs.Renaming.Parallel
import Mathlib.Data.List.Forall2

namespace Lox

open RunM

variable {r : Renaming} {n : Nat} {marks : List Bool} {m : Machine} {s' : Store}
  {scopes : List Scope} {flags : List Bool}

/-! ## Occurrences -/

/-- What an occurrence is in the other tree. -/
structure Renaming.Carries (r : Renaming) (flags : List Bool) (use use' : Occurrence) : Prop where
  id : use'.id = use.id
  line : use'.name.line = use.name.line
  text : use'.name.text = r.swap (flagAt flags r.table[use.id]?) use.name.text

theorem Renaming.carries_occurrence (flags : List Bool) {use : Occurrence}
    (hname : use.name.text ≠ r.new) : r.Carries flags use (r.occurrence flags use) :=
  ⟨rfl, rfl, r.spell_eq_swap _ hname⟩

theorem Renaming.Ordinary.carries_this (hr : r.Ordinary) (flags : List Bool) {keyword : Occurrence}
    (hname : keyword.name.text = "this") : r.Carries flags keyword keyword := by
  refine ⟨rfl, rfl, ?_⟩
  rw [hname, hr.swap_this]

theorem Renaming.Carries.name_of_none {use use' : Occurrence} (h : r.Carries flags use use')
    (hnone : r.table[use.id]? = none) : use'.name = use.name := by
  have htext := h.text
  rw [hnone] at htext
  have hline := h.line
  cases hname : use.name with
  | mk text line =>
    cases hname' : use'.name with
    | mk text' line' =>
      rw [hname, hname'] at htext hline
      exact congr (congrArg Lexeme.mk htext) hline

/-- Global names are looked up in the global frame only. -/
theorem Store.owner?_globals {s : Store} (hroot : s.parent? Store.globals = none) (name : String) :
    s.owner? name Store.globals = if (s.own? Store.globals name).isSome then some Store.globals
      else none := by
  cases hown : s.own? Store.globals name with
  | none => exact Store.owner?_nowhere hown hroot
  | some _ => exact Store.owner?_here hown

theorem Store.get_globals {s : Store} (hroot : s.parent? Store.globals = none) (name : Lexeme) :
    s.get Store.globals name = match s.own? Store.globals name.text with
      | some v => .ok v
      | none => .error (Store.undefined name) := by
  cases hown : s.own? Store.globals name.text with
  | none => exact Store.get_nowhere hown hroot
  | some _ => exact Store.get_here hown

namespace Store.Mirrors

variable {s t : Store}

theorem root' (h : s.Mirrors r marks t) : t.parent? Store.globals = none := by
  rw [h.links, h.root]

theorem ancestor? (h : s.Mirrors r marks t) (f : FrameId) (d : Nat) :
    t.ancestor? f d = s.ancestor? f d :=
  Store.ancestor?_congr h.links f d

/-- Global names are never renamed. -/
theorem own_global (h : s.Mirrors r marks t) (name : String) :
    Option.Rel (Value.Mirrors r marks s) (s.own? Store.globals name)
      (t.own? Store.globals name) := by
  have hvars := h.vars Store.globals name
  rw [List.getD_eq_getElem?_getD, h.global] at hvars
  exact hvars

/-- Reserved names are never renamed. -/
theorem own_this (h : s.Mirrors r marks t) (hr : r.Ordinary) (f : FrameId) :
    Option.Rel (Value.Mirrors r marks s) (s.own? f "this") (t.own? f "this") := by
  have hvars := h.vars f "this"
  rw [hr.swap_this] at hvars
  exact hvars

theorem own_super (h : s.Mirrors r marks t) (hr : r.Ordinary) (f : FrameId) :
    Option.Rel (Value.Mirrors r marks s) (s.own? f "super") (t.own? f "super") := by
  have hvars := h.vars f "super"
  rw [hr.swap_super] at hvars
  exact hvars

end Store.Mirrors

/-- What an occurrence means to both machines: mirrored values, or the same fault. -/
theorem Machine.Abreast.lookUp {use use' : Occurrence} (h : m.Abreast r n marks scopes flags s')
    (hbinds : r.table.Binds n scopes use) (hcarries : r.Carries flags use use') :
    (∃ v v', m.lookUp use = .ok v ∧ Machine.lookUp { m with store := s' } use' = .ok v' ∧
        v.Mirrors r marks m.store v') ∨
      ∃ e, m.lookUp use = .error e ∧ Machine.lookUp { m with store := s' } use' = .error e := by
  have htable : m.table = r.table := h.fits.table
  cases hd : r.table[use.id]? with
  | none =>
    -- A global name, the same in both trees.
    have hlook : m.lookUp use = m.store.get Store.globals use.name := by
      simp only [Machine.lookUp, htable, hd]
    have hlook' : Machine.lookUp { m with store := s' } use' = s'.get Store.globals use.name := by
      simp only [Machine.lookUp, htable, hcarries.id, hd, hcarries.name_of_none hd]
    rw [hlook, hlook', Store.get_globals h.store.root, Store.get_globals h.store.root']
    rcases rel_cases (h.store.own_global use.name.text) with
      ⟨hown, hown'⟩ | ⟨v, v', hown, hown', hv⟩
    · rw [hown, hown']
      exact .inr ⟨_, rfl, rfl⟩
    · rw [hown, hown']
      exact .inl ⟨v, v', rfl, rfl, hv⟩
  | some d =>
    obtain ⟨g, v, hg, hown⟩ := hbinds.frame h.chain hd
    obtain ⟨scope, hscope, _⟩ := hbinds.places.scope hd
    have hlt := (List.getElem?_eq_some_iff.mp hscope).1
    -- The frame at the distance has the name as the occurrence spells it.
    have hvars := h.store.vars g use.name.text
    rw [h.mark_ancestor hlt hg, ← hd, ← hcarries.text, hown] at hvars
    rcases rel_cases hvars with ⟨hnone, _⟩ | ⟨_, v', heq, hown', hv⟩
    · cases hnone
    · cases heq
      refine .inl ⟨v, v', ?_, ?_, hv⟩
      · simp only [Machine.lookUp, htable, hd, Store.getAt, Store.namedAt?, hg, Option.bind_some,
          hown]
      · simp only [Machine.lookUp, htable, hcarries.id, hd, Store.getAt, Store.namedAt?,
          h.store.ancestor?, hg, Option.bind_some, hown']

theorem mirrors_read {use use' : Occurrence} (h : m.Abreast r n marks scopes flags s')
    (hbinds : r.table.Binds n scopes use) (hcarries : r.Carries flags use use') :
    RunM.Mirrors r n marks (read use) (read use') m s' (Value.Twins r n) := by
  have hread := read_eq use m
  have hread' := read_eq use' { m with store := s' }
  rcases h.lookUp hbinds hcarries with ⟨v, v', hlook, hlook', hv⟩ | ⟨e, hlook, hlook'⟩
  · rw [hlook] at hread
    rw [hlook'] at hread'
    exact .of_sound (sound_read hbinds h.fits h.chain) hread hread' List.prefix_rfl h.store
      fun hfits => ⟨hfits, hv⟩
  · rw [hlook] at hread
    rw [hlook'] at hread'
    exact .of_error hread hread' (.refl h.toMirrors)

/-- Binding a name in the frame of the position, under the name that the frame has for it. -/
theorem mirrors_define {name : Lexeme} {name' : String} {v v' : Value}
    (h : m.Abreast r n marks scopes flags s') (hname : name.Ordinary)
    (hname' : name' = r.swap (flags.headD false) name.text)
    (hfits : v.Fits r.table n (m.store.define m.env name.text v))
    (hv : v.Mirrors r marks m.store v') :
    RunM.Mirrors r n marks (define name.text v) (define name' v') m s' fun _ s _ _ =>
      s.Chain m.env (Scope.mark scopes name.text true) := by
  have hstore := h.store.define m.env name.text hv
  rw [h.mark, ← hname'] at hstore
  exact .of_sound (sound_define hname h.fits hfits h.chain) rfl rfl List.prefix_rfl hstore
    fun hchain => hchain

theorem mirrors_write {use use' : Occurrence} {v v' : Value}
    (h : m.Abreast r n marks scopes flags s') (hplaces : r.table.Places n scopes use)
    (hname : use.name.Ordinary) (hcarries : r.Carries flags use use')
    (hv : v.Twins r n marks m.store v') :
    RunM.Mirrors r n marks (write use v) (write use' v') m s' fun _ _ _ _ => True := by
  have htable : m.table = r.table := h.fits.table
  -- Both runs write in one frame, each under the name that the frame has for it.
  have inFrame (g : FrameId) (htarget : target? m use = some g)
      (htarget' : target? { m with store := s' } use' = some g)
      (htext : use'.name.text = r.swap (marks.getD g false) use.name.text) :
      RunM.Mirrors r n marks (write use v) (write use' v') m s' fun _ _ _ _ => True := by
    have hwrite : write use v m = .ok () { m with store := m.store.define g use.name.text v } := by
      rw [write, htarget]
    have hwrite' : write use' v' { m with store := s' } =
        .ok () { m with store := s'.define g use'.name.text v' } := by
      rw [write, htarget']
    have hstore := h.store.define g use.name.text hv.mirrors
    rw [← htext] at hstore
    exact .of_sound (sound_write hname h.fits hv.fits) hwrite hwrite' List.prefix_rfl hstore
      fun _ => trivial
  cases hd : r.table[use.id]? with
  | none =>
    -- A global name, the same in both trees: it is bound in both runs, or in neither.
    have hglobals : target? m use = m.store.owner? use.name.text Store.globals := by
      simp only [target?, htable, hd]
    have hglobals' : target? { m with store := s' } use' =
        s'.owner? use.name.text Store.globals := by
      simp only [target?, htable, hcarries.id, hd, hcarries.name_of_none hd]
    rw [Store.owner?_globals h.store.root] at hglobals
    rw [Store.owner?_globals h.store.root'] at hglobals'
    rcases rel_cases (h.store.own_global use.name.text) with ⟨hown, hown'⟩ | ⟨_, _, hown, hown', _⟩
    · rw [hown] at hglobals
      rw [hown'] at hglobals'
      have hwrite : write use v m = .error (.error (Store.undefined use.name)) m := by
        rw [write, hglobals]
        rfl
      have hwrite' : write use' v' { m with store := s' } =
          .error (.error (Store.undefined use.name)) { m with store := s' } := by
        rw [write, hglobals', hcarries.name_of_none hd]
        rfl
      exact .of_error hwrite hwrite' (.refl h.toMirrors)
    · rw [hown] at hglobals
      rw [hown'] at hglobals'
      refine inFrame Store.globals hglobals hglobals' ?_
      rw [hcarries.text, hd, List.getD_eq_getElem?_getD, h.store.global]
      rfl
  | some d =>
    obtain ⟨g, hg, _⟩ := hplaces.frame h.chain hd
    obtain ⟨scope, hscope, _⟩ := hplaces.scope hd
    have hlt := (List.getElem?_eq_some_iff.mp hscope).1
    refine inFrame g ?_ ?_ ?_
    · simp only [target?, htable, hd, hg]
    · simp only [target?, htable, hcarries.id, hd, h.store.ancestor?, hg]
    · rw [hcarries.text, hd, h.mark_ancestor hlt hg]

/-! ## Operators -/

namespace Value

/-- What operators and `print` see of a value: of a function or a class only its name
    and stamp. -/
def bare : Value → Value
  | .function closure stamp => .function ⟨⟨closure.decl.name, [], []⟩, 0, false⟩ stamp
  | .class cls => .class ⟨cls.stamp, cls.name, .empty, none⟩
  | v => v

/-- A value without a body inside. -/
def Plain : Value → Prop
  | .function _ _ => False
  | .class _ => False
  | _ => True

theorem Mirrors.bare {s : Store} {v v' : Value} (h : v.Mirrors r marks s v') :
    v'.bare = v.bare := by
  cases v with
  | function closure stamp =>
    obtain ⟨_, rfl, chosen, flags, _, _, rfl⟩ := h
    simp only [Value.bare, FunctionDecl.rename_name]
  | «class» cls =>
    obtain ⟨cls', rfl, hcls⟩ := h
    simp only [Value.bare, hcls.stamp, hcls.name]
  | _ => rw [show v' = _ from h]

theorem Plain.twins {s : Store} {v : Value} (h : v.Plain) : v.Twins r n marks s v := by
  cases v with
  | function closure stamp => exact h.elim
  | «class» cls => exact h.elim
  | _ => exact ⟨trivial, rfl⟩

theorem Free.plain {v : Value} (h : v.Free) : v.Plain := by
  cases v with
  | function closure stamp => exact h.elim
  | «class» cls => exact h.elim
  | «instance» i => exact h.elim
  | _ => trivial

theorem isTruthy_bare (v : Value) : v.bare.isTruthy = v.isTruthy := by
  cases v <;> rfl

theorem equals_bare (a b : Value) : a.bare.equals b.bare = a.equals b := by
  cases a <;> cases b <;> rfl

theorem Mirrors.isTruthy {s : Store} {v v' : Value} (h : v.Mirrors r marks s v') :
    v'.isTruthy = v.isTruthy := by
  rw [← isTruthy_bare v', h.bare, isTruthy_bare]

/-- `print` shows of a value what operators see of it, and of an instance the name of its
    class. -/
theorem text_congr {s t : Store} {v v' : Value} (hbare : v'.bare = v.bare)
    (hclasses : ∀ i, t.className? i = s.className? i) : v'.text t = v.text s := by
  have hshown (u : Store) (w : Value) : w.bare.text u = w.text u := by
    cases w <;> rfl
  rw [← hshown t v', hbare, ← hshown s v]
  cases v with
  | «instance» i =>
    have hclass := hclasses i
    unfold Store.className? at hclass
    simp only [Value.bare, Value.text]
    cases hobject : s.instances[i]? with
    | none =>
      rw [hobject, Option.map_none, Option.map_eq_none_iff] at hclass
      rw [hclass]
    | some object =>
      rw [hobject, Option.map_some, Option.map_eq_some_iff] at hclass
      obtain ⟨object', hobject', hname⟩ := hclass
      rw [hobject']
      dsimp only
      rw [hname]
  | _ => rfl

end Value

theorem numberOperands_bare (sign : Lexeme) (a b : Value) :
    numberOperands sign a.bare b.bare = numberOperands sign a b := by
  cases a <;> cases b <;> rfl

theorem addition_bare (sign : Lexeme) (a b : Value) :
    addition sign a.bare b.bare = addition sign a b := by
  cases a <;> cases b <;> rfl

theorem negation_bare (sign : Lexeme) (v : Value) : negation sign v.bare = negation sign v := by
  cases v <;> rfl

theorem TokenKind.applyUnary_bare (sign : Lexeme) (op : TokenKind) (v : Value) :
    op.applyUnary sign v.bare = op.applyUnary sign v := by
  simp only [applyUnary, negation_bare, Value.isTruthy_bare]

theorem TokenKind.applyBinary_bare (sign : Lexeme) (op : TokenKind) (a b : Value) :
    op.applyBinary sign a.bare b.bare = op.applyBinary sign a b := by
  simp only [applyBinary, arithmetic, comparison, numberOperands_bare, addition_bare,
    Value.equals_bare]

theorem LogicalOp.decidedBy_bare (op : LogicalOp) (v : Value) :
    op.decidedBy v.bare = op.decidedBy v := by
  cases op <;> simp only [LogicalOp.decidedBy, Value.isTruthy_bare]

theorem asInstance_bare (at_ : Lexeme) (fault : RuntimeFault) (v : Value) :
    asInstance at_ fault v.bare = asInstance at_ fault v := by
  cases v <;> rfl

theorem RunM.Constant.mirrors {α : Type} {p : RunM α} {P : α → Prop} (h : p.Constant P)
    (hm : m.Mirrors r n marks s') {R : List Bool → Store → α → α → Prop}
    (hR : ∀ a, P a → R marks m.store a a) : RunM.Mirrors r n marks p p m s' R := by
  rcases h with ⟨a, rfl, ha⟩ | ⟨at_, fault, rfl⟩
  · exact .pure hm (hR a ha)
  · exact .fail hm rfl fault

theorem mirrors_unary (sign : Lexeme) (op : TokenKind) {v v' : Value}
    (hm : m.Mirrors r n marks s') (hv : v.Mirrors r marks m.store v') :
    RunM.Mirrors r n marks (op.applyUnary sign v) (op.applyUnary sign v') m s'
      (Value.Twins r n) := by
  rw [← op.applyUnary_bare sign v', hv.bare, op.applyUnary_bare]
  exact (op.unary_constant sign v).mirrors hm fun _ h => h.plain.twins

theorem mirrors_binary (sign : Lexeme) (op : TokenKind) {a a' b b' : Value}
    (hm : m.Mirrors r n marks s') (ha : a.Mirrors r marks m.store a')
    (hb : b.Mirrors r marks m.store b') :
    RunM.Mirrors r n marks (op.applyBinary sign a b) (op.applyBinary sign a' b') m s'
      (Value.Twins r n) := by
  rw [← op.applyBinary_bare sign a', ha.bare, hb.bare, op.applyBinary_bare]
  exact (op.binary_constant sign a b).mirrors hm fun _ h => h.plain.twins

theorem mirrors_asInstance (at_ : Lexeme) (fault : RuntimeFault) {v v' : Value}
    (hm : m.Mirrors r n marks s') (hv : v.Mirrors r marks m.store v') :
    RunM.Mirrors r n marks (asInstance at_ fault v) (asInstance at_ fault v') m s'
      fun _ _ i i' => i' = i := by
  rw [← asInstance_bare at_ fault v', hv.bare, asInstance_bare]
  exact (asInstance_constant at_ fault v).mirrors hm fun _ _ => rfl

/-! ## Properties -/

theorem rel_twins {s : Store} {a b : Option Value} (h : Option.Rel (Value.Mirrors r marks s) a b)
    (hfits : ∀ v, a = some v → v.Fits r.table n s) : Option.Rel (Value.Twins r n marks s) a b := by
  rcases rel_cases h with ⟨rfl, rfl⟩ | ⟨v, v', rfl, rfl, hv⟩
  · exact .none
  · exact .some ⟨hfits v rfl, hv⟩

/-- A frame with one reserved name is never marked. -/
theorem rel_single {R : Value → Value → Prop} (key : String) {v v' : Value} (h : R v v')
    (name : String) :
    Option.Rel R ((Bindings.single key v).get? name)
      ((Bindings.single key v').get? (r.swap false name)) := by
  show Option.Rel R (Bindings.find? name [(key, v)]) (Bindings.find? name [(key, v')])
  unfold Bindings.find?
  by_cases hkey : key = name
  · rw [if_pos hkey, if_pos hkey]
    exact .some h
  · rw [if_neg hkey, if_neg hkey]
    exact .none

theorem mirrors_functionValue {closure closure' : Closure} (hm : m.Mirrors r n marks s')
    (hfits : closure.Fits r.table n m.store) (h : closure.Mirrors r marks m.store closure') :
    RunM.Mirrors r n marks (make (·.functionValue closure)) (make (·.functionValue closure')) m s'
      (Value.Twins r n) := by
  have hgrows : m.store.Grows m.store.newStamp.2 := Store.grows_of_frames rfl
  refine .of_sound (sound_functionValue hm.fits hfits) rfl rfl List.prefix_rfl hm.store.newStamp
    fun hvalue => ⟨hvalue, closure', ?_, h.grow hgrows List.prefix_rfl⟩
  show Value.function closure' s'.nextStamp = Value.function closure' m.store.nextStamp
  rw [hm.store.stamp]

/-- Binding a method adds the frame of `this`, which is not marked. -/
theorem mirrors_bindMethod {method method' : Closure} (i : InstanceId)
    (hm : m.Mirrors r n marks s') (hfits : method.FitsMethod r.table n m.store)
    (h : method.MirrorsMethod r marks m.store method') :
    RunM.Mirrors r n marks (make (·.bindMethod method i)) (make (·.bindMethod method' i)) m s'
      fun marks₁ s c c' => c.Fits r.table n s ∧ c.decl = method.decl ∧ c.Mirrors r marks₁ s c' := by
  obtain ⟨chosen, flags, hsigned, hdecl, rfl⟩ := h
  have hthis : (Value.instance i).Mirrors r marks m.store (.instance i) := rfl
  have hstore := hm.store.newFrame false (some method.frame) (rel_single "this" hthis)
  refine .of_sound (sound_bindMethod i hm.fits hfits) rfl rfl (List.prefix_append marks [false])
    hstore fun hclosure => ⟨hclosure.1, hclosure.2, chosen, false :: flags, ?_, hdecl, ?_⟩
  · exact hsigned.push hm.store.marked _ false
  · show Closure.mk _ s'.frames.size _ = Closure.mk _ m.store.frames.size _
    rw [hm.store.size]
    rfl

theorem mirrors_boundMethod {method method' : Closure} (i : InstanceId)
    (hm : m.Mirrors r n marks s') (hfits : method.FitsMethod r.table n m.store)
    (h : method.MirrorsMethod r marks m.store method') :
    RunM.Mirrors r n marks (boundMethod method i) (boundMethod method' i) m s'
      (Value.Twins r n) := by
  apply (mirrors_bindMethod i hm hfits h).bind
  rintro closure closure' marks₁ m₁ s₁' ho ⟨hclosure, _, hmirrors⟩
  exact mirrors_functionValue ho.mirrors hclosure hmirrors

theorem mirrors_readProperty (i : InstanceId) (property : Lexeme) (hm : m.Mirrors r n marks s') :
    RunM.Mirrors r n marks (readProperty i property) (readProperty i property) m s'
      (Value.Twins r n) := by
  have hfield := rel_twins (hm.store.fields i property.text) fun v hv =>
    hm.fits.store.fields i property.text v hv
  refine RunM.Mirrors.bind (R := fun marks₁ s => Option.Rel (Value.Twins r n marks₁ s))
    (.inspect hm hfield) fun field field' marks₁ m₁ s₁' ho hrel => ?_
  rcases rel_cases hrel with ⟨rfl, rfl⟩ | ⟨v, v', rfl, rfl, hv⟩
  · -- No field: the method, if the class has one.
    have hmethod := ho.mirrors.store.methods i property.text
    have hfits := ho.mirrors.fits.store.methods i property.text
    refine RunM.Mirrors.bind (R := fun marks₂ s method method' =>
        (∀ c, method = some c → c.FitsMethod r.table n s) ∧
          Option.Rel (Closure.MirrorsMethod r marks₂ s) method method')
      (.inspect ho.mirrors ⟨hfits, hmethod⟩) fun method method' marks₂ m₂ s₂' ho₂ hrel₂ => ?_
    rcases rel_cases hrel₂.2 with ⟨rfl, rfl⟩ | ⟨c, c', rfl, rfl, hc⟩
    · exact .fail ho₂.mirrors rfl _
    · exact mirrors_boundMethod i ho₂.mirrors (hrel₂.1 c rfl) hc
  · exact .pure ho.mirrors hv

/-- `super` means mirrored classes, and the same instance. -/
theorem mirrors_superMethod {keyword : Occurrence} (method : Lexeme) (hr : r.Ordinary)
    (hinherits : r.table.Inherits n scopes keyword) (h : m.Abreast r n marks scopes flags s') :
    RunM.Mirrors r n marks (superMethod keyword method) (superMethod keyword method) m s'
      (Value.Twins r n) := by
  obtain ⟨d, parent, i, hd, -, hparent, hreceiver, hfits⟩ := hinherits.frames h.chain h.fits.store
  rw [← h.fits.table] at hd
  obtain ⟨g, hg, hparent'⟩ := Option.bind_eq_some_iff.mp hparent
  obtain ⟨g', hg', hreceiver'⟩ := Option.bind_eq_some_iff.mp hreceiver
  have hsuper := h.store.own_super hr g
  rw [hparent'] at hsuper
  rcases rel_cases hsuper with ⟨hnone, _⟩ | ⟨_, _, heq, hown, hmirrors⟩
  · cases hnone
  cases heq
  obtain ⟨parent', rfl, hmirrors⟩ := hmirrors
  have hthis := h.store.own_this hr g'
  rw [hreceiver'] at hthis
  rcases rel_cases hthis with ⟨hnone, _⟩ | ⟨_, _, heq, hown', hsame⟩
  · cases hnone
  cases heq
  cases hsame
  have hfound : s'.namedAt? m.env (d + 1) "super" = some (.class parent') := by
    rw [Store.namedAt?, h.store.ancestor?, hg]
    exact hown
  have hfound' : s'.namedAt? m.env d "this" = some (.instance i) := by
    rw [Store.namedAt?, h.store.ancestor?, hg']
    exact hown'
  refine .later (superBinding_eq hd hparent hreceiver)
    (superBinding_eq (m := { m with store := s' }) hd hfound hfound') (.refl h.toMirrors) ?_
  dsimp only
  rcases rel_cases (hmirrors.methods method.text) with ⟨hnone, hnone'⟩ | ⟨c, c', hc, hc', hmethod⟩
  · rw [hnone, hnone']
    exact .fail h.toMirrors rfl _
  · rw [hc, hc']
    exact mirrors_boundMethod i h.toMirrors (hfits _ c hc) hmethod

/-! ## Expressions -/

/-- Calls of mirrored values with mirrored arguments end in the same way. -/
def Invoke.Mirrors (r : Renaming) (n : Nat) (call : Invoke) : Prop :=
  ∀ {f f' : Value} (paren : Lexeme) {vs vs' : List Value} {marks : List Bool} {m : Machine}
    {s' : Store}, m.Mirrors r n marks s' → f.Twins r n marks m.store f' →
    List.Forall₂ (Value.Twins r n marks m.store) vs vs' →
    RunM.Mirrors r n marks (call f paren vs) (call f' paren vs') m s' (Value.Twins r n)

variable {call : Invoke}

mutual

theorem Expr.mirrors (hr : r.Ordinary) (hcall : call.Mirrors r n) (e : Expr)
    (he : e.Scoped r.table n scopes) (hnew : e.Avoids r.new) {marks : List Bool} {m : Machine}
    {s' : Store} (h : m.Abreast r n marks scopes flags s') :
    RunM.Mirrors r n marks (e.eval call) ((e.rename r flags).eval call) m s'
      (Value.Twins r n) := by
  cases e with
  | literal value => exact .pure h.toMirrors (Value.free_ofLiteral value).plain.twins
  | grouping inner => exact Expr.mirrors hr hcall inner he hnew h
  | unary op sign operand =>
    apply (Expr.mirrors hr hcall operand he.2 hnew h).bind
    intro v v' marks₁ m₁ s₁' ho hv
    exact mirrors_unary sign op ho.mirrors hv.mirrors
  | binary op sign left right =>
    obtain ⟨hleft, hright⟩ := List.forall_mem_append.mp hnew
    apply (Expr.mirrors hr hcall left he.2.1 hleft h).bind
    intro a a' marks₁ m₁ s₁' ho ha
    apply (Expr.mirrors hr hcall right he.2.2 hright (h.step ho)).bind
    intro b b' marks₂ m₂ s₂' ho₂ hb
    exact mirrors_binary sign op ho₂.mirrors (ho₂.twins ha).mirrors hb.mirrors
  | logical op sign left right =>
    obtain ⟨hleft, hright⟩ := List.forall_mem_append.mp hnew
    apply (Expr.mirrors hr hcall left he.1 hleft h).bind
    intro a a' marks₁ m₁ s₁' ho ha
    have hdecided : op.decidedBy a' = op.decidedBy a := by
      rw [← op.decidedBy_bare a', ha.mirrors.bare, op.decidedBy_bare]
    rw [hdecided]
    split
    · exact .pure ho.mirrors ha
    · exact Expr.mirrors hr hcall right he.2 hright (h.step ho)
  | name use =>
    have hname := hnew _ List.mem_cons_self
    exact mirrors_read h (Table.Readable.binds he) (Renaming.carries_occurrence flags hname)
  | assign target value =>
    obtain ⟨htarget, hvalue⟩ := List.forall_mem_cons.mp hnew
    apply (Expr.mirrors hr hcall value he.2.2 hvalue h).bind
    intro v v' marks₁ m₁ s₁' ho hv
    have hcarries := Renaming.carries_occurrence flags htarget
    apply (mirrors_write (h.step ho) he.1.1 he.2.1 hcarries hv).bind
    intro _ _ marks₂ m₂ s₂' ho₂ _
    exact .pure ho₂.mirrors (ho₂.twins hv)
  | call callee paren arguments =>
    obtain ⟨hcallee, harguments⟩ := List.forall_mem_append.mp hnew
    apply (Expr.mirrors hr hcall callee he.1 hcallee h).bind
    intro f f' marks₁ m₁ s₁' ho hf
    apply (Expr.listMirrors hr hcall arguments he.2 harguments (h.step ho)).bind
    intro vs vs' marks₂ m₂ s₂' ho₂ hvs
    exact hcall paren ho₂.mirrors (ho₂.twins hf) hvs
  | get object property =>
    apply (Expr.mirrors hr hcall object he hnew h).bind
    intro v v' marks₁ m₁ s₁' ho hv
    apply (mirrors_asInstance property .propertyOfNonInstance ho.mirrors hv.mirrors).bind
    rintro _ i marks₂ m₂ s₂' ho₂ rfl
    exact mirrors_readProperty _ property ho₂.mirrors
  | set object property value =>
    obtain ⟨hobject, hvalue⟩ := List.forall_mem_append.mp hnew
    apply (Expr.mirrors hr hcall object he.1 hobject h).bind
    intro o o' marks₁ m₁ s₁' ho hv
    apply (mirrors_asInstance property .fieldOfNonInstance ho.mirrors hv.mirrors).bind
    rintro _ i marks₂ m₂ s₂' ho₂ rfl
    apply (Expr.mirrors hr hcall value he.2 hvalue ((h.step ho).step ho₂)).bind
    intro v v' marks₃ m₃ s₃' ho₃ hv₃
    have hchange : RunM.Mirrors r n marks₃ (change (·.setField i property.text v))
        (change (·.setField i property.text v')) m₃ s₃' fun marks₄ s _ _ =>
          v.Twins r n marks₄ s v' := by
      have hgrows : m₃.store.Grows (m₃.store.setField i property.text v) :=
        Store.grows_of_frames rfl
      refine .of_sound (Q := fun _ s => v.Fits r.table n s) ?_ rfl rfl List.prefix_rfl
        (ho₃.mirrors.store.setField i property.text hv₃.mirrors)
        fun hfits => ⟨hfits, hv₃.mirrors.grow hgrows List.prefix_rfl⟩
      exact .change ho₃.mirrors.fits hgrows (ho₃.mirrors.fits.store.setField hv₃.fits)
        (hv₃.fits.grow hgrows)
    apply hchange.bind
    intro _ _ marks₄ m₄ s₄' ho₄ hv₄
    exact .pure ho₄.mirrors hv₄
  | this keyword =>
    exact mirrors_read h (he.2.binds_this he.1) (hr.carries_this flags he.1)
  | super keyword method => exact mirrors_superMethod method hr he h

theorem Expr.listMirrors (hr : r.Ordinary) (hcall : call.Mirrors r n) (es : List Expr)
    (hes : Expr.ListScoped r.table n scopes es)
    (hnew : ∀ use ∈ Expr.listUses es, use.occurrence.name.text ≠ r.new) {marks : List Bool}
    {m : Machine} {s' : Store} (h : m.Abreast r n marks scopes flags s') :
    RunM.Mirrors r n marks (Expr.listEval call es)
      (Expr.listEval call (Expr.listRename r flags es)) m s'
      fun marks₁ s => List.Forall₂ (Value.Twins r n marks₁ s) := by
  cases es with
  | nil => exact .pure h.toMirrors .nil
  | cons e es =>
    obtain ⟨he, hrest⟩ := List.forall_mem_append.mp hnew
    apply (Expr.mirrors hr hcall e hes.1 he h).bind
    intro v v' marks₁ m₁ s₁' ho hv
    apply (Expr.listMirrors hr hcall es hes.2 hrest (h.step ho)).bind
    intro vs vs' marks₂ m₂ s₂' ho₂ hvs
    exact .pure ho₂.mirrors (.cons (ho₂.twins hv) hvs)

end

theorem Expr.optionMirrors (hr : r.Ordinary) (hcall : call.Mirrors r n) (e : Option Expr)
    (he : Expr.OptionScoped r.table n scopes e) (hnew : Expr.OptionAvoids r.new e)
    (h : m.Abreast r n marks scopes flags s') :
    RunM.Mirrors r n marks (Expr.optionEval call e)
      (Expr.optionEval call (e.map (Expr.rename r flags))) m s' (Value.Twins r n) := by
  cases e with
  | none => exact .pure h.toMirrors (Value.Plain.twins trivial)
  | some e => exact Expr.mirrors hr hcall e he hnew h

end Lox
