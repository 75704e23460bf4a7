/-
  Lox.Proofs.Scoping.Resolution

  The resolver makes tables that are right: when it finds no fault in a tree, the
  tree is scoped under its table.

    * `Walk.Leads` — what holds between the walks before and after a tree: the
      faults only become more and the table changes only at the uses in the tree;
    * `Resolves ok f uses after P` — `f` leads in this way, and `P` holds of the
      scopes before it when no fault came up and the numbers are distinct;
    * `Resolves.then_` — one tree after another.
-/
import Std.Data.TreeMap.Lemmas
import Lox.Proofs.Numbering
import Lox.Proofs.Scoping.Static

namespace Lox

/-! ## Bindings -/

namespace Bindings

variable {α : Type}

theorem contains_insert_self (b : Bindings α) (name : String) (x : α) :
    (b.insert name x).contains name = true := by
  rw [contains, get?_insert_self]
  rfl

theorem contains_insert_of_ne (b : Bindings α) {name other : String} (h : other ≠ name) (x : α) :
    (b.insert name x).contains other = b.contains other := by
  rw [contains, get?_insert_of_ne b h, contains]

end Bindings

/-! ## Scopes at a position -/

namespace Scope

/-- Every name of a scope is ready. -/
def AllReady (scope : Scope) : Prop := ∀ name, scope.get? name ≠ some false

/-- Which scopes have `this` and which have `super`. -/
def kinds (scopes : List Scope) : List (Bool × Bool) :=
  scopes.map fun scope => (scope.contains "this", scope.contains "super")

/-- A scope of `super` lies directly outside a scope of `this`. -/
def Layered (kinds : List (Bool × Bool)) : Prop :=
  ∀ d x, kinds[d]? = some (x, true) → ∃ k y, d = k + 1 ∧ kinds[k]? = some (true, y)

/-- Inside a derived class there is a scope of `super`. -/
def Derives (kinds : List (Bool × Bool)) (cls : ClassKind) : Prop :=
  cls = .derived → ∃ kind ∈ kinds, kind.2 = true

/-- The scopes around an expression: only the innermost one can have a name that is
    not ready. -/
structure Around (scopes : List Scope) (cls : ClassKind) : Prop where
  ready : ∀ scope ∈ scopes.tail, scope.AllReady
  layered : Layered (kinds scopes)
  derived : Derives (kinds scopes) cls

/-- The scopes around a statement: all their names are ready. -/
structure Settled (scopes : List Scope) (cls : ClassKind) : Prop where
  ready : ∀ scope ∈ scopes, scope.AllReady
  layered : Layered (kinds scopes)
  derived : Derives (kinds scopes) cls

variable {scopes : List Scope} {cls : ClassKind}

theorem Settled.around (h : Settled scopes cls) : Around scopes cls :=
  ⟨fun scope hscope => h.ready scope (List.mem_of_mem_tail hscope), h.layered, h.derived⟩

theorem settled_nil : Settled [] .outside :=
  ⟨nofun, fun d x hd => by simp [kinds] at hd, nofun⟩

/-- An ordinary name in the innermost scope hides neither `this` nor `super`. -/
theorem kinds_mark (scopes : List Scope) {name : Lexeme} (hname : name.Ordinary) (ready : Bool) :
    kinds (mark scopes name.text ready) = kinds scopes := by
  cases scopes with
  | nil => rfl
  | cons scope outer =>
    show (_, _) :: _ = (_, _) :: _
    rw [scope.contains_insert_of_ne (Ne.symm hname.1),
      scope.contains_insert_of_ne (Ne.symm hname.2)]

theorem Layered.push {kinds : List (Bool × Bool)} (h : Layered kinds) (x : Bool) :
    Layered ((x, false) :: kinds) := by
  intro d y hd
  cases d with
  | zero => simp at hd
  | succ d =>
    obtain ⟨k, z, rfl, hk⟩ := h d y hd
    exact ⟨k + 1, z, rfl, hk⟩

theorem Layered.pushDerived {kinds : List (Bool × Bool)} (h : Layered kinds) (x : Bool) :
    Layered ((true, false) :: (x, true) :: kinds) := by
  intro d y hd
  match d with
  | 0 => simp at hd
  | 1 => exact ⟨0, false, rfl, rfl⟩
  | d + 2 =>
    obtain ⟨k, z, rfl, hk⟩ := h d y hd
    exact ⟨k + 2, z, rfl, hk⟩

theorem AllReady.insert {scope : Scope} (h : scope.AllReady) (name : String) :
    AllReady (scope.insert name true) := by
  intro other
  by_cases hne : other = name
  · rw [hne, Bindings.get?_insert_self]
    nofun
  · rw [scope.get?_insert_of_ne hne]
    exact h other

theorem allReady_empty : AllReady .empty := fun _ => nofun

theorem allReady_single (name : String) : AllReady (.single name true) := by
  intro other
  show Bindings.find? other [(name, true)] ≠ some false
  by_cases h : name = other <;> simp [Bindings.find?, h]

/-- Behind a declaration that is ready, all names are ready. -/
theorem Settled.mark (h : Settled scopes cls) {name : Lexeme} (hname : name.Ordinary) :
    Settled (mark scopes name.text true) cls := by
  refine ⟨?_, ?_, ?_⟩
  · cases scopes with
    | nil => exact h.ready
    | cons scope outer =>
      intro other hother
      rcases List.mem_cons.mp hother with rfl | hmem
      · exact (h.ready scope List.mem_cons_self).insert name.text
      · exact h.ready other (List.mem_cons_of_mem _ hmem)
  · rw [kinds_mark scopes hname]
    exact h.layered
  · rw [kinds_mark scopes hname]
    exact h.derived

/-- In an initializer only the name itself is not ready. -/
theorem Settled.around_mark (h : Settled scopes cls) {name : Lexeme} (hname : name.Ordinary) :
    Around (Scope.mark scopes name.text false) cls := by
  refine ⟨?_, ?_, ?_⟩
  · cases scopes with
    | nil => exact h.around.ready
    | cons scope outer => exact h.around.ready
  · rw [kinds_mark scopes hname]
    exact h.layered
  · rw [kinds_mark scopes hname]
    exact h.derived

theorem Settled.push (h : Settled scopes cls) : Settled (.empty :: scopes) cls := by
  refine ⟨?_, h.layered.push _, fun hcls => ?_⟩
  · intro scope hscope
    rcases List.mem_cons.mp hscope with rfl | hmem
    · exact allReady_empty
    · exact h.ready scope hmem
  · obtain ⟨kind, hmem, hkind⟩ := h.derived hcls
    exact ⟨kind, List.mem_cons_of_mem _ hmem, hkind⟩

/-- The scopes outside those of a class. -/
structure InClass (kind : ClassKind) (scopes : List Scope) (cls : ClassKind) : Prop where
  cls : cls = kind
  settled : ∃ outer, Settled scopes outer

variable {kind : ClassKind}

theorem InClass.mark (h : InClass kind scopes cls) {name : Lexeme} (hname : name.Ordinary) :
    InClass kind (mark scopes name.text true) cls :=
  ⟨h.cls, h.settled.imp fun _ h => h.mark hname⟩

theorem InClass.ready (h : InClass kind scopes cls) : ∀ scope ∈ scopes.tail, scope.AllReady := by
  obtain ⟨outer, houter⟩ := h.settled
  exact houter.around.ready

/-- The scopes of methods of a class without a superclass. -/
theorem InClass.base (h : InClass .base scopes cls) :
    Settled (.single "this" true :: scopes) cls := by
  obtain ⟨rfl, outer, h⟩ := h
  refine ⟨?_, h.layered.push _, nofun⟩
  intro scope hscope
  rcases List.mem_cons.mp hscope with rfl | hmem
  · exact allReady_single _
  · exact h.ready scope hmem

/-- The scopes of methods of a class with a superclass. -/
theorem InClass.derived (h : InClass .derived scopes cls) :
    Settled (.single "this" true :: .single "super" true :: scopes) cls := by
  obtain ⟨rfl, outer, h⟩ := h
  refine ⟨?_, h.layered.pushDerived _, fun _ => ⟨(false, true), ?_, rfl⟩⟩
  · intro scope hscope
    rcases List.mem_cons.mp hscope with rfl | hmem
    · exact allReady_single _
    · rcases List.mem_cons.mp hmem with rfl | hmem
      · exact allReady_single _
      · exact h.ready scope hmem
  · exact List.mem_cons_of_mem _ List.mem_cons_self

end Scope

/-! ## Walks -/

/-- What a walk through a tree with the given uses leads to. -/
structure Walk.Leads (w v : Walk) (scopes : List Scope) (uses : List Use) : Prop where
  scopes : v.scopes = scopes
  cls : v.cls = w.cls
  faults : w.faults.toList <+: v.faults.toList
  table : ∀ id, (∀ use ∈ uses, use.occurrence.id ≠ id) → v.table[id]? = w.table[id]?

section

variable (T : Table) (n : Nat)

/-- The uses have numbers of their own below `n`, which the walk does not know yet, and
    `T` has for them what the walk finds. -/
structure Walk.Finds (w v : Walk) (uses : List Use) : Prop where
  faults : v.faults = w.faults
  distinct : (uses.map (·.occurrence.id)).Nodup
  lt : ∀ use ∈ uses, use.occurrence.id < n
  unknown : ∀ use ∈ uses, w.table[use.occurrence.id]? = none
  found : ∀ use ∈ uses, T[use.occurrence.id]? = v.table[use.occurrence.id]?

/-- A walk through a tree leads on as it should, and if it finds no fault, `P` holds
    of the scopes where it begins. -/
def Resolves (ok : List Scope → ClassKind → Prop) (f : Walk → Walk) (uses : List Use)
    (after : List Scope → List Scope) (P : List Scope → Prop) : Prop :=
  ∀ w : Walk, w.Leads (f w) (after w.scopes) uses ∧
    (ok w.scopes w.cls → w.Finds T n (f w) uses → P w.scopes)

end

namespace Walk.Leads

variable {u v w : Walk} {scopes scopes' : List Scope} {us vs : List Use}

theorem refl (w : Walk) (us : List Use) : w.Leads w w.scopes us :=
  ⟨rfl, rfl, List.prefix_rfl, fun _ _ => rfl⟩

theorem trans (huv : u.Leads v scopes us) (hvw : v.Leads w scopes' vs) :
    u.Leads w scopes' (us ++ vs) := by
  refine ⟨hvw.scopes, hvw.cls.trans huv.cls, huv.faults.trans hvw.faults, fun id hid => ?_⟩
  rw [hvw.table id fun use huse => hid use (List.mem_append_right _ huse)]
  exact huv.table id fun use huse => hid use (List.mem_append_left _ huse)

/-- If no fault came up on the whole way, none came up on its parts. -/
theorem faults_eq (huv : u.Leads v scopes us) (hvw : v.Leads w scopes' vs)
    (h : w.faults = u.faults) : v.faults = u.faults := by
  have hback := hvw.faults
  rw [h] at hback
  exact Array.toList_inj.mp
    (hback.eq_of_length (Nat.le_antisymm hback.length_le huv.faults.length_le))

variable {T : Table} {n : Nat}

/-- What the whole way finds, its first part finds. -/
theorem finds_first (huv : u.Leads v scopes us) (hvw : v.Leads w scopes' vs)
    (h : u.Finds T n w (us ++ vs)) : u.Finds T n v us := by
  have hdistinct := h.distinct
  rw [List.map_append, List.nodup_append] at hdistinct
  refine ⟨huv.faults_eq hvw h.faults, hdistinct.1,
    fun use huse => h.lt use (List.mem_append_left _ huse),
    fun use huse => h.unknown use (List.mem_append_left _ huse), fun use huse => ?_⟩
  rw [h.found use (List.mem_append_left _ huse)]
  refine hvw.table _ fun other hother heq => ?_
  exact hdistinct.2.2 _ (List.mem_map.mpr ⟨use, huse, rfl⟩) _
    (List.mem_map.mpr ⟨other, hother, rfl⟩) heq.symm

/-- What the whole way finds, its last part finds. -/
theorem finds_last (huv : u.Leads v scopes us) (hvw : v.Leads w scopes' vs)
    (h : u.Finds T n w (us ++ vs)) : v.Finds T n w vs := by
  have hdistinct := h.distinct
  rw [List.map_append, List.nodup_append] at hdistinct
  refine ⟨h.faults.trans (huv.faults_eq hvw h.faults).symm, hdistinct.2.1,
    fun use huse => h.lt use (List.mem_append_right _ huse), fun use huse => ?_,
    fun use huse => h.found use (List.mem_append_right _ huse)⟩
  rw [← h.unknown use (List.mem_append_right _ huse)]
  refine huv.table _ fun other hother heq => ?_
  exact hdistinct.2.2 _ (List.mem_map.mpr ⟨other, hother, rfl⟩) _
    (List.mem_map.mpr ⟨use, huse, rfl⟩) heq

end Walk.Leads

/-! ## One walk after another -/

namespace Resolves

variable {T : Table} {n : Nat} {ok ok' : List Scope → ClassKind → Prop} {f g : Walk → Walk}
  {us vs : List Use} {a b : List Scope → List Scope} {P Q : List Scope → Prop}

theorem mono (h : Resolves T n ok f us a P) (hok : ∀ scopes cls, ok' scopes cls → ok scopes cls)
    (hPQ : ∀ scopes, P scopes → Q scopes) : Resolves T n ok' f us a Q :=
  fun w => ⟨(h w).1, fun hw hfinds => hPQ _ ((h w).2 (hok _ _ hw) hfinds)⟩

/-- The uses may be listed in any order. -/
theorem perm (h : Resolves T n ok f us a P) (hperm : us.Perm vs) : Resolves T n ok f vs a P := by
  intro w
  obtain ⟨hleads, hP⟩ := h w
  refine ⟨⟨hleads.scopes, hleads.cls, hleads.faults, fun id hid =>
    hleads.table id fun use huse => hid use (hperm.mem_iff.mp huse)⟩, fun hw hfinds => hP hw ?_⟩
  exact ⟨hfinds.faults, (hperm.map _).nodup_iff.mpr hfinds.distinct,
    fun use huse => hfinds.lt use (hperm.mem_iff.mp huse),
    fun use huse => hfinds.unknown use (hperm.mem_iff.mp huse),
    fun use huse => hfinds.found use (hperm.mem_iff.mp huse)⟩

theorem then_ (hf : Resolves T n ok f us a P)
    (hok : ∀ scopes cls, ok scopes cls → ok' (a scopes) cls)
    (hg : Resolves T n ok' g vs b Q) :
    Resolves T n ok (fun w => g (f w)) (us ++ vs) (fun scopes => b (a scopes))
      fun scopes => P scopes ∧ Q (a scopes) := by
  intro w
  obtain ⟨hleads, hP⟩ := hf w
  obtain ⟨hleads', hQ⟩ := hg (f w)
  rw [hleads.scopes] at hleads'
  rw [hleads.scopes, hleads.cls] at hQ
  refine ⟨hleads.trans hleads', fun hw hfinds => ⟨?_, ?_⟩⟩
  · exact hP hw (hleads.finds_first hleads' hfinds)
  · exact hQ (hok _ _ hw) (hleads.finds_last hleads' hfinds)

theorem still : Resolves T n ok (fun w => w) [] (fun scopes => scopes) fun _ => True :=
  fun w => ⟨.refl w [], fun _ _ => trivial⟩

/-- A walk inside one more scope. -/
theorem inScope (scope : Scope) (hf : Resolves T n ok' f us a P)
    (hok : ∀ scopes cls, ok scopes cls → ok' (scope :: scopes) cls)
    (htail : ∀ scopes, (a (scope :: scopes)).tail = scopes) :
    Resolves T n ok (fun w => w.inScope scope f) us (fun scopes => scopes)
      fun scopes => P (scope :: scopes) := by
  intro w
  obtain ⟨hleads, hP⟩ := hf { w with scopes := scope :: w.scopes }
  refine ⟨⟨?_, hleads.cls, hleads.faults, hleads.table⟩, fun hw hfinds => hP (hok _ _ hw) ?_⟩
  · show (f _).scopes.tail = w.scopes
    rw [hleads.scopes]
    exact htail w.scopes
  · exact ⟨hfinds.faults, hfinds.distinct, hfinds.lt, hfinds.unknown, hfinds.found⟩

end Resolves

/-! ## Single steps -/

variable {T : Table} {n : Nat} {ok : List Scope → ClassKind → Prop}

theorem leads_report (w : Walk) (at_ : Lexeme) (fault : ScopeFault) :
    w.Leads (w.report at_ fault) w.scopes [] :=
  ⟨rfl, rfl, by simp [Walk.report], fun _ _ => rfl⟩

/-- A step behind a reported fault finds it. -/
theorem not_finds_report {w v : Walk} {at_ : Lexeme} {fault : ScopeFault} {scopes : List Scope}
    {us vs : List Use} (hleads : (w.report at_ fault).Leads v scopes us) : ¬w.Finds T n v vs := by
  intro hfinds
  have hlength := hleads.faults.length_le
  rw [hfinds.faults] at hlength
  simp only [Walk.report, Array.toList_push, List.length_append, List.length_singleton] at hlength
  omega

theorem resolves_bind (kind : UseKind) (use : Occurrence) :
    Resolves T n ok (fun w => w.bind use) [⟨kind, use⟩] (fun scopes => scopes)
      fun scopes => T.Places n scopes use := by
  intro w
  have hbind : w.distance? use.name.text = none ∧ w.bind use = w ∨
      ∃ d, w.distance? use.name.text = some d ∧
        w.bind use = { w with table := w.table.insert use.id d } := by
    unfold Walk.bind
    cases w.distance? use.name.text with
    | none => exact .inl ⟨rfl, rfl⟩
    | some d => exact .inr ⟨d, rfl, rfl⟩
  dsimp only
  rcases hbind with ⟨hdistance, hbind⟩ | ⟨d, hdistance, hbind⟩
  · rw [hbind]
    refine ⟨.refl w _, fun _ hfinds => ⟨?_, ?_⟩⟩
    · exact hfinds.lt _ List.mem_cons_self
    · rw [hfinds.found _ List.mem_cons_self, hfinds.unknown _ List.mem_cons_self]
      exact hdistance.symm
  · rw [hbind]
    refine ⟨⟨rfl, rfl, List.prefix_rfl, fun id hid => ?_⟩, fun _ hfinds => ⟨?_, ?_⟩⟩
    · have hne := hid _ List.mem_cons_self
      rw [Std.TreeMap.getElem?_insert, if_neg (by simpa using hne)]
    · exact hfinds.lt _ List.mem_cons_self
    · rw [hfinds.found _ List.mem_cons_self, Std.TreeMap.getElem?_insert,
        if_pos (by simp)]
      exact hdistance.symm

/-- A name that is placed by the table is in the scope where it is placed. -/
theorem Table.Places.contains {scopes : List Scope} {use : Occurrence} {d : Nat} {scope : Scope}
    (h : T.Places n scopes use) (hd : T[use.id]? = some d) (hscope : scopes[d]? = some scope) :
    scope.contains use.name.text = true := by
  rw [h.2] at hd
  obtain ⟨hlt, hcontains, _⟩ := List.findIdx?_eq_some_iff_getElem.mp hd
  rw [List.getElem?_eq_getElem hlt] at hscope
  cases hscope
  exact hcontains

theorem resolves_read (use : Occurrence)
    (hok : ∀ scopes cls, ok scopes cls → ∀ scope ∈ scopes.tail, scope.AllReady) :
    Resolves T n ok (fun w => w.read use) [⟨.read, use⟩] (fun scopes => scopes)
      fun scopes => T.Readable n scopes use := by
  intro w
  unfold Walk.read
  dsimp only
  by_cases hown : w.readsOwnInitializer use.name.text = true
  · rw [if_pos hown]
    obtain ⟨hleads, _⟩ := (resolves_bind .read use : Resolves T n (fun _ _ => True) _ _ _ _)
      (w.report use.name .readInOwnInitializer)
    refine ⟨?_, fun _ hfinds => absurd hfinds (not_finds_report hleads)⟩
    exact (leads_report w _ _).trans hleads
  · rw [if_neg hown]
    obtain ⟨hleads, hplaces⟩ := (resolves_bind .read use : Resolves T n ok _ _ _ _) w
    refine ⟨hleads, fun hw hfinds => ⟨hplaces hw hfinds, fun d scope hd hscope => ?_⟩⟩
    have hcontains := (hplaces hw hfinds).contains hd hscope
    cases hget : scope.get? use.name.text with
    | none => simp [Bindings.contains, hget] at hcontains
    | some ready =>
      cases ready with
      | true => rfl
      | false =>
        -- Only the innermost scope could have it so, and that was looked at.
        cases hscopes : w.scopes with
        | nil => simp [hscopes] at hscope
        | cons innermost outer =>
          rw [hscopes] at hscope
          cases d with
          | zero =>
            cases hscope
            exact absurd (by simp [Walk.readsOwnInitializer, hscopes, hget]) hown
          | succ d =>
            have hmem : scope ∈ w.scopes.tail := by
              rw [hscopes]
              exact List.mem_of_getElem? hscope
            exact absurd hget (hok _ _ hw scope hmem use.name.text)

theorem resolves_write (use : Occurrence)
    (hok : ∀ scopes cls, ok scopes cls → ∀ scope ∈ scopes.tail, scope.AllReady) :
    Resolves T n ok (fun w => w.bind use) [⟨.assign, use⟩] (fun scopes => scopes)
      fun scopes => T.Writable n scopes use := by
  intro w
  obtain ⟨hleads, hplaces⟩ := (resolves_bind .assign use : Resolves T n ok _ _ _ _) w
  refine ⟨hleads, fun hw hfinds => ⟨hplaces hw hfinds, fun d scope hd hscope => ?_⟩⟩
  have hcontains := (hplaces hw hfinds).contains hd hscope
  have hmem : scope ∈ w.scopes.tail := by
    rw [← List.getElem?_tail] at hscope
    exact List.mem_of_getElem? hscope
  cases hget : scope.get? use.name.text with
  | none => simp [Bindings.contains, hget] at hcontains
  | some ready =>
    cases ready with
    | true => rfl
    | false => exact absurd hget (hok _ _ hw scope hmem use.name.text)

theorem resolves_this (keyword : Occurrence) :
    Resolves T n ok
      (fun w =>
        if w.cls = .outside then w.report keyword.name .thisOutsideClass else w.bind keyword)
      [⟨.this, keyword⟩] (fun scopes => scopes) fun scopes => T.Places n scopes keyword := by
  intro w
  dsimp only
  split
  · refine ⟨(leads_report w _ _).trans (.refl _ [_]), fun _ hfinds => ?_⟩
    exact absurd hfinds (not_finds_report (.refl _ []))
  · exact resolves_bind .this keyword w

/-- Inside a derived class a `super` has its place directly outside a `this`. -/
theorem Table.Places.inherits {scopes : List Scope} {use : Occurrence}
    (h : T.Places n scopes use) (hname : use.name.text = "super")
    (hscopes : Scope.Around scopes .derived) : T.Inherits n scopes use := by
  refine ⟨h, ?_⟩
  obtain ⟨hlt, hplace⟩ := h
  rw [hname] at hplace
  cases hfind : scopes.findIdx? (·.contains "super") with
  | none =>
    -- There is a scope of `super`, so it is found.
    obtain ⟨kind, hkind, hsuper⟩ := hscopes.derived rfl
    obtain ⟨scope, hscope, rfl⟩ := List.mem_map.mp hkind
    exact absurd hsuper (by simpa using List.findIdx?_eq_none_iff.mp hfind scope hscope)
  | some d =>
    obtain ⟨hd, hsuper, _⟩ := List.findIdx?_eq_some_iff_getElem.mp hfind
    have hkind : (Scope.kinds scopes)[d]? = some (scopes[d].contains "this", true) := by
      rw [Scope.kinds, List.getElem?_map, List.getElem?_eq_getElem hd, Option.map_some, hsuper]
    obtain ⟨k, y, rfl, hk⟩ := hscopes.layered d _ hkind
    rw [Scope.kinds, List.getElem?_map, List.getElem?_eq_getElem (by omega)] at hk
    injection hk with hk
    injection hk with hthis
    exact ⟨k, scopes[k], scopes[k + 1], hplace.trans hfind, List.getElem?_eq_getElem _, hthis,
      List.getElem?_eq_getElem _, hsuper⟩

theorem resolves_super (keyword : Occurrence) (hname : keyword.name.text = "super") :
    Resolves T n Scope.Around
      (fun w => (match w.cls with
        | .outside => w.report keyword.name .superOutsideClass
        | .base => w.report keyword.name .superWithoutSuperclass
        | .derived => w).bind keyword)
      [⟨.super, keyword⟩] (fun scopes => scopes) fun scopes => T.Inherits n scopes keyword := by
  intro w
  have reported (fault : ScopeFault) :
      w.Leads ((w.report keyword.name fault).bind keyword) w.scopes [⟨.super, keyword⟩] ∧
        (Scope.Around w.scopes w.cls →
          w.Finds T n ((w.report keyword.name fault).bind keyword) [⟨.super, keyword⟩] →
          T.Inherits n w.scopes keyword) := by
    obtain ⟨hleads, _⟩ := (resolves_bind .super keyword : Resolves T n (fun _ _ => True) _ _ _ _)
      (w.report keyword.name fault)
    exact ⟨(leads_report w _ _).trans hleads,
      fun _ hfinds => absurd hfinds (not_finds_report hleads)⟩
  dsimp only
  cases hcls : w.cls with
  | outside =>
    rw [hcls] at reported
    exact reported .superOutsideClass
  | base =>
    rw [hcls] at reported
    exact reported .superWithoutSuperclass
  | derived =>
    obtain ⟨hleads, hplaces⟩ :=
      (resolves_bind .super keyword : Resolves T n Scope.Around _ _ _ _) w
    rw [hcls] at hplaces
    exact ⟨hleads, fun hw hfinds => (hplaces hw hfinds).inherits hname hw⟩

/-! ## Expressions -/

mutual

/-- An expression without faults is scoped. -/
theorem Expr.resolves (e : Expr) (he : e.Proper) :
    Resolves T n Scope.Around e.resolve e.uses (fun scopes => scopes)
      fun scopes => e.Scoped T n scopes := by
  cases e with
  | literal value => exact .still
  | grouping inner => exact Expr.resolves inner he
  | unary op sign operand =>
    exact (Expr.resolves operand he.2).mono (fun _ _ h => h) fun _ h => ⟨he.1, h⟩
  | binary op sign left right =>
    exact ((Expr.resolves left he.2.1).then_ (fun _ _ h => h) (Expr.resolves right he.2.2)).mono
      (fun _ _ h => h) fun _ h => ⟨he.1, h⟩
  | logical op sign left right =>
    exact (Expr.resolves left he.1).then_ (fun _ _ h => h) (Expr.resolves right he.2)
  | name use => exact resolves_read use fun _ _ h => h.ready
  | assign target value =>
    refine (((Expr.resolves value he.2).then_ (fun _ _ h => h)
      (resolves_write target fun _ _ h => h.ready)).perm List.perm_append_comm).mono (fun _ _ h => h) ?_
    exact fun scopes h => ⟨h.2, he.1, h.1⟩
  | call callee paren arguments =>
    exact (Expr.resolves callee he.1).then_ (fun _ _ h => h) (Expr.listResolves arguments he.2)
  | get object property => exact Expr.resolves object he
  | set object property value =>
    refine (((Expr.resolves value he.2).then_ (fun _ _ h => h)
      (Expr.resolves object he.1)).perm List.perm_append_comm).mono (fun _ _ h => h) ?_
    exact fun scopes h => ⟨h.2, h.1⟩
  | this keyword => exact (resolves_this keyword).mono (fun _ _ h => h) fun scopes h => ⟨he, h⟩
  | super keyword method => exact resolves_super keyword he

theorem Expr.listResolves (es : List Expr) (hes : Expr.ListProper es) :
    Resolves T n Scope.Around (Expr.listResolve es) (Expr.listUses es) (fun scopes => scopes)
      fun scopes => Expr.ListScoped T n scopes es := by
  cases es with
  | nil => exact .still
  | cons e es =>
    exact (Expr.resolves e hes.1).then_ (fun _ _ h => h) (Expr.listResolves es hes.2)

end

theorem Expr.optionResolves (e : Option Expr) (he : Expr.OptionProper e) :
    Resolves T n Scope.Around (Expr.optionResolve e) (Expr.optionUses e) (fun scopes => scopes)
      fun scopes => Expr.OptionScoped T n scopes e := by
  cases e with
  | none => exact .still
  | some e => exact Expr.resolves e he

/-! ## Declarations -/

theorem scopes_mark (w : Walk) (name : String) (ready : Bool) :
    (w.mark name ready).scopes = Scope.mark w.scopes name ready := by
  unfold Walk.mark Scope.mark
  cases h : w.scopes with
  | nil => exact h
  | cons scope outer => rfl

theorem leads_mark (w : Walk) (name : String) (ready : Bool) :
    w.Leads (w.mark name ready) (Scope.mark w.scopes name ready) [] := by
  refine ⟨scopes_mark w name ready, ?_, ?_, ?_⟩ <;> unfold Walk.mark <;> split
  · rfl
  · rfl
  · exact List.prefix_rfl
  · exact List.prefix_rfl
  · exact fun _ _ => rfl
  · exact fun _ _ => rfl

theorem resolves_define (name : Lexeme) :
    Resolves T n ok (fun w => w.define name) [] (fun scopes => Scope.mark scopes name.text true)
      fun _ => True :=
  fun w => ⟨leads_mark w name.text true, fun _ _ => trivial⟩

theorem resolves_declare (name : Lexeme) :
    Resolves T n ok (fun w => w.declare name) [] (fun scopes => Scope.mark scopes name.text false)
      fun scopes => Scope.Lacks scopes name.text := by
  intro w
  have hmark := leads_mark w name.text false
  have hreport := leads_report (w.mark name.text false) name .alreadyDeclared
  have hfaults : (w.mark name.text false).faults = w.faults := by
    unfold Walk.mark
    split <;> rfl
  rw [hmark.scopes] at hreport
  unfold Walk.declare
  dsimp only
  split
  · refine ⟨hmark.trans hreport, fun _ hfinds => ?_⟩
    have hsize := congrArg Array.size hfinds.faults
    rw [Walk.report, Array.size_push, hfaults] at hsize
    omega
  · next hnew =>
    refine ⟨hmark, fun _ _ scope hscope => ?_⟩
    simpa [Walk.declaresHere, hscope] using hnew

theorem mark_mark (scopes : List Scope) (name : String) :
    Scope.mark (Scope.mark scopes name false) name true = Scope.mark scopes name true := by
  cases scopes with
  | nil => rfl
  | cons scope outer => exact congrArg (· :: outer) (scope.insert_insert name false true)

theorem resolves_introduce (name : Lexeme) :
    Resolves T n ok (fun w => w.introduce name) []
      (fun scopes => Scope.mark scopes name.text true) fun scopes =>
        Scope.Lacks scopes name.text := by
  have h := (resolves_declare name : Resolves T n ok _ _ _ _).then_ (fun _ _ _ => trivial)
    (resolves_define name : Resolves T n (fun _ _ => True) _ _ _ _)
  simp only [mark_mark] at h
  exact h.mono (fun _ _ h => h) fun _ h => h.1

/-- Parameters fill the scope of their function. -/
theorem resolves_parameters (parameters : List Lexeme) :
    Resolves T n ok (fun w => parameters.foldl Walk.introduce w) []
      (fun scopes => parameters.foldl (fun scopes p => Scope.mark scopes p.text true) scopes)
      fun _ => True := by
  induction parameters generalizing ok with
  | nil => exact .still
  | cons p ps ih =>
    have hrest : Resolves T n (fun _ _ => True) _ _ _ _ := ih
    exact ((resolves_introduce p).then_ (fun _ _ _ => trivial) hrest).mono (fun _ _ h => h)
      fun _ _ => trivial

theorem mark_parameters (parameters : List Lexeme) (scope : Scope) (outer : List Scope) :
    parameters.foldl (fun scopes p => Scope.mark scopes p.text true) (scope :: outer) =
      parameters.foldl (fun scope p => scope.insert p.text true) scope :: outer := by
  induction parameters generalizing scope with
  | nil => rfl
  | cons p ps ih => exact ih (scope.insert p.text true)

/-! ## Statements -/

/-- Ordinary parameters fill a scope that settles. -/
theorem Scope.settled_parameters {parameters : List Lexeme} (hp : ∀ p ∈ parameters, p.Ordinary)
    {scopes : List Scope} {cls : ClassKind} (h : Scope.Settled scopes cls) :
    Scope.Settled
      (parameters.foldl (fun scopes p => Scope.mark scopes p.text true) scopes) cls := by
  induction parameters generalizing scopes with
  | nil => exact h
  | cons p ps ih =>
    exact ih (fun q hq => hp q (List.mem_cons_of_mem _ hq)) (h.mark (hp p List.mem_cons_self))

theorem Stmt.settled_after {s : Stmt} (hs : s.Proper) {scopes : List Scope} {cls : ClassKind}
    (h : Scope.Settled scopes cls) : Scope.Settled (s.after scopes) cls := by
  cases s with
  | var name initializer => exact h.mark hs.1
  | function decl => exact h.mark hs.1
  | «class» name superclass methods => exact h.mark hs.1
  | _ => exact h

/-- Lists of statements only add to the innermost scope. -/
theorem Stmt.tail_listAfter (ss : List Stmt) (scopes : List Scope) :
    (Stmt.listAfter scopes ss).tail = scopes.tail := by
  induction ss generalizing scopes with
  | nil => rfl
  | cons s ss ih =>
    refine (ih (s.after scopes)).trans ?_
    cases s with
    | var name initializer => exact Scope.tail_mark scopes name.text true
    | function decl => exact Scope.tail_mark scopes decl.name.text true
    | «class» name superclass methods => exact Scope.tail_mark scopes name.text true
    | _ => rfl

/-- A walk with another kind of class around it. -/
theorem Resolves.inClass {ok ok' : List Scope → ClassKind → Prop} {f : Walk → Walk}
    {us : List Use} {a : List Scope → List Scope} {P : List Scope → Prop} (cls : ClassKind)
    (hf : Resolves T n ok' f us a P) (hok : ∀ scopes c, ok scopes c → ok' scopes cls) :
    Resolves T n ok (fun w => { f { w with cls } with cls := w.cls }) us a P := by
  intro w
  obtain ⟨hleads, hP⟩ := hf { w with cls }
  refine ⟨⟨hleads.scopes, rfl, hleads.faults, hleads.table⟩, fun hw hfinds => hP (hok _ _ hw) ?_⟩
  exact ⟨hfinds.faults, hfinds.distinct, hfinds.lt, hfinds.unknown, hfinds.found⟩

/-- A walk with another kind of body around it. -/
theorem Resolves.inBody {ok : List Scope → ClassKind → Prop} {f : Walk → Walk} {us : List Use}
    {a : List Scope → List Scope} {P : List Scope → Prop} (body : BodyKind)
    (hf : Resolves T n ok f us a P) :
    Resolves T n ok (fun w => { f { w with body } with body := w.body }) us a P := by
  intro w
  obtain ⟨hleads, hP⟩ := hf { w with body }
  refine ⟨⟨hleads.scopes, hleads.cls, hleads.faults, hleads.table⟩, fun hw hfinds => hP hw ?_⟩
  exact ⟨hfinds.faults, hfinds.distinct, hfinds.lt, hfinds.unknown, hfinds.found⟩

theorem resolves_checkReturn (keyword : Lexeme) (hasValue : Bool) :
    Resolves T n ok (fun w => w.checkReturn keyword hasValue) [] (fun scopes => scopes)
      fun _ => True := by
  intro w
  refine ⟨?_, fun _ _ => trivial⟩
  have hfirst : w.Leads (if w.body = .topLevel then w.report keyword .returnAtTopLevel else w)
      w.scopes [] := by
    split
    · exact leads_report w _ _
    · exact .refl w _
  unfold Walk.checkReturn
  dsimp only
  generalize (if w.body = .topLevel then w.report keyword .returnAtTopLevel else w) = v at hfirst
  split
  · have hreport := leads_report v keyword .returnValueInInitializer
    rw [hfirst.scopes] at hreport
    exact hfirst.trans hreport
  · exact hfirst

theorem resolves_inheritance (parent : Lexeme) (name : String) :
    Resolves T n ok
      (fun w => if parent.text = name then w.report parent .inheritsFromItself else w) []
      (fun scopes => scopes) fun _ => parent.text ≠ name := by
  intro w
  dsimp only
  split
  · refine ⟨leads_report w _ _, fun _ hfinds => ?_⟩
    exact absurd hfinds (not_finds_report (.refl _ []))
  · next hne => exact ⟨.refl w _, fun _ _ => hne⟩

/-- Other names are placed as before. -/
theorem Table.Readable.of_mark {scopes : List Scope} {use : Occurrence} {name : String}
    {ready : Bool} (hne : use.name.text ≠ name)
    (h : T.Readable n (Scope.mark scopes name ready) use) : T.Readable n scopes use := by
  cases scopes with
  | nil => exact h
  | cons scope outer =>
    obtain ⟨⟨hlt, hplace⟩, hready⟩ := h
    refine ⟨⟨hlt, ?_⟩, fun d here hd hhere => ?_⟩
    · rw [hplace, Scope.mark, List.findIdx?_cons, List.findIdx?_cons,
        scope.contains_insert_of_ne hne]
    · cases d with
      | zero =>
        obtain rfl : scope = here := by simpa using hhere
        rw [← Bindings.get?_insert_of_ne _ hne ready]
        exact hready 0 _ hd rfl
      | succ d => exact hready (d + 1) here hd hhere

mutual

/-- A statement without faults is scoped. -/
theorem Stmt.resolves (s : Stmt) (hs : s.Proper) :
    Resolves T n Scope.Settled s.resolve s.uses (fun scopes => s.after scopes)
      fun scopes => s.Scoped T n scopes := by
  match s with
  | .expression value => exact (Expr.resolves value hs).mono (fun _ _ h => h.around) fun _ h => h
  | .print value => exact (Expr.resolves value hs).mono (fun _ _ h => h.around) fun _ h => h
  | .var name initializer =>
    -- Declared, then the initializer, then ready: together one marked name.
    have hvalue := (resolves_declare name : Resolves T n Scope.Settled _ _ _ _).then_
      (fun _ _ h => h.around_mark hs.1) (Expr.optionResolves initializer hs.2)
    have h := hvalue.then_ (fun _ _ _ => trivial)
      (resolves_define name : Resolves T n (fun _ _ => True) _ _ _ _)
    simp only [mark_mark, List.append_nil, List.nil_append] at h
    exact h.mono (fun _ _ h => h) fun scopes h => ⟨⟨hs.1, h.1.1⟩, h.1.2⟩
  | .block body =>
    exact (Stmt.listResolves body hs).inScope .empty (fun _ _ h => h.push)
      fun scopes => Stmt.tail_listAfter body (.empty :: scopes)
  | .ifElse condition yes none =>
    have hcondition := (Expr.resolves condition hs.1 : Resolves T n _ _ _ _ _).mono
      (fun _ _ (h : Scope.Settled _ _) => h.around) fun _ h => h
    have h := hcondition.then_ (fun _ _ h => h) (Stmt.resolves yes hs.2.1)
    simp only [hs.2.2.after] at h
    exact h.mono (fun _ _ h => h) fun scopes h => ⟨h.1, h.2, hs.2.2⟩
  | .ifElse condition yes (some no) =>
    obtain ⟨hcondition, hyes, hplain, hno, hplain'⟩ := hs
    have hcondition := (Expr.resolves condition hcondition : Resolves T n _ _ _ _ _).mono
      (fun _ _ (h : Scope.Settled _ _) => h.around) fun _ h => h
    have hbranch := hcondition.then_ (fun _ _ h => h) (Stmt.resolves yes hyes)
    simp only [hplain.after] at hbranch
    have h := hbranch.then_ (fun _ _ h => h) (Stmt.resolves no hno)
    simp only [hplain'.after] at h
    exact h.mono (fun _ _ h => h) fun scopes h => ⟨h.1.1, h.1.2, hplain, h.2, hplain'⟩
  | .while condition body =>
    have hcondition := (Expr.resolves condition hs.1 : Resolves T n _ _ _ _ _).mono
      (fun _ _ (h : Scope.Settled _ _) => h.around) fun _ h => h
    have h := hcondition.then_ (fun _ _ h => h) (Stmt.resolves body hs.2.1)
    simp only [hs.2.2.after] at h
    exact h.mono (fun _ _ h => h) fun scopes h => ⟨h.1, h.2, hs.2.2⟩
  | .break keyword => exact .still
  | .function decl =>
    exact ((resolves_introduce decl.name).then_ (fun _ _ h => h.mark hs.1)
      (FunctionDecl.resolves .function decl hs.2)).mono (fun _ _ h => h)
      fun scopes h => ⟨⟨hs.1, h.1⟩, h.2⟩
  | .return keyword value =>
    exact ((resolves_checkReturn keyword value.isSome).then_ (fun _ _ h => h)
      (Expr.optionResolves value hs)).mono (fun _ _ h => h.around) fun scopes h => h.2
  | .class name none methods =>
    have hmethods := (FunctionDecl.listResolves methods hs.2).inScope (.single "this" true)
      (fun _ _ (h : Scope.InClass .base _ _) => h.base) fun _ => rfl
    have hnamed := (resolves_introduce name).then_
      (fun _ _ (h : Scope.InClass .base _ _) => h.mark hs.1) hmethods
    exact (hnamed.inClass .base fun _ c h => ⟨rfl, c, h⟩).mono (fun _ _ h => h)
      fun scopes h => ⟨⟨hs.1, h.1⟩, h.2⟩
  | .class name (some parent) methods =>
    -- From the inside out: the scopes of `this` and of `super`, the superclass, the name.
    have hthis := (FunctionDecl.listResolves methods hs.2).inScope (.single "this" true)
      (fun _ _ h => h) fun _ => rfl
    have hsuper := hthis.inScope (.single "super" true)
      (fun _ _ (h : Scope.InClass .derived _ _) => h.derived) fun _ => rfl
    have hparent := (resolves_read parent fun _ _ h => h.ready).then_ (fun _ _ h => h) hsuper
    have hclause := (resolves_inheritance parent.name name.text).then_ (fun _ _ h => h)
      (hparent.inClass .derived fun scopes cls (h : Scope.InClass .base scopes cls) =>
        ⟨rfl, h.settled⟩)
    have hnamed := (resolves_introduce name).then_
      (fun _ _ (h : Scope.InClass .base _ _) => h.mark hs.1) hclause
    refine (hnamed.inClass .base fun _ c h => ⟨rfl, c, h⟩).mono (fun _ _ h => h)
      fun scopes h => ⟨⟨hs.1, h.1⟩, h.2.2.1.of_mark h.2.1, h.2.2.2⟩

theorem Stmt.listResolves (ss : List Stmt) (hss : Stmt.ListProper ss) :
    Resolves T n Scope.Settled (Stmt.listResolve ss) (Stmt.listUses ss)
      (fun scopes => Stmt.listAfter scopes ss) fun scopes => Stmt.ListScoped T n scopes ss := by
  match ss with
  | [] => exact .still
  | s :: ss =>
    exact (Stmt.resolves s hss.1).then_ (fun _ _ h => Stmt.settled_after hss.1 h)
      (Stmt.listResolves ss hss.2)

theorem FunctionDecl.resolves (kind : BodyKind) (d : FunctionDecl) (hd : d.Proper) :
    Resolves T n Scope.Settled (d.resolve kind) d.uses (fun scopes => scopes)
      fun scopes => d.Scoped T n scopes := by
  match d with
  | ⟨name, parameters, body⟩ =>
    have hbody := (resolves_parameters parameters : Resolves T n Scope.Settled _ _ _ _).then_
      (fun _ _ h => Scope.settled_parameters hd.1 h) (Stmt.listResolves body hd.2)
    have hscope := hbody.inScope .empty (fun _ _ (h : Scope.Settled _ _) => h.push) fun scopes => by
      rw [mark_parameters]
      exact Stmt.tail_listAfter body (_ :: scopes)
    refine (hscope.inBody kind).mono (fun _ _ h => h) fun scopes h => ⟨hd.1, ?_⟩
    have hscoped := h.2
    rw [mark_parameters] at hscoped
    exact hscoped

theorem FunctionDecl.listResolves (ds : List FunctionDecl) (hds : FunctionDecl.ListProper ds) :
    Resolves T n Scope.Settled (FunctionDecl.listResolve ds) (FunctionDecl.listUses ds)
      (fun scopes => scopes) fun scopes => FunctionDecl.ListScoped T n scopes ds := by
  match ds with
  | [] => exact .still
  | d :: ds =>
    exact (FunctionDecl.resolves d.methodKind d hds.1).then_ (fun _ _ h => h)
      (FunctionDecl.listResolves ds hds.2)

end

/-! ## Whole trees -/

namespace Resolves

variable {f : Walk → Walk} {uses : List Use} {after : List Scope → List Scope}
  {P : List Scope → Prop} {A : Table}

theorem result_eq_ok {w : Walk} (h : w.result = .ok A) : w.faults = #[] ∧ w.table = A := by
  unfold Walk.result at h
  split at h
  · next hempty =>
    cases h
    exact ⟨Array.isEmpty_iff.mp hempty, rfl⟩
  · cases h

/-- A tree that is resolved without faults outside everything is as it should be in
    every table with the distances that were found. -/
theorem of_result (hf : Resolves T n ok f uses after P) (hok : ok [] .outside)
    (h : (f .start).result = .ok A) {first : Nat} (hfresh : Fresh uses first n)
    (hT : ∀ use ∈ uses, T[use.occurrence.id]? = A[use.occurrence.id]?) : P [] := by
  obtain ⟨hfaults, htable⟩ := result_eq_ok h
  refine (hf .start).2 hok ⟨hfaults, hfresh.distinct, fun use huse => (hfresh.within use huse).2,
    fun use _ => Std.TreeMap.getElem?_emptyc, fun use huse => ?_⟩
  rw [htable]
  exact hT use huse

/-- Only uses in the tree get a distance. -/
theorem unused (hf : Resolves T n ok f uses after P) (h : (f .start).result = .ok A) {id : Nat}
    (hid : ∀ use ∈ uses, use.occurrence.id ≠ id) : A[id]? = none := by
  obtain ⟨_, htable⟩ := result_eq_ok h
  rw [← htable, (hf .start).1.table id hid]
  exact Std.TreeMap.getElem?_emptyc

end Resolves

end Lox
