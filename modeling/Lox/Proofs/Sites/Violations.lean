/-
  Lox.Proofs.Sites.Violations

  The resolver reports exactly the scope violations of a program.

    * `Site.Violates` — what is wrong at a site, in terms of the scopes around it and of
      the sites that are written before it;
    * `Site.violates_iff` — the same, as a function;
    * `resolveProgram_reports` — the faults of a program are those of its sites.
-/
import Lox.Proofs.Sites.Trees

namespace Lox

/-! ## Violations -/

/-- What is wrong at a site behind others, and with which token. -/
inductive Site.Violates (before : List Site) : Site → ScopeFault → Lexeme → Prop
  /-- A scope has the name already.  Outside all scopes names may be declared again. -/
  | alreadyDeclared {scope : Opening} {outer : List Opening} {initializing : Option String}
      {name : Lexeme} : scope.Declares before name.text →
      Violates before ⟨scope :: outer, initializing, .declaration name⟩ .alreadyDeclared name
  /-- A local variable is read in its own initializer. -/
  | readInOwnInitializer {scope : Opening} {outer : List Opening} {use : Occurrence} :
      Violates before ⟨scope :: outer, some use.name.text, .use ⟨.read, use⟩⟩
        .readInOwnInitializer use.name
  /-- There is no function around a `return`. -/
  | returnAtTopLevel {around : List Opening} {initializing : Option String} {keyword : Lexeme}
      {hasValue : Bool} : (∀ o ∈ around, ¬o.IsBody) →
      Violates before ⟨around, initializing, .return keyword hasValue⟩ .returnAtTopLevel keyword
  /-- The nearest function around a `return` with a value is a method named `init`. -/
  | returnValueInInitializer {inner outer : List Opening} {nearest : Opening}
      {initializing : Option String} {keyword : Lexeme} :
      (∀ o ∈ inner, ¬o.IsBody) → nearest.kind = .method "init" →
      Violates before ⟨inner ++ nearest :: outer, initializing, .return keyword true⟩
        .returnValueInInitializer keyword
  /-- There is no class around a `this`. -/
  | thisOutsideClass {around : List Opening} {initializing : Option String} {use : Occurrence} :
      (∀ o ∈ around, ¬o.IsClass) →
      Violates before ⟨around, initializing, .use ⟨.this, use⟩⟩ .thisOutsideClass use.name
  /-- There is no class around a `super`. -/
  | superOutsideClass {around : List Opening} {initializing : Option String} {use : Occurrence} :
      (∀ o ∈ around, ¬o.IsClass) →
      Violates before ⟨around, initializing, .use ⟨.super, use⟩⟩ .superOutsideClass use.name
  /-- The nearest class around a `super` has no superclass. -/
  | superWithoutSuperclass {inner outer : List Opening} {nearest : Opening}
      {initializing : Option String} {use : Occurrence} :
      (∀ o ∈ inner, ¬o.IsClass) → nearest.kind = .receiver false →
      Violates before ⟨inner ++ nearest :: outer, initializing, .use ⟨.super, use⟩⟩
        .superWithoutSuperclass use.name
  /-- A class names itself as its superclass. -/
  | inheritsFromItself {around : List Opening} {initializing : Option String}
      {name parent : Lexeme} : parent.text = name.text →
      Violates before ⟨around, initializing, .inheritance name parent⟩ .inheritsFromItself parent

/-! ## The nearest body and the nearest class -/

theorem Opening.not_isBody_iff (o : Opening) : ¬o.IsBody ↔ o.kind.body? = none := by
  unfold IsBody
  cases o.kind <;> simp [OpeningKind.body?]

theorem Opening.not_isClass_iff (o : Opening) : ¬o.IsClass ↔ o.kind.class? = none := by
  unfold IsClass
  cases o.kind <;> simp [OpeningKind.class?]

section

variable {α : Type} {f : OpeningKind → Option α} {around : List Opening} {a outside : α}

/-- There is no scope of some kind around a position. -/
theorem getD_findSome?_eq_outside_iff (houtside : ∀ kind, f kind ≠ some outside) :
    (around.findSome? (fun o => f o.kind)).getD outside = outside ↔
      ∀ o ∈ around, f o.kind = none := by
  rw [← List.findSome?_eq_none_iff]
  cases hfind : around.findSome? (fun o => f o.kind) with
  | none => simp
  | some found =>
    obtain ⟨o, _, ho⟩ := List.exists_of_findSome?_eq_some hfind
    simp only [Option.getD_some, reduceCtorEq, iff_false]
    rintro rfl
    exact houtside _ ho

/-- The nearest scope of some kind around a position. -/
theorem getD_findSome?_eq_iff (ha : a ≠ outside) :
    (around.findSome? (fun o => f o.kind)).getD outside = a ↔ ∃ inner nearest outer,
      around = inner ++ nearest :: outer ∧ (∀ o ∈ inner, f o.kind = none) ∧
        f nearest.kind = some a := by
  have hsome : (around.findSome? (fun o => f o.kind)).getD outside = a ↔
      around.findSome? (fun o => f o.kind) = some a := by
    cases around.findSome? (fun o => f o.kind) <;> simp [Ne.symm ha]
  rw [hsome, List.findSome?_eq_some_iff]
  constructor
  · rintro ⟨inner, nearest, outer, heq, hfound, hnone⟩
    exact ⟨inner, nearest, outer, heq, hnone, hfound⟩
  · rintro ⟨inner, nearest, outer, heq, hnone, hfound⟩
    exact ⟨inner, nearest, outer, heq, hfound, hnone⟩

theorem bodyAround_eq_topLevel_iff :
    bodyAround around = .topLevel ↔ ∀ o ∈ around, ¬o.IsBody := by
  simp only [Opening.not_isBody_iff]
  refine getD_findSome?_eq_outside_iff fun kind => ?_
  cases kind with
  | method name => by_cases h : name = "init" <;> simp [OpeningKind.body?, h]
  | _ => simp [OpeningKind.body?]

theorem bodyAround_eq_initializer_iff :
    bodyAround around = .initializer ↔ ∃ inner nearest outer,
      around = inner ++ nearest :: outer ∧ (∀ o ∈ inner, ¬o.IsBody) ∧
        nearest.kind = .method "init" := by
  have hkind (kind : OpeningKind) : kind.body? = some .initializer ↔ kind = .method "init" := by
    cases kind with
    | method name => by_cases h : name = "init" <;> simp [OpeningKind.body?, h]
    | _ => simp [OpeningKind.body?]
  simp only [Opening.not_isBody_iff, ← hkind]
  exact getD_findSome?_eq_iff (by decide)

theorem classAround_eq_outside_iff :
    classAround around = .outside ↔ ∀ o ∈ around, ¬o.IsClass := by
  simp only [Opening.not_isClass_iff]
  refine getD_findSome?_eq_outside_iff fun kind => ?_
  cases kind with
  | receiver derived => cases derived <;> simp [OpeningKind.class?]
  | _ => simp [OpeningKind.class?]

theorem classAround_eq_base_iff :
    classAround around = .base ↔ ∃ inner nearest outer,
      around = inner ++ nearest :: outer ∧ (∀ o ∈ inner, ¬o.IsClass) ∧
        nearest.kind = .receiver false := by
  have hkind (kind : OpeningKind) : kind.class? = some .base ↔ kind = .receiver false := by
    cases kind with
    | receiver derived => cases derived <;> simp [OpeningKind.class?]
    | _ => simp [OpeningKind.class?]
  simp only [Opening.not_isClass_iff, ← hkind]
  exact getD_findSome?_eq_iff (by decide)

end

/-! ## Faults of a site -/

theorem Site.Violates.fault?_eq {before : List Site} {site : Site} {fault : ScopeFault}
    {name : Lexeme} (h : site.Violates before fault name) :
    site.fault? before = some (fault, name) := by
  cases h with
  | alreadyDeclared hdeclares =>
    exact if_pos ⟨_, rfl, hdeclares⟩
  | readInOwnInitializer => exact if_pos ⟨List.cons_ne_nil _ _, rfl⟩
  | returnAtTopLevel hbody => exact if_pos (bodyAround_eq_topLevel_iff.mpr hbody)
  | @returnValueInInitializer inner outer nearest initializing keyword hbody hinit =>
    have hkind := bodyAround_eq_initializer_iff.mpr ⟨inner, nearest, outer, rfl, hbody, hinit⟩
    simp [Site.fault?, hkind]
  | thisOutsideClass hclass => exact if_pos (classAround_eq_outside_iff.mpr hclass)
  | superOutsideClass hclass =>
    simp [Site.fault?, Site.useFault?, classAround_eq_outside_iff.mpr hclass]
  | @superWithoutSuperclass inner outer nearest initializing use hclass hbase =>
    have hkind := classAround_eq_base_iff.mpr ⟨inner, nearest, outer, rfl, hclass, hbase⟩
    simp [Site.fault?, Site.useFault?, hkind]
  | inheritsFromItself hself => exact if_pos hself

/-- What is wrong with a use violates the rules for uses. -/
theorem Site.violates_of_useFault? {before : List Site} {around : List Opening}
    {initializing : Option String} {use : Use} {fault : ScopeFault} {name : Lexeme}
    (h : Site.useFault? ⟨around, initializing, .use use⟩ use = some (fault, name)) :
    Site.Violates before ⟨around, initializing, .use use⟩ fault name := by
  obtain ⟨kind, use⟩ := use
  cases kind with
  | read =>
    simp only [Site.useFault?, Option.ite_none_right_eq_some, Option.some.injEq,
      Prod.mk.injEq] at h
    obtain ⟨⟨haround, rfl⟩, rfl, rfl⟩ := h
    obtain ⟨scope, outer, rfl⟩ := List.exists_cons_of_ne_nil haround
    exact .readInOwnInitializer
  | assign => cases h
  | this =>
    simp only [Site.useFault?, Option.ite_none_right_eq_some, Option.some.injEq,
      Prod.mk.injEq] at h
    obtain ⟨hclass, rfl, rfl⟩ := h
    exact .thisOutsideClass (classAround_eq_outside_iff.mp hclass)
  | super =>
    unfold Site.useFault? at h
    cases hclass : classAround around with
    | outside =>
      simp only [hclass, Option.some.injEq, Prod.mk.injEq] at h
      obtain ⟨rfl, rfl⟩ := h
      exact .superOutsideClass (classAround_eq_outside_iff.mp hclass)
    | base =>
      simp only [hclass, Option.some.injEq, Prod.mk.injEq] at h
      obtain ⟨rfl, rfl⟩ := h
      obtain ⟨inner, nearest, outer, rfl, hinner, hnearest⟩ := classAround_eq_base_iff.mp hclass
      exact .superWithoutSuperclass hinner hnearest
    | derived =>
      simp only [hclass] at h
      cases h

/-- The fault of a site is what it violates. -/
theorem Site.violates_iff {before : List Site} {site : Site} {fault : ScopeFault} {name : Lexeme} :
    site.Violates before fault name ↔ site.fault? before = some (fault, name) := by
  refine ⟨fun h => h.fault?_eq, fun h => ?_⟩
  obtain ⟨around, initializing, event⟩ := site
  cases event with
  | declaration declared =>
    simp only [Site.fault?, Option.ite_none_right_eq_some, Option.some.injEq,
      Prod.mk.injEq] at h
    obtain ⟨⟨scope, hhead, hdeclares⟩, rfl, rfl⟩ := h
    cases around with
    | nil => cases hhead
    | cons innermost outer =>
      cases hhead
      exact .alreadyDeclared hdeclares
  | use use => exact Site.violates_of_useFault? h
  | «return» keyword hasValue =>
    unfold Site.fault? at h
    dsimp only at h
    by_cases htop : bodyAround around = .topLevel
    · rw [if_pos htop] at h
      cases h
      exact .returnAtTopLevel (bodyAround_eq_topLevel_iff.mp htop)
    · simp only [if_neg htop, Option.ite_none_right_eq_some, Option.some.injEq,
        Prod.mk.injEq] at h
      obtain ⟨⟨rfl, hinit⟩, rfl, rfl⟩ := h
      obtain ⟨inner, nearest, outer, rfl, hinner, hnearest⟩ :=
        bodyAround_eq_initializer_iff.mp hinit
      exact .returnValueInInitializer hinner hnearest
  | inheritance declared parent =>
    simp only [Site.fault?, Option.ite_none_right_eq_some, Option.some.injEq,
      Prod.mk.injEq] at h
    obtain ⟨hself, rfl, rfl⟩ := h
    exact .inheritsFromItself hself

/-! ## Programs -/

/-- The faults of sites behind others, each with the number of its site. -/
def numberedFaults (before sites : List Site) : List (Nat × ScopeFault × Lexeme) :=
  collect (fun passed site => (site.fault? passed).map (passed.length, ·)) before sites

theorem map_snd_numberedFaults (before sites : List Site) :
    (numberedFaults before sites).map Prod.snd = collect Site.fault? before sites := by
  unfold numberedFaults
  induction sites generalizing before with
  | nil => rfl
  | cons site sites ih =>
    rw [collect, collect, List.map_append, ih]
    cases site.fault? before <;> rfl

theorem mem_numberedFaults {sites : List Site} {i : Nat} {fault : ScopeFault} {name : Lexeme} :
    (i, fault, name) ∈ numberedFaults [] sites ↔
      ∃ site, sites[i]? = some site ∧ site.Violates (sites.take i) fault name := by
  have hlength {j : Nat} {site : Site} (hj : sites[j]? = some site) :
      (sites.take j).length = j := by
    have hlt := (List.getElem?_eq_some_iff.mp hj).1
    rw [List.length_take]
    omega
  unfold numberedFaults
  rw [mem_collect]
  simp only [List.nil_append, Option.map_eq_some_iff, Prod.mk.injEq]
  constructor
  · rintro ⟨j, site, hj, found, hfound, hnumber, rfl⟩
    rw [hlength hj] at hnumber
    subst hnumber
    exact ⟨site, hj, Site.violates_iff.mpr hfound⟩
  · rintro ⟨site, hi, hviolates⟩
    exact ⟨i, site, hi, _, Site.violates_iff.mp hviolates, hlength hi, rfl⟩

/-- No two faults have the same number: a site violates at most one rule. -/
theorem nodup_numberedFaults (before sites : List Site) :
    (numberedFaults before sites).Nodup := by
  have hbound {before sites : List Site} {found : Nat × ScopeFault × Lexeme}
      (h : found ∈ numberedFaults before sites) : before.length ≤ found.1 := by
    obtain ⟨i, site, _, hfound⟩ := (mem_collect _).mp h
    obtain ⟨_, _, rfl⟩ := Option.map_eq_some_iff.mp hfound
    rw [List.length_append]
    omega
  -- The first fault has the number of its own site, and the others have greater ones.
  induction sites generalizing before with
  | nil => exact List.nodup_nil
  | cons site sites ih =>
    have hrest := ih (before ++ [site])
    unfold numberedFaults at hrest ⊢
    rw [collect]
    cases site.fault? before with
    | none => exact hrest
    | some fault =>
      refine List.nodup_cons.mpr ⟨fun hmem => ?_, hrest⟩
      have hle : (before ++ [site]).length ≤ before.length := hbound hmem
      rw [List.length_append, List.length_singleton] at hle
      omega

/-- The resolver reports exactly the violations in a program: its faults are those of the
    sites, each once, at the line and with the text of the token in question.  It goes
    well just when there is none. -/
theorem resolveProgram_reports (program : List Stmt) :
    ∃ found : List (Nat × ScopeFault × Lexeme), found.Nodup ∧
      (∀ i fault name, (i, fault, name) ∈ found ↔
        ∃ site, (programSites program)[i]? = some site ∧
          site.Violates ((programSites program).take i) fault name) ∧
      match resolveProgram program with
      | .ok _ => found = []
      | .error faults => found ≠ [] ∧ faults.Perm
          (found.map fun (_, fault, name) => .scope name.line (.atLexeme name.text) fault) := by
  refine ⟨numberedFaults [] (programSites program), nodup_numberedFaults _ _,
    fun _ _ _ => mem_numberedFaults, ?_⟩
  have hfaults := (program_walks program).notes.faults
  have hmap : (collect Site.fault? [] (programSites program)).map scopeReport =
      (numberedFaults [] (programSites program)).map
        fun (_, fault, name) => .scope name.line (.atLexeme name.text) fault := by
    rw [← map_snd_numberedFaults, List.map_map]
    rfl
  rw [hmap] at hfaults
  generalize numberedFaults [] (programSites program) = found at hfaults
  have hstart : Walk.start.faults.toList = [] := rfl
  rw [hstart, List.nil_append] at hfaults
  unfold resolveProgram Walk.result
  by_cases hempty : (Stmt.listResolve program .start).faults.isEmpty = true
  · rw [if_pos hempty]
    rw [Array.isEmpty_iff.mp hempty] at hfaults
    exact List.map_eq_nil_iff.mp hfaults.symm.eq_nil
  · rw [if_neg hempty]
    refine ⟨?_, hfaults⟩
    rintro rfl
    exact hempty (Array.isEmpty_iff.mpr (Array.toList_eq_nil_iff.mp hfaults.eq_nil))

end Lox
