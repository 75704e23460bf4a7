/-
  Lox.Proofs.Renaming.Resolving

  The resolver finds the same distances in a renamed tree.

    * `Scope.AllMirror` — the scopes around a position in both trees: in a chosen one
      the old name stands for the new one;
    * `AllMirror.findIdx?_spell` — an occurrence that is respelled as its scope is
      chosen is found at the same distance;
    * `Walk.Beside` — two walks at the same position, of which the second one has no
      fault and the same table as long as the first one has none;
    * `resolveProgram_rename` — what is accepted is accepted after renaming, with the
      same table.
-/
import Lox.Proofs.Renaming.Rename
import Lox.Proofs.Scoping.Resolution

namespace Lox

/-! ## Scopes -/

/-- A scope of the renamed tree: what it has for a name, the scope of the tree has for
    the name that it stands for. -/
structure Scope.Mirrors (r : Renaming) (flag : Bool) (scope scope' : Scope) : Prop where
  fresh : scope.get? r.new = none
  get? : ∀ name, scope'.get? name = scope.get? (r.swap flag name)

/-- The scopes around a position, the innermost one first. -/
inductive Scope.AllMirror (r : Renaming) : List Bool → List Scope → List Scope → Prop
  | nil : AllMirror r [] [] []
  | cons {flag flags scope scope' scopes scopes'} :
      Scope.Mirrors r flag scope scope' → AllMirror r flags scopes scopes' →
      AllMirror r (flag :: flags) (scope :: scopes) (scope' :: scopes')

variable {r : Renaming} {flag : Bool} {flags : List Bool} {scope scope' : Scope}
  {scopes scopes' : List Scope}

namespace Scope.Mirrors

theorem contains (h : scope.Mirrors r flag scope') (name : String) :
    scope'.contains name = scope.contains (r.swap flag name) := by
  rw [Bindings.contains, h.get?, Bindings.contains]

/-- A declared name has the state that it had before renaming. -/
theorem get?_spell (h : scope.Mirrors r flag scope') {name : String} (hname : name ≠ r.new) :
    scope'.get? (r.spell flag name) = scope.get? name := by
  rw [h.get?, Renaming.spell_eq_swap flag hname, Renaming.swap_swap]

theorem insert (h : scope.Mirrors r flag scope') {name : String} (hname : name ≠ r.new)
    (ready : Bool) :
    Scope.Mirrors r flag (scope.insert name ready) (scope'.insert (r.spell flag name) ready) := by
  refine ⟨?_, fun other => ?_⟩
  · rw [Bindings.get?_insert_of_ne _ (Ne.symm hname)]
    exact h.fresh
  · rw [Renaming.spell_eq_swap flag hname]
    by_cases hother : other = r.swap flag name
    · rw [hother, Renaming.swap_swap, Bindings.get?_insert_self, Bindings.get?_insert_self]
    · have hswap : r.swap flag other ≠ name := by
        intro heq
        rw [← heq, Renaming.swap_swap] at hother
        exact hother rfl
      rw [Bindings.get?_insert_of_ne _ hother, Bindings.get?_insert_of_ne _ hswap, h.get?]

theorem empty (r : Renaming) (flag : Bool) : Scope.Mirrors r flag .empty .empty :=
  ⟨rfl, fun _ => rfl⟩

/-- The scopes of `this` and `super` are as before. -/
theorem single {name : String} (hname : name ≠ r.new) (ready : Bool) :
    Scope.Mirrors r false (.single name ready) (.single name ready) :=
  ⟨if_neg hname, fun _ => rfl⟩

/-- A name that the scope does not have is not found under another spelling. -/
theorem contains_spell (h : scope.Mirrors r flag scope') {name : String} (hname : name ≠ r.new)
    (hscope : scope.contains name = false) (other : Bool) :
    scope'.contains (r.spell other name) = false := by
  have hnew : scope.contains r.new = false := by
    rw [Bindings.contains, h.fresh]
    rfl
  have hswap : r.swap flag (r.spell other name) = name ∨
      r.swap flag (r.spell other name) = r.new := by
    by_cases hold : name = r.old
    · cases flag <;> cases other <;> simp [Renaming.swap, Renaming.spell, hold]
    · rw [Renaming.spell_of_ne other hold, Renaming.swap_of_ne flag hold hname]
      exact .inl rfl
  rw [h.contains]
  rcases hswap with heq | heq
  · rw [heq, hscope]
  · rw [heq, hnew]

end Scope.Mirrors

namespace Scope.AllMirror

/-- An occurrence that is spelled as the scope it means has it is found there. -/
theorem findIdx?_spell (h : Scope.AllMirror r flags scopes scopes') {name : String}
    (hname : name ≠ r.new) {found : Option Nat}
    (hfound : found = scopes.findIdx? (·.contains name)) :
    scopes'.findIdx? (·.contains (r.spell (flagAt flags found) name)) = found := by
  induction h generalizing found with
  | nil => exact hfound.symm
  | @cons flag flags scope scope' scopes scopes' hscope hscopes ih =>
    rw [List.findIdx?_cons] at hfound ⊢
    by_cases hhere : scope.contains name = true
    · rw [if_pos hhere] at hfound
      have hhere' : scope'.contains (r.spell flag name) = true := by
        rw [Bindings.contains, hscope.get?_spell hname]
        exact hhere
      rw [hfound]
      exact if_pos hhere'
    · -- The scope has the name in no spelling, so the next ones decide.
      rw [if_neg hhere] at hfound
      have hflag : flagAt (flag :: flags) found =
          flagAt flags (scopes.findIdx? (·.contains name)) := by
        rw [hfound]
        cases scopes.findIdx? (·.contains name) <;> rfl
      have hnot := hscope.contains_spell hname (by simpa using hhere)
        (flagAt flags (scopes.findIdx? (·.contains name)))
      rw [hflag, hnot, ih rfl, hfound]
      rfl

/-- Only where the tree reads a name of the innermost scope that is not ready, the
    renamed tree does so. -/
theorem get?_head (h : Scope.AllMirror r flags scopes scopes') {name : String}
    (hname : name ≠ r.new) {found : Option Nat}
    (hfound : found = scopes.findIdx? (·.contains name))
    (hread : scopes'.head?.any (·.get? (r.spell (flagAt flags found) name) = some false) = true) :
    scopes.head?.any (·.get? name = some false) = true := by
  cases h with
  | nil => cases hread
  | @cons flag flags scope scope' scopes scopes' hscope hscopes =>
    have hread' : scope'.get? (r.spell (flagAt (flag :: flags) found) name) = some false := by
      simpa using hread
    have hhere : scope.contains name = true := by
      rw [← Bool.not_eq_false]
      intro hhere
      have hnot := hscope.contains_spell hname hhere (flagAt (flag :: flags) found)
      rw [Bindings.contains, hread'] at hnot
      cases hnot
    have hhead : found = some 0 := by
      rw [hfound, List.findIdx?_cons, if_pos hhere]
    rw [hhead, show flagAt (flag :: flags) (some 0) = flag from rfl,
      hscope.get?_spell hname] at hread'
    simpa using hread'

/-- A name is declared in the innermost scope where it was before. -/
theorem contains_head (h : Scope.AllMirror r flags scopes scopes') {name : String}
    (hname : name ≠ r.new) :
    scopes'.head?.any (·.contains (r.spell (flags.headD false) name)) =
      scopes.head?.any (·.contains name) := by
  cases h with
  | nil => rfl
  | cons hscope hscopes =>
    show Bindings.contains _ _ = Bindings.contains _ _
    rw [Bindings.contains, Bindings.contains]
    exact congrArg Option.isSome (hscope.get?_spell hname)

theorem mark (h : Scope.AllMirror r flags scopes scopes') {name : String} (hname : name ≠ r.new)
    (ready : Bool) :
    Scope.AllMirror r flags (Scope.mark scopes name ready)
      (Scope.mark scopes' (r.spell (flags.headD false) name) ready) := by
  cases h with
  | nil => exact .nil
  | cons hscope hscopes => exact .cons (hscope.insert hname ready) hscopes

end Scope.AllMirror

/-! ## Walks -/

/-- Two walks inside scopes, which the second one has renamed. -/
structure Walk.Beside (r : Renaming) (scopes : List Scope) (flags : List Bool) (w w' : Walk) :
    Prop where
  stands : w.scopes = scopes
  mirrored : Scope.AllMirror r flags scopes w'.scopes
  body : w'.body = w.body
  cls : w'.cls = w.cls
  /-- What the second walk found, as long as the first one has no fault. -/
  found : w.faults = #[] → w'.faults = #[] ∧ w'.table = w.table

namespace Walk.Beside

variable {w w' : Walk} {n : Nat}

theorem report (h : w.Beside r scopes flags w') (at_ at_' : Lexeme) (fault : ScopeFault) :
    (w.report at_ fault).Beside r scopes flags (w'.report at_' fault) :=
  ⟨h.stands, h.mirrored, h.body, h.cls, fun hfaults => by simp [Walk.report] at hfaults⟩

/-- The second walk may only report what the first one reports too. -/
theorem check {c c' : Prop} [Decidable c] [Decidable c'] (h : w.Beside r scopes flags w')
    (hc : w.faults = #[] → c' → c) (at_ at_' : Lexeme) (fault : ScopeFault) :
    Walk.Beside r scopes flags (if c then w.report at_ fault else w)
      (if c' then w'.report at_' fault else w') := by
  by_cases hleft : c
  · rw [if_pos hleft]
    split
    · exact h.report at_ at_' fault
    · exact ⟨h.stands, h.mirrored, h.body, h.cls, fun hfaults => by simp [Walk.report] at hfaults⟩
  · rw [if_neg hleft]
    split
    · next hright => exact ⟨h.stands, h.mirrored, h.body, h.cls,
        fun hfaults => absurd (hc hfaults hright) hleft⟩
    · exact h

/-- An occurrence that is spelled as its scope is gets its distance. -/
theorem bind (h : w.Beside r scopes flags w') {use : Occurrence} {name' : Lexeme}
    (hdistance : w.faults = #[] → w'.distance? name'.text = w.distance? use.name.text) :
    (w.bind use).Beside r scopes flags (w'.bind ⟨use.id, name'⟩) := by
  have hkept (v : Walk) (u : Occurrence) : (v.bind u).scopes = v.scopes ∧
      (v.bind u).body = v.body ∧ (v.bind u).cls = v.cls ∧ (v.bind u).faults = v.faults := by
    unfold Walk.bind
    split <;> exact ⟨rfl, rfl, rfl, rfl⟩
  obtain ⟨hscopes, hbody, hcls, hfaults⟩ := hkept w use
  obtain ⟨hscopes', hbody', hcls', hfaults'⟩ := hkept w' ⟨use.id, name'⟩
  refine ⟨hscopes.trans h.stands, ?_, ?_, ?_, fun hclean => ?_⟩
  · rw [hscopes']
    exact h.mirrored
  · rw [hbody, hbody', h.body]
  · rw [hcls, hcls', h.cls]
  · rw [hfaults] at hclean
    obtain ⟨hclean', htable⟩ := h.found hclean
    refine ⟨hfaults'.trans hclean', ?_⟩
    unfold Walk.bind
    rw [hdistance hclean]
    cases w.distance? use.name.text with
    | none => exact htable
    | some d => exact congrArg (·.insert use.id d) htable

/-- A name that is neither the old nor the new one is found as before. -/
theorem distance?_fixed (h : w.Beside r scopes flags w') {name : String} (hold : name ≠ r.old)
    (hnew : name ≠ r.new) : w'.distance? name = w.distance? name := by
  have hfound := h.mirrored.findIdx?_spell hnew rfl
  rw [Renaming.spell_of_ne _ hold] at hfound
  rw [Walk.distance?, hfound, Walk.distance?, h.stands]

/-- So is one that is renamed as the table tells. -/
theorem bind_occurrence (h : w.Beside r scopes flags w') {use : Occurrence}
    (hplaces : w.faults = #[] → r.table.Places n scopes use) (hnew : use.name.text ≠ r.new) :
    (w.bind use).Beside r scopes flags (w'.bind (r.occurrence flags use)) := by
  apply h.bind
  intro hclean
  have hfound := h.mirrored.findIdx?_spell hnew (hplaces hclean).2
  show w'.scopes.findIdx? (·.contains (r.spell (flagAt flags r.table[use.id]?) use.name.text)) = _
  rw [hfound, (hplaces hclean).2, Walk.distance?, h.stands]

theorem bind_fixed (h : w.Beside r scopes flags w') {use : Occurrence}
    (hold : use.name.text ≠ r.old) (hnew : use.name.text ≠ r.new) :
    (w.bind use).Beside r scopes flags (w'.bind use) :=
  h.bind fun _ => h.distance?_fixed hold hnew

theorem read (h : w.Beside r scopes flags w') {use : Occurrence}
    (hplaces : w.faults = #[] → r.table.Places n scopes use) (hnew : use.name.text ≠ r.new) :
    (w.read use).Beside r scopes flags (w'.read (r.occurrence flags use)) := by
  have hready : w.faults = #[] →
      w'.readsOwnInitializer (r.occurrence flags use).name.text = true →
      w.readsOwnInitializer use.name.text = true := by
    intro hclean hread
    rw [readsOwnInitializer, h.stands]
    exact h.mirrored.get?_head hnew (hplaces hclean).2 hread
  have hchecked := h.check hready use.name (r.occurrence flags use).name .readInOwnInitializer
  refine hchecked.bind_occurrence (fun hclean => hplaces ?_) hnew
  split at hclean
  · simp [Walk.report] at hclean
  · exact hclean

theorem mark (h : w.Beside r scopes flags w') {name : String} (hname : name ≠ r.new)
    (ready : Bool) :
    Walk.Beside r (Scope.mark scopes name ready) flags (w.mark name ready)
      (w'.mark (r.spell (flags.headD false) name) ready) := by
  have hkept (v : Walk) (name : String) : (v.mark name ready).body = v.body ∧
      (v.mark name ready).cls = v.cls ∧ (v.mark name ready).faults = v.faults ∧
      (v.mark name ready).table = v.table := by
    unfold Walk.mark
    split <;> exact ⟨rfl, rfl, rfl, rfl⟩
  obtain ⟨hbody, hcls, hfaults, htable⟩ := hkept w name
  obtain ⟨hbody', hcls', hfaults', htable'⟩ := hkept w' (r.spell (flags.headD false) name)
  refine ⟨?_, ?_, ?_, ?_, ?_⟩
  · rw [scopes_mark, h.stands]
  · rw [scopes_mark]
    exact h.mirrored.mark hname ready
  · rw [hbody, hbody', h.body]
  · rw [hcls, hcls', h.cls]
  · rw [hfaults, hfaults', htable, htable']
    exact h.found

/-- A declaration is renamed as its own scope is. -/
theorem declare (h : w.Beside r scopes flags w') {name : Lexeme} (hname : name.text ≠ r.new) :
    Walk.Beside r (Scope.mark scopes name.text false) flags (w.declare name)
      (w'.declare (r.declared (flags.headD false) name)) := by
  have hhere : w'.declaresHere (r.declared (flags.headD false) name).text =
      w.declaresHere name.text := by
    rw [declaresHere, declaresHere, h.stands]
    exact h.mirrored.contains_head hname
  exact (h.mark hname false).check (fun _ hdeclared => hhere ▸ hdeclared) name _ .alreadyDeclared

theorem define (h : w.Beside r scopes flags w') {name : Lexeme} (hname : name.text ≠ r.new) :
    Walk.Beside r (Scope.mark scopes name.text true) flags (w.define name)
      (w'.define (r.declared (flags.headD false) name)) :=
  h.mark hname true

theorem introduce (h : w.Beside r scopes flags w') {name : Lexeme} (hname : name.text ≠ r.new) :
    Walk.Beside r (Scope.mark scopes name.text true) flags (w.introduce name)
      (w'.introduce (r.declared (flags.headD false) name)) := by
  have hready := (h.declare hname).define hname
  rw [mark_mark] at hready
  exact hready

/-- The name of a function or a class stays. -/
theorem introduce_kept (h : w.Beside r scopes flags w') {name : Lexeme}
    (hkeeps : r.Keeps (flags.headD false) name) :
    Walk.Beside r (Scope.mark scopes name.text true) flags (w.introduce name)
      (w'.introduce name) := by
  have hdeclared := h.introduce hkeeps.new
  rwa [hkeeps.declared] at hdeclared

theorem parameters (parameters : List Lexeme) (hnew : ∀ p ∈ parameters, p.text ≠ r.new)
    {flag : Bool} {scope : Scope} (h : w.Beside r (scope :: scopes) (flag :: flags) w') :
    Walk.Beside r (parameters.foldl (fun scope p => scope.insert p.text true) scope :: scopes)
      (flag :: flags) (parameters.foldl Walk.introduce w)
      ((parameters.map (r.declared flag)).foldl Walk.introduce w') := by
  induction parameters generalizing w w' scope with
  | nil => exact h
  | cons p ps ih =>
    obtain ⟨hp, hps⟩ := List.forall_mem_cons.mp hnew
    exact ih hps (h.introduce hp)

/-- A walk inside one more scope. -/
theorem inScope (h : w.Beside r scopes flags w') {flag : Bool} {scope : Scope}
    (hscope : scope.Mirrors r flag scope) {inner inner' : Walk → Walk} {after : List Scope}
    (htail : after.tail = scopes)
    (hinner : ∀ v v' : Walk, v.Beside r (scope :: scopes) (flag :: flags) v' →
      (inner v).Beside r after (flag :: flags) (inner' v')) :
    (w.inScope scope inner).Beside r scopes flags (w'.inScope scope inner') := by
  have hentered : Walk.Beside r (scope :: scopes) (flag :: flags)
      { w with scopes := scope :: w.scopes } { w' with scopes := scope :: w'.scopes } :=
    ⟨congrArg (scope :: ·) h.stands, .cons hscope h.mirrored, h.body, h.cls, h.found⟩
  have hleft := hinner _ _ hentered
  refine ⟨?_, ?_, hleft.body, hleft.cls, hleft.found⟩
  · rw [Walk.inScope, hleft.stands, htail]
  · have hmirrored := hleft.mirrored
    revert hmirrored htail
    rw [Walk.inScope]
    generalize (inner' { w' with scopes := scope :: w'.scopes }).scopes = after'
    intro htail hmirrored
    cases hmirrored with
    | cons _ hscopes => exact htail ▸ hscopes

/-- Walks with another kind of body around them. -/
theorem inBody (h : w.Beside r scopes flags w') {body body' : BodyKind} (hbody : body' = body) :
    Walk.Beside r scopes flags { w with body := body } { w' with body := body' } :=
  ⟨h.stands, h.mirrored, hbody, h.cls, h.found⟩

/-- Walks with another kind of class around them. -/
theorem inClass (h : w.Beside r scopes flags w') {cls cls' : ClassKind} (hcls : cls' = cls) :
    Walk.Beside r scopes flags { w with cls := cls } { w' with cls := cls' } :=
  ⟨h.stands, h.mirrored, h.body, hcls, h.found⟩

theorem checkReturn (h : w.Beside r scopes flags w') (keyword : Lexeme) (hasValue : Bool) :
    (w.checkReturn keyword hasValue).Beside r scopes flags (w'.checkReturn keyword hasValue) := by
  unfold Walk.checkReturn
  dsimp only
  rw [h.body]
  exact (h.check (fun _ hc => hc) keyword keyword _).check (fun _ hc => hc) keyword keyword _

end Walk.Beside

/-! ## Trees -/

variable {w w' : Walk} {n : Nat}

mutual

theorem Expr.beside (hr : r.Ordinary) (e : Expr) (hproper : e.Proper)
    (he : e.Scoped r.table n scopes) (hnew : e.Avoids r.new) {w w' : Walk}
    (h : w.Beside r scopes flags w') :
    (e.resolve w).Beside r scopes flags ((e.rename r flags).resolve w') := by
  cases e with
  | literal value => exact h
  | grouping inner => exact Expr.beside hr inner hproper he hnew h
  | unary op sign operand => exact Expr.beside hr operand hproper.2 he.2 hnew h
  | binary op sign left right =>
    obtain ⟨hleft, hright⟩ := List.forall_mem_append.mp hnew
    have h₁ := Expr.beside hr left hproper.2.1 he.2.1 hleft h
    exact Expr.beside hr right hproper.2.2 he.2.2 hright h₁
  | logical op sign left right =>
    obtain ⟨hleft, hright⟩ := List.forall_mem_append.mp hnew
    have h₁ := Expr.beside hr left hproper.1 he.1 hleft h
    exact Expr.beside hr right hproper.2 he.2 hright h₁
  | name use => exact h.read (fun _ => he.1) (hnew _ List.mem_cons_self)
  | assign target value =>
    obtain ⟨htarget, hvalue⟩ := List.forall_mem_cons.mp hnew
    have h₁ := Expr.beside hr value hproper.2 he.2.2 hvalue h
    exact h₁.bind_occurrence (fun _ => he.1.1) htarget
  | call callee paren arguments =>
    obtain ⟨hcallee, harguments⟩ := List.forall_mem_append.mp hnew
    have h₁ := Expr.beside hr callee hproper.1 he.1 hcallee h
    exact Expr.listBeside hr arguments hproper.2 he.2 harguments h₁
  | get object property => exact Expr.beside hr object hproper he hnew h
  | set object property value =>
    obtain ⟨hobject, hvalue⟩ := List.forall_mem_append.mp hnew
    have h₁ := Expr.beside hr value hproper.2 he.2 hvalue h
    exact Expr.beside hr object hproper.1 he.1 hobject h₁
  | this keyword =>
    have hname : keyword.name.text = "this" := hproper
    show Walk.Beside r scopes flags
      (if w.cls = .outside then w.report keyword.name .thisOutsideClass else w.bind keyword)
      (if w'.cls = .outside then w'.report keyword.name .thisOutsideClass else w'.bind keyword)
    rw [h.cls]
    split
    · exact h.report _ _ _
    · apply h.bind_fixed
      · rw [hname]
        exact Ne.symm hr.old.1
      · rw [hname]
        exact Ne.symm hr.new.1
  | super keyword method =>
    have hname : keyword.name.text = "super" := hproper
    have hchecked : Walk.Beside r scopes flags
        (match w.cls with
          | .outside => w.report keyword.name .superOutsideClass
          | .base => w.report keyword.name .superWithoutSuperclass
          | .derived => w)
        (match w'.cls with
          | .outside => w'.report keyword.name .superOutsideClass
          | .base => w'.report keyword.name .superWithoutSuperclass
          | .derived => w') := by
      rw [h.cls]
      cases w.cls with
      | outside => exact h.report _ _ _
      | base => exact h.report _ _ _
      | derived => exact h
    apply hchecked.bind_fixed
    · rw [hname]
      exact Ne.symm hr.old.2
    · rw [hname]
      exact Ne.symm hr.new.2

theorem Expr.listBeside (hr : r.Ordinary) (es : List Expr) (hproper : Expr.ListProper es)
    (hes : Expr.ListScoped r.table n scopes es)
    (hnew : ∀ use ∈ Expr.listUses es, use.occurrence.name.text ≠ r.new) {w w' : Walk}
    (h : w.Beside r scopes flags w') :
    (Expr.listResolve es w).Beside r scopes flags
      (Expr.listResolve (Expr.listRename r flags es) w') := by
  cases es with
  | nil => exact h
  | cons e es =>
    obtain ⟨he, hrest⟩ := List.forall_mem_append.mp hnew
    have h₁ := Expr.beside hr e hproper.1 hes.1 he h
    exact Expr.listBeside hr es hproper.2 hes.2 hrest h₁

end

theorem Expr.optionBeside (hr : r.Ordinary) (e : Option Expr) (hproper : Expr.OptionProper e)
    (he : Expr.OptionScoped r.table n scopes e) (hnew : Expr.OptionAvoids r.new e)
    (h : w.Beside r scopes flags w') :
    (Expr.optionResolve e w).Beside r scopes flags
      (Expr.optionResolve (e.map (Expr.rename r flags)) w') := by
  cases e with
  | none => exact h
  | some e => exact Expr.beside hr e hproper he hnew h

/-- Other names are placed as before behind a declaration. -/
theorem Table.Places.mark {T : Table} {use : Occurrence} {name : String}
    (h : T.Places n scopes use) (hne : use.name.text ≠ name) (ready : Bool) :
    T.Places n (Scope.mark scopes name ready) use := by
  refine ⟨h.1, h.2.trans ?_⟩
  cases scopes with
  | nil => rfl
  | cons scope outer =>
    rw [Scope.mark, List.findIdx?_cons, List.findIdx?_cons, scope.contains_insert_of_ne hne]

/-- The superclass of a class that was just introduced. -/
theorem Walk.Beside.superclass {name : Lexeme} {parent : Occurrence}
    (h : w.Beside r (Scope.mark scopes name.text true) flags w')
    (hplaces : r.table.Places n scopes parent) (hname : name.text ≠ r.new)
    (hnew : parent.name.text ≠ r.new) :
    let checked := if parent.name.text = name.text then
      w.report parent.name .inheritsFromItself else w
    let checked' := if (r.occurrence flags parent).name.text = name.text then
      w'.report (r.occurrence flags parent).name .inheritsFromItself else w'
    Walk.Beside r (Scope.mark scopes name.text true) flags
      (Walk.read { checked with cls := .derived } parent)
      (Walk.read { checked' with cls := .derived } (r.occurrence flags parent)) := by
  intro checked checked'
  have hself :
      (r.occurrence flags parent).name.text = name.text → parent.name.text = name.text := by
    show r.spell _ parent.name.text = _ → _
    unfold Renaming.spell
    split
    · exact fun heq => absurd heq.symm hname
    · exact fun heq => heq
  have hchecked := h.check (fun _ => hself) parent.name (r.occurrence flags parent).name
    .inheritsFromItself
  have hmarked : checked.faults = #[] →
      r.table.Places n (Scope.mark scopes name.text true) parent := by
    dsimp only [checked]
    split
    · intro hclean
      simp [Walk.report] at hclean
    · next hne => exact fun _ => hplaces.mark hne true
  exact (hchecked.inClass rfl).read hmarked hnew

mutual

theorem Stmt.beside (hr : r.Ordinary) (s : Stmt) {scopes : List Scope} {flags : List Bool}
    {chosen : Path → Bool} (hproper : s.Proper) (hs : s.Scoped r.table n scopes)
    (hrenamable : s.Renamable r chosen (flags.headD false)) {w w' : Walk}
    (h : w.Beside r scopes flags w') :
    (s.resolve w).Beside r (s.after scopes) flags ((s.rename r chosen flags).resolve w') := by
  match s with
  | .expression value => exact Expr.beside hr value hproper hs hrenamable h
  | .print value => exact Expr.beside hr value hproper hs hrenamable h
  | .var name initializer =>
    have hdeclared := h.declare hrenamable.1
    have hvalue := Expr.optionBeside hr initializer hproper.2 hs.2 hrenamable.2 hdeclared
    have hready := hvalue.define hrenamable.1
    rw [mark_mark] at hready
    exact hready
  | .block body =>
    apply h.inScope (Scope.Mirrors.empty r (chosen []))
      (Stmt.tail_listAfter body (.empty :: scopes))
    intro v v' hv
    have hbody : Stmt.ListRenamable r chosen 0 ((chosen [] :: flags).headD false) body := hrenamable
    exact Stmt.listBeside hr body hproper hs hbody hv
  | .ifElse condition yes none =>
    have hcondition := Expr.beside hr condition hproper.1 hs.1 hrenamable.1 h
    have hyes := Stmt.beside hr yes hproper.2.1 hs.2.1 hrenamable.2 hcondition
    rw [hs.2.2.after] at hyes
    exact hyes
  | .ifElse condition yes (some no) =>
    obtain ⟨hscoped, hyes, hplain, hno, hplain'⟩ := hs
    have hcondition := Expr.beside hr condition hproper.1 hscoped hrenamable.1 h
    have hyes := Stmt.beside hr yes hproper.2.1 hyes hrenamable.2.1 hcondition
    rw [hplain.after] at hyes
    have hno := Stmt.beside hr no hproper.2.2.2.1 hno hrenamable.2.2 hyes
    rw [hplain'.after] at hno
    exact hno
  | .while condition body =>
    have hcondition := Expr.beside hr condition hproper.1 hs.1 hrenamable.1 h
    have hbody := Stmt.beside hr body hproper.2.1 hs.2.1 hrenamable.2 hcondition
    rw [hs.2.2.after] at hbody
    exact hbody
  | .break keyword => exact h
  | .function decl =>
    have hnamed := h.introduce_kept hrenamable.1
    have hbody := FunctionDecl.beside hr .function decl hproper.2 hs.2 hrenamable.2 hnamed
    show Walk.Beside r _ flags _ ((decl.rename r chosen flags).resolve .function
      (w'.introduce (decl.rename r chosen flags).name))
    rw [FunctionDecl.rename_name]
    exact hbody
  | .return keyword value =>
    have hchecked := h.checkReturn keyword value.isSome
    have hvalue := Expr.optionBeside hr value hproper hs hrenamable hchecked
    show Walk.Beside r scopes flags _ (Expr.optionResolve (value.map (Expr.rename r flags))
      (w'.checkReturn keyword (value.map (Expr.rename r flags)).isSome))
    rw [Option.isSome_map]
    exact hvalue
  | .class name none methods =>
    have hthis : Scope.Mirrors r false (.single "this" true) (.single "this" true) :=
      .single (Ne.symm hr.new.1) true
    have hentered : Walk.Beside r scopes flags { w with cls := .base } { w' with cls := .base } :=
      h.inClass rfl
    have hnamed := hentered.introduce_kept hrenamable.1
    have hmethods := hnamed.inScope hthis rfl
      fun _ _ hv => FunctionDecl.listBeside hr methods hproper.2 hs.2 hrenamable.2.2 hv
    exact hmethods.inClass h.cls
  | .class name (some parent) methods =>
    have hthis : Scope.Mirrors r false (.single "this" true) (.single "this" true) :=
      .single (Ne.symm hr.new.1) true
    have hsuper : Scope.Mirrors r false (.single "super" true) (.single "super" true) :=
      .single (Ne.symm hr.new.2) true
    have hentered : Walk.Beside r scopes flags { w with cls := .base } { w' with cls := .base } :=
      h.inClass rfl
    have hnamed := hentered.introduce_kept hrenamable.1
    have hparent := hnamed.superclass hs.2.1.1 hrenamable.1.new (hrenamable.2.1 parent rfl)
    -- The scopes of `super` and `this` hold no name that could be renamed.
    have hmethods := hparent.inScope hsuper rfl
      fun _ _ hv => hv.inScope hthis rfl
        fun _ _ hv => FunctionDecl.listBeside hr methods hproper.2 hs.2.2 hrenamable.2.2 hv
    exact hmethods.inClass h.cls

theorem Stmt.listBeside (hr : r.Ordinary) (ss : List Stmt) {scopes : List Scope}
    {flags : List Bool} {chosen : Path → Bool} {part : Nat} (hproper : Stmt.ListProper ss)
    (hss : Stmt.ListScoped r.table n scopes ss)
    (hrenamable : Stmt.ListRenamable r chosen part (flags.headD false) ss) {w w' : Walk}
    (h : w.Beside r scopes flags w') :
    (Stmt.listResolve ss w).Beside r (Stmt.listAfter scopes ss) flags
      (Stmt.listResolve (Stmt.listRename r chosen part flags ss) w') := by
  match ss with
  | [] => exact h
  | s :: ss =>
    have h₁ := Stmt.beside hr s hproper.1 hss.1 hrenamable.1 h
    exact Stmt.listBeside hr ss hproper.2 hss.2 hrenamable.2 h₁

theorem FunctionDecl.beside (hr : r.Ordinary) (kind : BodyKind) (d : FunctionDecl)
    {scopes : List Scope} {flags : List Bool} {chosen : Path → Bool} (hproper : d.Proper)
    (hd : d.Scoped r.table n scopes) (hrenamable : d.Renamable r chosen) {w w' : Walk}
    (h : w.Beside r scopes flags w') :
    (d.resolve kind w).Beside r scopes flags ((d.rename r chosen flags).resolve kind w') := by
  match d with
  | ⟨name, parameters, body⟩ =>
    have hentered : Walk.Beside r scopes flags { w with body := kind } { w' with body := kind } :=
      h.inBody rfl
    have hinside := hentered.inScope (Scope.Mirrors.empty r (chosen []))
      (Stmt.tail_listAfter body (Scope.ofParameters parameters :: scopes)) fun _ _ hv =>
        Stmt.listBeside hr body hproper.2 hd.2 hrenamable.2
          (Walk.Beside.parameters parameters hrenamable.1 hv)
    exact hinside.inBody h.body

theorem FunctionDecl.listBeside (hr : r.Ordinary) (ds : List FunctionDecl) {scopes : List Scope}
    {flags : List Bool} {chosen : Path → Bool} {part : Nat} (hproper : FunctionDecl.ListProper ds)
    (hds : FunctionDecl.ListScoped r.table n scopes ds)
    (hrenamable : FunctionDecl.ListRenamable r chosen part ds) {w w' : Walk}
    (h : w.Beside r scopes flags w') :
    (FunctionDecl.listResolve ds w).Beside r scopes flags
      (FunctionDecl.listResolve (FunctionDecl.listRename r chosen part flags ds) w') := by
  match ds with
  | [] => exact h
  | d :: ds =>
    have h₁ := FunctionDecl.beside hr d.methodKind d hproper.1 hds.1 hrenamable.1 h
    have hkind : (d.rename r (inside chosen part) flags).methodKind = d.methodKind := by
      rw [FunctionDecl.methodKind, FunctionDecl.rename_name, FunctionDecl.methodKind]
    show Walk.Beside r scopes flags _ (FunctionDecl.listResolve
      (FunctionDecl.listRename r chosen (part + 1) flags ds)
      ((d.rename r (inside chosen part) flags).resolve _ w'))
    rw [hkind]
    exact FunctionDecl.listBeside hr ds hproper.2 hds.2 hrenamable.2 h₁

end

/-! ## Programs -/

/-- What is accepted is accepted after renaming, and every occurrence has the same
    distance, or none as before. -/
theorem resolveProgram_rename (hr : r.Ordinary) {program : List Stmt} {chosen : Path → Bool}
    {A : Table} (hproper : Stmt.ListProper program)
    (hscoped : Stmt.ListScoped r.table n [] program)
    (hrenamable : Stmt.ListRenamable r chosen 0 false program)
    (h : resolveProgram program = .ok A) :
    resolveProgram (Stmt.listRename r chosen 0 [] program) = .ok A := by
  obtain ⟨hclean, htable⟩ := Resolves.result_eq_ok h
  have hstart : Walk.start.Beside r [] [] .start := ⟨rfl, .nil, rfl, rfl, fun h => ⟨h, rfl⟩⟩
  have hbeside := Stmt.listBeside hr program hproper hscoped hrenamable hstart
  obtain ⟨hclean', htable'⟩ := hbeside.found hclean
  unfold resolveProgram Walk.result
  rw [hclean', htable', htable]
  rfl

end Lox
