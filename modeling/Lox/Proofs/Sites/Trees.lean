/-
  Lox.Proofs.Sites.Trees

  The walk through a tree covers the sites of the tree.

    * `Walk.covers_declare`, `Walk.covers_read`, … — one lemma for each step of the walk;
    * `Expr.walks`, `Stmt.walks`, `FunctionDecl.walks` — the walks through trees;
    * `program_walks` — the walk through a program.

  Uses declare nothing, so their order does not matter: the walk comes to the value of
  an assignment before its target.
-/
import Lox.Proofs.Scoping.Resolution
import Lox.Proofs.Sites.Walking

namespace Lox

variable {before : List Site} {around : List Opening} {pending : Option String} {w : Walk}

/-! ## Sites that declare nothing -/

section

variable {sites : List Site} (hsites : ∀ site ∈ sites, site.declared? = none)
include hsites

theorem nearest?_append_quiet (name : String) :
    nearest? (before ++ sites) around name = nearest? before around name := by
  unfold nearest?
  have hdeclares (o : Opening) : o.Declares (before ++ sites) name ↔ o.Declares before name :=
    Opening.Declares.append_iff fun site hsite _ => hsites site hsite
  simp only [hdeclares]

theorem fault?_append_quiet (site : Site) :
    site.fault? (before ++ sites) = site.fault? before := by
  have hdeclares (o : Opening) (name : String) :
      o.Declares (before ++ sites) name ↔ o.Declares before name :=
    Opening.Declares.append_iff fun site hsite _ => hsites site hsite
  unfold Site.fault?
  simp only [hdeclares]

theorem entry?_append_quiet (site : Site) :
    site.entry? (before ++ sites) = site.entry? before := by
  unfold Site.entry?
  simp only [nearest?_append_quiet hsites]

end

theorem declared?_of_mem_ofUses {uses : List Use} :
    ∀ site ∈ Site.ofUses around pending uses, site.declared? = none := by
  intro site hsite
  obtain ⟨use, _, rfl⟩ := List.mem_map.mp hsite
  rfl

theorem ofUses_append (us vs : List Use) :
    Site.ofUses around pending (us ++ vs) =
      Site.ofUses around pending us ++ Site.ofUses around pending vs :=
  List.map_append

/-- The uses may be covered in any order. -/
theorem Walk.Covers.perm {v : Walk} {us vs : List Use}
    (h : w.Covers v before (Site.ofUses around pending us) around pending) (hperm : us.Perm vs) :
    w.Covers v before (Site.ofUses around pending vs) around pending := by
  have hsites : (Site.ofUses around pending us).Perm (Site.ofUses around pending vs) :=
    hperm.map _
  -- What is found at a use depends on the declarations before it only, and there is none
  -- among the uses, so each use can be looked at for itself.
  have hcollect {α : Type} (find : List Site → Site → Option α)
      (hquiet : ∀ passed site, (∀ s ∈ passed, s.declared? = none) →
        find (before ++ passed) site = find before site) :
      (collect find before (Site.ofUses around pending us)).Perm
        (collect find before (Site.ofUses around pending vs)) := by
    rw [collect_eq_filterMap find fun passed site hsub =>
        hquiet passed site fun s hs => declared?_of_mem_ofUses s (hsub hs),
      collect_eq_filterMap find fun passed site hsub =>
        hquiet passed site fun s hs => declared?_of_mem_ofUses s (hsub hs)]
    exact hsites.filterMap _
  obtain ⟨hfaults, entries, hentries, htable⟩ := h.notes
  refine ⟨?_, h.body, h.cls, ?_, entries, ?_, htable⟩
  · refine h.scopes.congr fun o _ name => ?_
    rw [Opening.Declares.append_iff fun s hs _ => declared?_of_mem_ofUses s hs,
      Opening.Declares.append_iff fun s hs _ => declared?_of_mem_ofUses s hs]
  · exact hfaults.trans (((hcollect _ fun _ _ hs => fault?_append_quiet hs _).map _).append_left _)
  · exact hentries.trans (hcollect _ fun _ _ hs => entry?_append_quiet hs _)

/-! ## Steps of the walk -/

namespace Walk

/-- The walk after what was found at a site, if anything, is reported. -/
def noting (w : Walk) (found : Option (ScopeFault × Lexeme)) : Walk :=
  found.elim w fun found => w.report found.2 found.1

theorem toList_faults_noting (w : Walk) (found : Option (ScopeFault × Lexeme)) :
    (w.noting found).faults.toList = w.faults.toList ++ found.toList.map scopeReport := by
  cases found with
  | none => exact (List.append_nil _).symm
  | some found => exact Array.toList_push

/-- A report changes nothing but the faults. -/
theorem noting_eq (w : Walk) (found : Option (ScopeFault × Lexeme)) :
    w.noting found = { w with faults := (w.noting found).faults } := by
  cases found <;> rfl

/-- A step that reports on a condition notes what a site says on the same condition. -/
theorem report_if_eq (w : Walk) (name : Lexeme) (fault : ScopeFault) {c c' : Prop} [Decidable c]
    [Decidable c'] (h : c ↔ c') :
    (if c then w.report name fault else w) =
      w.noting (if c' then some (fault, name) else none) := by
  by_cases hc : c
  · rw [if_pos hc, if_pos (h.mp hc)]
    rfl
  · rw [if_neg hc, if_neg fun hc' => hc (h.mpr hc')]
    rfl

/-- At a site that declares nothing and is not looked up, at most its fault is noted. -/
theorem covers_noting {site : Site} (hscopes : Shown before pending around w.scopes)
    (hdeclared : site.declared? = none) (hentry : site.entry? before = none) :
    w.Covers (w.noting (site.fault? before)) before [site] around pending := by
  have hquiet : Shown (before ++ [site]) pending around w.scopes :=
    hscopes.append_quiet fun other hother => by rwa [List.mem_singleton.mp hother]
  refine .single ?_ ?_ ?_ (toList_faults_noting w _) ?_
  · rw [noting_eq]
    exact hquiet
  · rw [noting_eq]
  · rw [noting_eq]
  · rw [noting_eq, hentry]
    rfl

/-- What looking a name up adds to the table. -/
theorem table_bind (hscopes : Shown before pending around w.scopes) (use : Occurrence) :
    (w.bind use).table = w.table.insertMany
      ((nearest? before around use.name.text).map (use.id, ·)).toList := by
  rw [← hscopes.findIdx?_eq use.name.text]
  unfold bind
  split
  · next hnone =>
    rw [show w.scopes.findIdx? (·.contains use.name.text) = none from hnone]
    rfl
  · next d hsome =>
    rw [show w.scopes.findIdx? (·.contains use.name.text) = some d from hsome]
    exact Std.TreeMap.insertMany_list_singleton.symm

/-- Looking a name up changes nothing but the table. -/
theorem bind_eq (w : Walk) (use : Occurrence) :
    w.bind use = { w with table := (w.bind use).table } := by
  unfold bind
  split <;> rfl

/-- A use that may be reported and is then looked up. -/
theorem covers_bind (kind : UseKind) (use : Occurrence)
    (hscopes : Shown before pending around w.scopes)
    (hlooked : ¬(kind = .this ∧ classAround around = .outside)) :
    w.Covers
      ((w.noting (Site.useFault? ⟨around, pending, .use ⟨kind, use⟩⟩ ⟨kind, use⟩)).bind use) before
      (Site.ofUses around pending [⟨kind, use⟩]) around pending := by
  have hquiet : Shown (before ++ Site.ofUses around pending [⟨kind, use⟩]) pending around
      w.scopes := hscopes.append_quiet declared?_of_mem_ofUses
  refine .single ?_ ?_ ?_ ?_ ?_
  · rw [bind_eq, noting_eq]
    exact hquiet
  · rw [bind_eq, noting_eq]
  · rw [bind_eq, noting_eq]
  · rw [bind_eq]
    exact toList_faults_noting w _
  · have hnoted : Shown before pending around
        (w.noting (Site.useFault? ⟨around, pending, .use ⟨kind, use⟩⟩ ⟨kind, use⟩)).scopes := by
      rw [noting_eq]
      exact hscopes
    rw [table_bind hnoted, noting_eq]
    simp only [Site.entry?, if_neg hlooked]

theorem covers_read (use : Occurrence) (hscopes : Shown before pending around w.scopes) :
    w.Covers (w.read use) before (Site.ofUses around pending [⟨.read, use⟩]) around pending := by
  have hwalk : w.read use =
      (w.noting (Site.useFault? ⟨around, pending, .use ⟨.read, use⟩⟩ ⟨.read, use⟩)).bind use :=
    congrArg (fun checked : Walk => checked.bind use)
      (report_if_eq w use.name .readInOwnInitializer (hscopes.any_head?_pending use.name.text))
  rw [hwalk]
  exact covers_bind .read use hscopes fun h => absurd h.1 (by decide)

theorem covers_assign (use : Occurrence) (hscopes : Shown before pending around w.scopes) :
    w.Covers (w.bind use) before (Site.ofUses around pending [⟨.assign, use⟩]) around pending :=
  covers_bind .assign use hscopes fun h => absurd h.1 (by decide)

theorem covers_this (use : Occurrence) (hscopes : Shown before pending around w.scopes)
    (hcls : w.cls = classAround around) :
    w.Covers (Expr.resolve (.this use) w) before (Site.ofUses around pending [⟨.this, use⟩])
      around pending := by
  unfold Expr.resolve
  rw [hcls]
  by_cases houtside : classAround around = .outside
  · have hnoted : w.report use.name .thisOutsideClass =
        w.noting (Site.fault? before ⟨around, pending, .use ⟨.this, use⟩⟩) := by
      simp [noting, Site.fault?, Site.useFault?, houtside]
    rw [if_pos houtside, hnoted]
    exact covers_noting hscopes rfl (by simp [Site.entry?, houtside])
  · have hbind := covers_bind .this use hscopes fun h => houtside h.2
    rw [show Site.useFault? ⟨around, pending, .use ⟨.this, use⟩⟩ ⟨.this, use⟩ = none from
      if_neg houtside] at hbind
    rw [if_neg houtside]
    exact hbind

theorem covers_super (use : Occurrence) (method : Lexeme)
    (hscopes : Shown before pending around w.scopes) (hcls : w.cls = classAround around) :
    w.Covers (Expr.resolve (.super use method) w) before
      (Site.ofUses around pending [⟨.super, use⟩]) around pending := by
  have hwalk : Expr.resolve (.super use method) w =
      (w.noting (Site.useFault? ⟨around, pending, .use ⟨.super, use⟩⟩ ⟨.super, use⟩)).bind use := by
    unfold Expr.resolve Site.useFault?
    rw [hcls]
    dsimp only
    cases classAround around <;> rfl
  rw [hwalk]
  exact covers_bind .super use hscopes fun h => absurd h.1 (by decide)

theorem scopes_declare (w : Walk) (name : Lexeme) :
    (w.declare name).scopes = Scope.mark w.scopes name.text false := by
  rw [← scopes_mark w name.text false]
  unfold declare
  dsimp only
  split <;> rfl

/-- Marking a name changes nothing but the scopes. -/
theorem mark_eq (w : Walk) (name : String) (ready : Bool) :
    w.mark name ready = { w with scopes := (w.mark name ready).scopes } := by
  unfold mark
  split <;> rfl

theorem covers_declare (name : Lexeme) (hscopes : Shown before none around w.scopes)
    (hdistinct : around.Nodup) :
    w.Covers (w.declare name) before [⟨around, none, .declaration name⟩] around
      (some name.text) := by
  have hshown := hscopes.declare hdistinct none name
  rw [← scopes_declare] at hshown
  have hwalk : w.declare name = (w.mark name.text false).noting
      (Site.fault? before ⟨around, none, .declaration name⟩) :=
    report_if_eq (w.mark name.text false) name .alreadyDeclared
      (hscopes.any_head?_contains name.text)
  refine .single hshown ?_ ?_ ?_ ?_ <;> rw [hwalk]
  · rw [noting_eq, mark_eq]
  · rw [noting_eq, mark_eq]
  · rw [toList_faults_noting, mark_eq]
  · rw [noting_eq, mark_eq]
    rfl

theorem covers_define {name : Lexeme} (hscopes : Shown before (some name.text) around w.scopes)
    (hdeclared : ∀ o ∈ around.head?, o.Declares before name.text) :
    w.Covers (w.define name) before [] around none := by
  have hshown := hscopes.define hdeclared
  rw [← scopes_mark] at hshown
  unfold define
  refine ⟨by rwa [List.append_nil], ?_, ?_, ?_, [], .nil, ?_⟩
  · rw [mark_eq]
  · rw [mark_eq]
  · rw [mark_eq]
    simp [collect]
  · rw [mark_eq]
    rfl

/-- A declared name is in the innermost scope. -/
theorem declares_of_declaration (initializing : Option String) (name : Lexeme) :
    ∀ o ∈ around.head?,
      o.Declares (before ++ [⟨around, initializing, .declaration name⟩]) name.text := by
  intro o ho
  exact .inr ⟨_, List.mem_append_right _ List.mem_cons_self, ho, rfl⟩

theorem covers_introduce (name : Lexeme) (hscopes : Shown before none around w.scopes)
    (hdistinct : around.Nodup) :
    w.Covers (w.introduce name) before [⟨around, none, .declaration name⟩] around none := by
  have hdeclare := covers_declare name hscopes hdistinct
  exact hdeclare.trans (covers_define hdeclare.scopes (declares_of_declaration none name))

theorem covers_parameters (parameters : List Lexeme) (hscopes : Shown before none around w.scopes)
    (hdistinct : around.Nodup) :
    w.Covers (parameters.foldl introduce w) before
      (parameters.map fun p => ⟨around, none, .declaration p⟩) around none := by
  induction parameters generalizing w before with
  | nil => exact .refl hscopes
  | cons p ps ih =>
    have hfirst := covers_introduce p hscopes hdistinct
    exact hfirst.trans (ih hfirst.scopes)

theorem covers_checkReturn (keyword : Lexeme) (hasValue : Bool)
    (hscopes : Shown before none around w.scopes) (hbody : w.body = bodyAround around) :
    w.Covers (w.checkReturn keyword hasValue) before [⟨around, none, .return keyword hasValue⟩]
      around none := by
  have hwalk : w.checkReturn keyword hasValue =
      w.noting (Site.fault? before ⟨around, none, .return keyword hasValue⟩) := by
    unfold checkReturn Site.fault?
    rw [hbody]
    dsimp only
    by_cases htop : bodyAround around = .topLevel
    · have hinit : ¬(hasValue = true ∧ bodyAround around = .initializer) := by simp [htop]
      rw [if_pos htop, if_neg hinit, if_pos htop]
      rfl
    · rw [if_neg htop, if_neg htop]
      split <;> rfl
  rw [hwalk]
  exact covers_noting hscopes rfl rfl

theorem covers_inheritance (name parent : Lexeme) (hscopes : Shown before none around w.scopes) :
    w.Covers (if parent.text = name.text then w.report parent .inheritsFromItself else w) before
      [⟨around, none, .inheritance name parent⟩] around none := by
  have hwalk : (if parent.text = name.text then w.report parent .inheritsFromItself else w) =
      w.noting (Site.fault? before ⟨around, none, .inheritance name parent⟩) :=
    report_if_eq w parent .inheritsFromItself Iff.rfl
  rw [hwalk]
  exact covers_noting hscopes rfl rfl

end Walk

/-! ## Expressions -/

/-- Uses one after another. -/
theorem Walk.Covers.uses {u v : Walk} {us vs : List Use}
    (h : w.Covers u before (Site.ofUses around pending us) around pending)
    (h' : u.Covers v (before ++ Site.ofUses around pending us) (Site.ofUses around pending vs)
      around pending) :
    w.Covers v before (Site.ofUses around pending (us ++ vs)) around pending := by
  rw [ofUses_append]
  exact h.trans h'

mutual

/-- The walk through an expression covers the uses in it. -/
theorem Expr.walks (e : Expr) {before : List Site} {w : Walk}
    (hscopes : Shown before pending around w.scopes) (hcls : w.cls = classAround around) :
    w.Covers (e.resolve w) before (Site.ofUses around pending e.uses) around pending := by
  match e with
  | .literal value => exact .refl hscopes
  | .grouping inner => exact Expr.walks inner hscopes hcls
  | .unary op sign operand => exact Expr.walks operand hscopes hcls
  | .binary op sign left right =>
    have hleft := Expr.walks left hscopes hcls
    exact hleft.uses (Expr.walks right hleft.scopes (hleft.cls.trans hcls))
  | .logical op sign left right =>
    have hleft := Expr.walks left hscopes hcls
    exact hleft.uses (Expr.walks right hleft.scopes (hleft.cls.trans hcls))
  | .name use => exact Walk.covers_read use hscopes
  | .assign target value =>
    -- The value is walked before the target, which is written first.
    have hvalue := Expr.walks value hscopes hcls
    have hboth := hvalue.uses (Walk.covers_assign target hvalue.scopes)
    exact hboth.perm List.perm_append_comm
  | .call callee paren arguments =>
    have hcallee := Expr.walks callee hscopes hcls
    exact hcallee.uses (Expr.listWalks arguments hcallee.scopes (hcallee.cls.trans hcls))
  | .get object property => exact Expr.walks object hscopes hcls
  | .set object property value =>
    have hvalue := Expr.walks value hscopes hcls
    have hboth := hvalue.uses (Expr.walks object hvalue.scopes (hvalue.cls.trans hcls))
    exact hboth.perm List.perm_append_comm
  | .this keyword => exact Walk.covers_this keyword hscopes hcls
  | .super keyword method => exact Walk.covers_super keyword method hscopes hcls

theorem Expr.listWalks (es : List Expr) {before : List Site} {w : Walk}
    (hscopes : Shown before pending around w.scopes) (hcls : w.cls = classAround around) :
    w.Covers (Expr.listResolve es w) before (Site.ofUses around pending (Expr.listUses es))
      around pending := by
  match es with
  | [] => exact .refl hscopes
  | e :: es =>
    have hfirst := Expr.walks e hscopes hcls
    exact hfirst.uses (Expr.listWalks es hfirst.scopes (hfirst.cls.trans hcls))

end

theorem Expr.optionWalks (e : Option Expr) (hscopes : Shown before pending around w.scopes)
    (hcls : w.cls = classAround around) :
    w.Covers (Expr.optionResolve e w) before (Site.ofUses around pending (Expr.optionUses e))
      around pending := by
  cases e with
  | none => exact .refl hscopes
  | some e => exact Expr.walks e hscopes hcls

/-! ## Statements -/

/-- A block or a body begins with an empty scope. -/
theorem Untouched.shows_empty {place : List Nat} (h : Untouched (Below place) around before)
    {kind : OpeningKind} (hkind : kind.implicit? = none) :
    Opening.Shows before none ⟨kind, place⟩ .empty :=
  Opening.shows_empty hkind (h.declares_iff List.suffix_rfl)

/-- A scope of a class begins with its own name. -/
theorem Untouched.shows_single {place : List Nat} (h : Untouched (Below place) around before)
    {kind : OpeningKind} {own : String} (hkind : kind.implicit? = some own) :
    Opening.Shows before none ⟨kind, place⟩ (.single own true) :=
  Opening.shows_single hkind (h.declares_iff List.suffix_rfl)

/-- The sites of uses open nothing. -/
theorem Untouched.uses {places : List Nat → Prop} (h : Untouched places around before)
    (initializing : Option String) (uses : List Use) :
    Untouched places around (before ++ Site.ofUses around initializing uses) := by
  refine h.append_here fun site hsite => ?_
  obtain ⟨use, _, rfl⟩ := List.mem_map.mp hsite
  rfl

/-- A single site opens nothing. -/
theorem Untouched.site {places : List Nat → Prop} (h : Untouched places around before)
    (initializing : Option String) (event : Event) :
    Untouched places around (before ++ [⟨around, initializing, event⟩]) :=
  h.append_here fun site hsite => by rw [List.mem_singleton.mp hsite]

mutual

/-- The walk through a statement covers its sites. -/
theorem Stmt.walks (s : Stmt) {before : List Site} {around : List Opening} {place : List Nat}
    {w : Walk} (hw : w.At before around) (hnew : Untouched (Below place) around before) :
    w.Covers (s.resolve w) before (s.sites around place) around none := by
  have hpart (i : Nat) (q : List Nat) (hq : Below (i :: place) q) : Below place q := hq.of_cons
  match s with
  | .expression value => exact Expr.walks value hw.scopes hw.cls
  | .print value => exact Expr.walks value hw.scopes hw.cls
  | .var name initializer =>
    -- In between, the name is the one that pends in the innermost scope.
    have hdeclare := Walk.covers_declare name hw.scopes hnew.distinct
    have hvalue := Expr.optionWalks initializer hdeclare.scopes (hdeclare.cls.trans hw.cls)
    have hdefine := Walk.covers_define hvalue.scopes fun o ho =>
      (Walk.declares_of_declaration none name o ho).append _
    have hrest := hvalue.trans hdefine
    rw [List.append_nil] at hrest
    exact hdeclare.trans hrest
  | .block body =>
    have hin : Walk.At { w with scopes := .empty :: w.scopes } before (⟨.block, place⟩ :: around) :=
      ⟨.cons (hnew.shows_empty rfl) hw.scopes, hw.body, hw.cls⟩
    exact (Stmt.listWalks body hin (hnew.parts .block 0)).inScope
  | .ifElse condition yes none =>
    have hcondition := Expr.walks condition hw.scopes hw.cls
    have hyes := Stmt.walks yes (hcondition.stands hw) ((hnew.uses none _).mono (hpart 0))
    exact hcondition.trans hyes
  | .ifElse condition yes (some no) =>
    have hcondition := Expr.walks condition hw.scopes hw.cls
    have hyes := Stmt.walks yes (hcondition.stands hw) ((hnew.uses none _).mono (hpart 0))
    -- The first branch opens its scopes below part 0, so part 1 is still untouched.
    have hno := Stmt.walks no (hyes.stands (hcondition.stands hw))
      ((hnew.uses none _).append (fun _ => Stmt.openedIn_of_mem_sites) fun q hq =>
        ⟨hpart 1 q hq, fun hzero => nomatch hzero.index_eq hq⟩)
    have hall := hcondition.trans (hyes.trans hno)
    rwa [← List.append_assoc] at hall
  | .while condition body =>
    have hcondition := Expr.walks condition hw.scopes hw.cls
    have hbody := Stmt.walks body (hcondition.stands hw) ((hnew.uses none _).mono (hpart 0))
    exact hcondition.trans hbody
  | .break keyword => exact .refl hw.scopes
  | .function decl =>
    have hname := Walk.covers_introduce decl.name hw.scopes hnew.distinct
    have hdecl := FunctionDecl.walks decl
      (show OpeningKind.body? .function = some .function from rfl) (hname.stands hw)
      (hnew.site none _)
    exact hname.trans hdecl
  | .return keyword value =>
    have hcheck := Walk.covers_checkReturn keyword value.isSome hw.scopes hw.body
    have hvalue := Expr.optionWalks value hcheck.scopes (hcheck.cls.trans hw.cls)
    exact hcheck.trans hvalue
  | .class name none methods =>
    unfold Stmt.resolve
    have hname := Walk.covers_introduce (w := { w with cls := .base }) name hw.scopes hnew.distinct
    have hnew' := hnew.site none (.declaration name)
    generalize ({ w with cls := .base } : Walk).introduce name = named at hname ⊢
    have hin : Walk.At { named with scopes := .single "this" true :: named.scopes }
        (before ++ [⟨around, none, .declaration name⟩]) (⟨.receiver false, place⟩ :: around) :=
      ⟨.cons (hnew'.shows_single rfl) hname.scopes, hname.body.trans hw.body, hname.cls⟩
    have hmethods := (FunctionDecl.listWalks methods hin (hnew'.parts (.receiver false) 0)).inScope
    exact (hname.trans hmethods).inClass
  | .class name (some parent) methods =>
    unfold Stmt.resolve
    have hname := Walk.covers_introduce (w := { w with cls := .base }) name hw.scopes hnew.distinct
    generalize ({ w with cls := .base } : Walk).introduce name = named at hname ⊢
    have hclause := Walk.covers_inheritance name parent.name hname.scopes
    dsimp only
    generalize (if parent.name.text = name.text then named.report parent.name .inheritsFromItself
      else named) = checked at hclause ⊢
    -- The superclass is read outside the class, but as inside a derived one.
    have hparent := Walk.covers_read (w := { checked with cls := .derived }) parent hclause.scopes
    generalize ({ checked with cls := .derived } : Walk).read parent = outside at hparent ⊢
    have hnamed := (hnew.site none (.declaration name)).site none (.inheritance name parent.name)
    have hnew' := hnamed.uses none [⟨.read, parent⟩]
    -- The scope of `super` is opened at the place of the class, that of `this` right below.
    have hbelow : Untouched (Below (0 :: place)) (⟨.parent, place⟩ :: around) _ :=
      hnew'.enter .parent List.suffix_rfl fun q hq => ⟨hpart 0 q hq, hq.ne⟩
    have hin : Walk.At
        { outside with scopes := .single "this" true :: .single "super" true :: outside.scopes } _
        (⟨.receiver true, 0 :: place⟩ :: ⟨.parent, place⟩ :: around) :=
      ⟨.cons (hbelow.shows_single rfl) (.cons (hnew'.shows_single rfl) hparent.scopes),
        hparent.body.trans (hclause.body.trans (hname.body.trans hw.body)), hparent.cls⟩
    have hthis := Walk.Covers.inScope
      (w := { outside with scopes := .single "super" true :: outside.scopes })
      (f := FunctionDecl.listResolve methods)
      (FunctionDecl.listWalks methods hin (hbelow.parts (.receiver true) 0))
    have hsuper := Walk.Covers.inScope (w := outside) (f := fun outer =>
      outer.inScope (.single "this" true) (FunctionDecl.listResolve methods)) hthis
    exact (hname.trans (hclause.trans (hparent.trans hsuper).inClass)).inClass

theorem Stmt.listWalks (ss : List Stmt) {before : List Site} {around : List Opening}
    {place : List Nat} {index : Nat} {w : Walk} (hw : w.At before around)
    (hnew : Untouched (From place index) around before) :
    w.Covers (Stmt.listResolve ss w) before (Stmt.listSites around place index ss) around none := by
  match ss with
  | [] => exact .refl hw.scopes
  | s :: ss =>
    -- Each statement is walked at its own part of the place; the greater parts stay ahead.
    have hfirst := Stmt.walks s hw (hnew.mono fun q hq => ⟨index, Nat.le_refl index, hq⟩)
    have hrest := Stmt.listWalks ss (hfirst.stands hw)
      (hnew.append (fun _ => Stmt.openedIn_of_mem_sites) fun q hq => ⟨hq.of_succ, hq.not_below⟩)
    exact hfirst.trans hrest

theorem FunctionDecl.walks (d : FunctionDecl) {kind : OpeningKind} {body : BodyKind}
    (hkind : kind.body? = some body) {before : List Site} {around : List Opening}
    {place : List Nat} {w : Walk} (hw : w.At before around)
    (hnew : Untouched (Below place) around before) :
    w.Covers (d.resolve body w) before (d.sites kind around place) around none := by
  match d with
  | ⟨name, parameters, statements⟩ =>
    -- A body has no name from its beginning, and leaves the kind of class as it is.
    have himplicit : kind.implicit? = none := by cases kind <;> first | rfl | cases hkind
    have hcls : kind.class? = none := by cases kind <;> first | rfl | cases hkind
    have hscopes := Shown.cons (hnew.shows_empty himplicit) hw.scopes
    have hnew' : Untouched (From place 0) (⟨kind, place⟩ :: around) before := hnew.parts kind 0
    have hparameters := Walk.covers_parameters
      (w := { w with body := body, scopes := .empty :: w.scopes }) parameters hscopes hnew'.distinct
    have hin : Walk.At _ _ (⟨kind, place⟩ :: around) := hparameters.stands
      ⟨hscopes, by simp [bodyAround, hkind], by simp [classAround, hcls, hw.cls]⟩
    have hstatements := Stmt.listWalks statements hin (hnew'.append_here fun site hsite => by
      obtain ⟨p, _, rfl⟩ := List.mem_map.mp hsite
      rfl)
    exact (hparameters.trans hstatements).inScope.inBody

theorem FunctionDecl.listWalks (ds : List FunctionDecl) {before : List Site}
    {around : List Opening} {place : List Nat} {index : Nat} {w : Walk} (hw : w.At before around)
    (hnew : Untouched (From place index) around before) :
    w.Covers (FunctionDecl.listResolve ds w) before
      (FunctionDecl.listSites around place index ds) around none := by
  match ds with
  | [] => exact .refl hw.scopes
  | d :: ds =>
    have hfirst := FunctionDecl.walks d
      (show (OpeningKind.method d.name.text).body? = some d.methodKind from rfl) hw
      (hnew.mono fun q hq => ⟨index, Nat.le_refl index, hq⟩)
    have hrest := FunctionDecl.listWalks ds (hfirst.stands hw)
      (hnew.append (fun _ => FunctionDecl.openedIn_of_mem_sites) fun q hq =>
        ⟨hq.of_succ, hq.not_below⟩)
    exact hfirst.trans hrest

end

/-- The walk through a program covers its sites. -/
theorem program_walks (program : List Stmt) :
    Walk.start.Covers (Stmt.listResolve program .start) [] (programSites program) [] none :=
  Stmt.listWalks program ⟨.nil none, rfl, rfl⟩
    ⟨List.nodup_nil, fun _ ho => absurd ho List.not_mem_nil,
      fun _ hsite => absurd hsite List.not_mem_nil⟩

end Lox
