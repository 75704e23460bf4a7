/-
  Lox.Proofs.Renaming.Executing

  A renamed statement does what the statement itself does (`Stmt.mirrors`), and so do
  calls, however deep they may go (`invoke_mirrors`).

  A frame that is made for a chosen scope is marked: it is told by the path of the
  block or of the function whether it is.
-/
import Lox.Proofs.Renaming.Evaluating

namespace Lox

open RunM

variable {r : Renaming} {n : Nat} {marks : List Bool} {m : Machine} {s' : Store}
  {scopes : List Scope} {flags : List Bool}

/-! ## Single actions -/

theorem mirrors_print {v v' : Value} (hm : m.Mirrors r n marks s')
    (hv : v.Mirrors r marks m.store v') :
    RunM.Mirrors r n marks (RunM.print v) (RunM.print v') m s' fun _ _ _ _ => True := by
  have htext := Value.text_congr hv.bare hm.store.classes
  have honward (out : Sink) : m.Onward r n marks marks { m with out } s' :=
    ⟨evolution_grown.printed m out, List.prefix_rfl, RunM.Mirrors.moved hm rfl rfl⟩
  have hprint : RunM.print v m = if (m.out.write (v.text m.store ++ "\n")).1 then
      .ok () { m with out := (m.out.write (v.text m.store ++ "\n")).2 }
    else .error .closed { m with out := (m.out.write (v.text m.store ++ "\n")).2 } := rfl
  have hprint' : RunM.print v' { m with store := s' } =
    if (m.out.write (v'.text s' ++ "\n")).1 then
      .ok () { m with out := (m.out.write (v'.text s' ++ "\n")).2, store := s' }
    else .error .closed { m with out := (m.out.write (v'.text s' ++ "\n")).2, store := s' } := rfl
  rw [htext] at hprint'
  by_cases hwritten : (m.out.write (v.text m.store ++ "\n")).1 = true
  · rw [if_pos hwritten] at hprint hprint'
    exact .of_ok hprint hprint' (honward _) trivial
  · rw [if_neg hwritten] at hprint hprint'
    exact .of_error hprint hprint' (honward _)

theorem mirrors_readClock (hm : m.Mirrors r n marks s') :
    RunM.Mirrors r n marks readClock readClock m s' (Value.Twins r n) := by
  cases hreading : m.clock m.ticks with
  | none =>
    have hrun : readClock m = .error .awaitingClock m := by
      rw [readClock, hreading]
    have hrun' : readClock { m with store := s' } =
        .error .awaitingClock { m with store := s' } := by
      rw [readClock, hreading]
    exact .of_error hrun hrun' (.refl hm)
  | some reading =>
    have hrun : readClock m = .ok (.number reading) { m with ticks := m.ticks + 1 } := by
      rw [readClock, hreading]
    have hrun' : readClock { m with store := s' } =
        .ok (.number reading) { m with ticks := m.ticks + 1, store := s' } := by
      rw [readClock, hreading]
    have honward : m.Onward r n marks marks { m with ticks := m.ticks + 1 } s' :=
      ⟨evolution_grown.ticked m, List.prefix_rfl, RunM.Mirrors.moved hm rfl rfl⟩
    exact .of_ok hrun hrun' honward (Value.Plain.twins trivial)

/-- A new frame inside marked ones. -/
theorem Machine.Mirrors.newFrame (hm : m.Mirrors r n marks s') (flag : Bool) (f : FrameId)
    {vars vars' : Bindings Value}
    (hvars : ∀ name, Option.Rel (Value.Mirrors r marks m.store) (vars.get? name)
      (vars'.get? (r.swap flag name)))
    (hfits : (m.store.newFrame ⟨vars, some f⟩).2.Fits r.table n) :
    m.Onward r n marks (marks ++ [flag]) { m with store := (m.store.newFrame ⟨vars, some f⟩).2 }
      (s'.newFrame ⟨vars', some f⟩).2 :=
  ⟨evolution_grown.framed m _, List.prefix_append marks [flag], ⟨hm.fits.table, hfits⟩,
    hm.store.newFrame flag (some f) hvars⟩

/-- The body of a block begins in a frame of its own. -/
theorem Machine.Abreast.block (h : m.Abreast r n marks scopes flags s') (flag : Bool) :
    m.Onward r n marks (marks ++ [flag]) { m with store := (m.store.child m.env).2 }
        (s'.child m.env).2 ∧
      Machine.Abreast r n (marks ++ [flag]) (.empty :: scopes) (flag :: flags)
        { m with store := (m.store.child m.env).2, env := m.store.frames.size }
        (s'.child m.env).2 := by
  have hempty (name : String) : Option.Rel (Value.Mirrors r marks m.store)
      ((Bindings.empty : Bindings Value).get? name)
      ((Bindings.empty : Bindings Value).get? (r.swap flag name)) := .none
  have honward := h.toMirrors.newFrame flag m.env hempty (h.fits.store.child m.env)
  refine ⟨honward, RunM.Mirrors.moved honward.mirrors rfl rfl, ?_, ?_⟩
  · exact h.chain.push fun _ hneeds => absurd hneeds Scope.not_needs_empty
  · exact h.signed.push h.store.marked _ flag

/-! ## Functions and classes -/

/-- A name that is kept is the same in its scope. -/
theorem Renaming.Keeps.swap {chosen : Bool} {name : Lexeme} (h : r.Keeps chosen name) :
    r.swap chosen name.text = name.text := by
  cases chosen with
  | false => rfl
  | true => exact Renaming.swap_of_ne true (h.old rfl) h.new

theorem mirrors_defineFunction {decl : FunctionDecl} {chosen : Path → Bool}
    (h : m.Abreast r n marks scopes flags s') (hname : decl.name.Ordinary)
    (hkeeps : r.Keeps (flags.headD false) decl.name)
    (hdecl : decl.Scoped r.table n (Scope.mark scopes decl.name.text true))
    (hrenamable : decl.Renamable r chosen) :
    RunM.Mirrors r n marks (defineFunction decl) (defineFunction (decl.rename r chosen flags)) m s'
      fun _ s _ _ => s.Chain m.env (Scope.mark scopes decl.name.text true) := by
  have hgrows : m.store.Grows m.store.newStamp.2 := Store.grows_of_frames rfl
  have hvalue : (Value.function ⟨decl, m.env, false⟩ m.store.nextStamp).Mirrors r marks
      m.store.newStamp.2
      (.function ⟨decl.rename r chosen flags, m.env, false⟩ s'.nextStamp) := by
    rw [h.store.stamp]
    exact ⟨_, rfl, chosen, flags, h.signed.grow hgrows List.prefix_rfl, hrenamable, rfl⟩
  have hstore := h.store.newStamp.define m.env decl.name.text hvalue
  rw [h.mark, hkeeps.swap] at hstore
  have hrun' : defineFunction (decl.rename r chosen flags) { m with store := s' } =
      .ok ()
        { m with
          store := s'.newStamp.2.define m.env decl.name.text
            (.function ⟨decl.rename r chosen flags, m.env, false⟩ s'.nextStamp) } := by
    rw [← decl.rename_name r chosen flags]
    rfl
  exact .of_sound (sound_defineFunction hname hdecl h.fits h.chain) rfl hrun' List.prefix_rfl hstore
    fun hchain => hchain

/-- Putting related values in for exchanged names keeps bindings related. -/
theorem rel_insert {α : Type} {R : α → α → Prop} {b b' : Bindings α} {flag : Bool}
    (hb : ∀ name, Option.Rel R (b.get? name) (b'.get? (r.swap flag name))) (key : String) {v v' : α}
    (hv : R v v') (name : String) :
    Option.Rel R ((b.insert key v).get? name)
      ((b'.insert (r.swap flag key) v').get? (r.swap flag name)) := by
  by_cases hkey : name = key
  · rw [hkey, Bindings.get?_insert_self, Bindings.get?_insert_self]
    exact .some hv
  · rw [b.get?_insert_of_ne hkey, b'.get?_insert_of_ne fun h => hkey (Renaming.swap_inj.mp h)]
    exact hb name

theorem methodTable_mirrors {frame : FrameId} {chosen : Path → Bool}
    (hsigned : m.store.Signed marks frame flags) (methods : List FunctionDecl) (part : Nat)
    (hmethods : FunctionDecl.ListRenamable r chosen part methods) (name : String) :
    Option.Rel (Closure.MirrorsMethod r marks m.store) ((methodTable frame methods).get? name)
      ((methodTable frame (FunctionDecl.listRename r chosen part (false :: flags) methods)).get?
        name) := by
  suffices hfold : ∀ table table' : Bindings Closure,
      (∀ name, Option.Rel (Closure.MirrorsMethod r marks m.store) (table.get? name)
        (table'.get? (r.swap false name))) →
      Option.Rel (Closure.MirrorsMethod r marks m.store)
        ((methods.foldl (fun table d => table.insert d.name.text ⟨d, frame, d.name.text = "init"⟩)
          table).get? name)
        (((FunctionDecl.listRename r chosen part (false :: flags) methods).foldl
          (fun table d => table.insert d.name.text ⟨d, frame, d.name.text = "init"⟩)
          table').get? (r.swap false name)) from
    hfold .empty .empty fun _ => .none
  induction methods generalizing part with
  | nil => exact fun table table' htable => htable name
  | cons d ds ih =>
    intro table table' htable
    have hd : Closure.MirrorsMethod r marks m.store ⟨d, frame, d.name.text = "init"⟩
        ⟨d.rename r (inside chosen part) (false :: flags), frame,
          (d.rename r (inside chosen part) (false :: flags)).name.text = "init"⟩ := by
      refine ⟨inside chosen part, flags, hsigned, hmethods.1, ?_⟩
      simp only [FunctionDecl.rename_name]
    have hinsert := rel_insert htable d.name.text hd
    rw [Renaming.swap_false, ← d.rename_name r (inside chosen part) (false :: flags)] at hinsert
    simp only [FunctionDecl.listRename, List.foldl_cons]
    rw [FunctionDecl.rename_name] at hinsert ⊢
    exact ih (part + 1) hmethods.2 _ _ hinsert

/-- A class with mirrored methods and a mirrored superclass. -/
theorem class_mirrors {stamp stamp' : Nat} (hstamp : stamp' = stamp) (name : String)
    {frame : FrameId} {chosen : Path → Bool} {methods : List FunctionDecl}
    {parent parent' : Option Class}
    (hsigned : m.store.Signed marks frame flags)
    (hmethods : FunctionDecl.ListRenamable r chosen 0 methods)
    (hparent : Option.Rel (Class.Mirrors r marks m.store) parent parent') :
    Class.Mirrors r marks m.store ⟨stamp, name, methodTable frame methods, parent⟩
      ⟨stamp', name,
        methodTable frame (FunctionDecl.listRename r chosen 0 (false :: flags) methods),
        parent'⟩ := by
  refine ⟨hstamp, rfl, fun called => ?_⟩
  have htable := methodTable_mirrors hsigned methods 0 hmethods called
  unfold Class.findMethod
  rcases rel_cases htable with ⟨hown, hown'⟩ | ⟨method, method', hown, hown', hmethod⟩
  · rw [hown, hown']
    rcases rel_cases hparent with ⟨rfl, rfl⟩ | ⟨cls, cls', rfl, rfl, hcls⟩
    · exact .none
    · exact hcls.methods called
  · rw [hown, hown']
    exact .some hmethod

theorem mirrors_bindClass {name : Lexeme} {methods : List FunctionDecl}
    {parent parent' : Option Class} {frame : FrameId} {inner : List Scope}
    {innerFlags : List Bool} {chosen : Path → Bool} (h : m.Abreast r n marks scopes flags s')
    (hname : name.Ordinary) (hkeeps : r.Keeps (flags.headD false) name)
    (hfits : ∀ cls, parent = some cls → cls.Fits r.table n m.store)
    (hparent : Option.Rel (Class.Mirrors r marks m.store) parent parent')
    (hscoped : FunctionDecl.ListScoped r.table n (.single "this" true :: inner) methods)
    (hmethods : FunctionDecl.ListRenamable r chosen 0 methods)
    (hframe : ∀ t, m.store.Grows t → t.Chain m.env (Scope.mark scopes name.text true) →
      t.Chain frame inner)
    (hsigned : m.store.Signed marks frame innerFlags) :
    RunM.Mirrors r n marks
      (do
        let stamp ← make Store.newStamp
        define name.text (.class ⟨stamp, name.text, methodTable frame methods, parent⟩))
      (do
        let stamp ← make Store.newStamp
        define name.text (.class ⟨stamp, name.text,
          methodTable frame (FunctionDecl.listRename r chosen 0 (false :: innerFlags) methods),
          parent'⟩)) m s'
      fun _ s _ _ => s.Chain m.env (Scope.mark scopes name.text true) := by
  have hgrows : m.store.Grows m.store.newStamp.2 := Store.grows_of_frames rfl
  have hcls := (class_mirrors h.store.stamp name.text hsigned hmethods hparent).grow hgrows
    List.prefix_rfl
  have hvalue : Value.Mirrors r marks m.store.newStamp.2 (.class _) (.class _) := ⟨_, rfl, hcls⟩
  have hstore := h.store.newStamp.define m.env name.text hvalue
  rw [h.mark, hkeeps.swap] at hstore
  have hsound := sound_bindClass hname hfits hscoped hframe h.fits h.chain
  exact .of_sound hsound rfl rfl List.prefix_rfl hstore fun hchain => hchain

/-- The classes that a superclass clause names in both trees. -/
theorem mirrors_superclassOf {use : Occurrence} (h : m.Abreast r n marks scopes flags s')
    (huse : r.table.Readable n scopes use) (hname : use.name.text ≠ r.new) :
    RunM.Mirrors r n marks (superclassOf (some use))
      (superclassOf (some (r.occurrence flags use))) m
      s' fun marks₁ s parent parent' => ∃ cls cls', parent = some cls ∧ parent' = some cls' ∧
        cls.Fits r.table n s ∧ cls.Mirrors r marks₁ s cls' := by
  apply (mirrors_read h huse.binds (Renaming.carries_occurrence flags hname)).bind
  intro v v' marks₁ m₁ s₁' ho hv
  obtain ⟨hfits, hmirrors⟩ := hv
  cases v with
  | «class» cls =>
    obtain ⟨cls', rfl, hcls⟩ := hmirrors
    exact .pure ho.mirrors ⟨cls, cls', rfl, rfl, hfits, hcls⟩
  | function closure stamp =>
    obtain ⟨closure', rfl, _⟩ := hmirrors
    exact .fail ho.mirrors rfl _
  | _ =>
    cases hmirrors
    exact .fail ho.mirrors rfl _

theorem mirrors_defineClass_base {name : Lexeme} {methods : List FunctionDecl}
    {chosen : Path → Bool} (h : m.Abreast r n marks scopes flags s') (hname : name.Ordinary)
    (hkeeps : r.Keeps (flags.headD false) name)
    (hscoped : FunctionDecl.ListScoped r.table n
      (.single "this" true :: Scope.mark scopes name.text true) methods)
    (hmethods : FunctionDecl.ListRenamable r chosen 0 methods) :
    RunM.Mirrors r n marks (defineClass name none methods)
      (defineClass name none
        (FunctionDecl.listRename r chosen 0 (classFlags false flags) methods)) m
      s' fun _ s _ _ => s.Chain m.env (Scope.mark scopes name.text true) := by
  refine .later rfl rfl (.refl h.toMirrors) ?_
  have hframe : methodFrame none m = .ok m.env m := rfl
  refine .later hframe rfl (.refl h.toMirrors) ?_
  exact mirrors_bindClass h hname hkeeps nofun .none hscoped hmethods (fun _ _ h => h) h.signed

theorem mirrors_defineClass_derived {name : Lexeme} {use : Occurrence} {methods : List FunctionDecl}
    {chosen : Path → Bool} (h : m.Abreast r n marks scopes flags s') (hname : name.Ordinary)
    (hkeeps : r.Keeps (flags.headD false) name) (huse : r.table.Readable n scopes use)
    (hnew : use.name.text ≠ r.new)
    (hscoped : FunctionDecl.ListScoped r.table n
      (.single "this" true :: .single "super" true :: Scope.mark scopes name.text true) methods)
    (hmethods : FunctionDecl.ListRenamable r chosen 0 methods) :
    RunM.Mirrors r n marks (defineClass name (some use) methods)
      (defineClass name (some (r.occurrence flags use))
        (FunctionDecl.listRename r chosen 0 (classFlags true flags) methods)) m s'
      fun _ s _ _ => s.Chain m.env (Scope.mark scopes name.text true) := by
  apply (mirrors_superclassOf h huse hnew).bind
  rintro _ _ marks₁ m₁ s₁' ho ⟨cls, cls', rfl, rfl, hfits, hcls⟩
  have h₁ := h.step ho
  -- The frame of `super` is made, and never marked.
  have hsuper : Value.Mirrors r marks₁ m₁.store (.class cls) (.class cls') := ⟨cls', rfl, hcls⟩
  have hsound := sound_methodFrame hfits h₁.fits h₁.chain
  obtain ⟨hgrown, hfits₂, hchain, hparent⟩ := hsound.ok rfl
  have ho₂ := h₁.toMirrors.newFrame false m₁.env (rel_single "super" hsuper) hfits₂.store
  have hsigned := h₁.signed.push h₁.store.marked (.single "super" (.class cls)) false
  have hsound' : methodFrame (some cls') { m₁ with store := s₁' } =
      .ok m₁.store.frames.size
        { m₁ with
          store := (s₁'.newFrame ⟨.single "super" (.class cls'), some m₁.env⟩).2 } := by
    rw [← h₁.store.size]
    rfl
  refine .later rfl hsound' ho₂ ?_
  have h₂ := h₁.step ho₂
  rw [← ho.grown.env]
  refine mirrors_bindClass h₂ hname hkeeps ?_ ?_ hscoped hmethods ?_ hsigned
  · rintro _ ⟨⟩
    exact hfits.grow ho₂.grown.store
  · exact .some (hcls.grow ho₂.grown.store ho₂.marks)
  · intro t hgrow houter
    exact ⟨(hchain.grow hgrow).1, m₁.env, hgrow.parent? hparent, houter⟩

/-! ## Statements -/

/-- Statements end in the same way, with mirrored results. -/
def Flow.Twins (r : Renaming) (n : Nat) (marks : List Bool) (s : Store) : Flow → Flow → Prop
  | .returned v, flow' => ∃ v', flow' = .returned v' ∧ v.Twins r n marks s v'
  | flow, flow' => flow' = flow

/-- What is known behind a statement in a frame `f`: where it ended normally, the
    frames are those of the scopes behind it. -/
def Stmt.Mirrored (r : Renaming) (n : Nat) (f : FrameId) (after : List Scope) (marks : List Bool)
    (s : Store) (flow flow' : Flow) : Prop :=
  flow.Twins r n marks s flow' ∧ (flow = .normal → s.Chain f after)

theorem mirrors_whileLoop {condition condition' : RunM Bool} {body body' : RunM Flow}
    (hcondition : ∀ (marks : List Bool) (m : Machine) (s' : Store),
      m.Abreast r n marks scopes flags s' →
        RunM.Mirrors r n marks condition condition' m s' fun _ _ a a' => a' = a)
    (hbody : ∀ (marks : List Bool) (m : Machine) (s' : Store),
      m.Abreast r n marks scopes flags s' →
        RunM.Mirrors r n marks body body' m s' (Flow.Twins r n))
    (bound : Nat) {marks : List Bool} {m : Machine} {s' : Store}
    (h : m.Abreast r n marks scopes flags s') :
    RunM.Mirrors r n marks (whileLoop condition body bound) (whileLoop condition' body' bound) m s'
      (Flow.Twins r n) := by
  induction bound generalizing marks m s' with
  | zero => exact .throw h.toMirrors _
  | succ bound ih =>
    apply (hcondition marks m s' h).bind
    rintro _ holds marks₁ m₁ s₁' ho rfl
    have h₁ := h.step ho
    cases holds with
    | false => exact .pure h₁.toMirrors rfl
    | true =>
      apply (hbody marks₁ m₁ s₁' h₁).bind
      intro flow flow' marks₂ m₂ s₂' ho₂ hflow
      cases flow with
      | normal =>
        cases hflow
        exact ih (h₁.step ho₂)
      | broken =>
        cases hflow
        exact .pure ho₂.mirrors rfl
      | returned v =>
        obtain ⟨v', rfl, hv⟩ := hflow
        exact .pure ho₂.mirrors ⟨v', rfl, hv⟩

variable {call : Invoke}

mutual

theorem Stmt.mirrors (hr : r.Ordinary) (hcall : call.Mirrors r n) (bound : Nat) (s : Stmt)
    {scopes : List Scope} {flags : List Bool} {chosen : Path → Bool}
    (hs : s.Scoped r.table n scopes) (hrenamable : s.Renamable r chosen (flags.headD false))
    {marks : List Bool} {m : Machine} {s' : Store} (h : m.Abreast r n marks scopes flags s') :
    RunM.Mirrors r n marks (s.exec call bound) ((s.rename r chosen flags).exec call bound) m s'
      (Stmt.Mirrored r n m.env (s.after scopes)) := by
  match s with
  | .expression value =>
    apply (Expr.mirrors hr hcall value hs hrenamable h).bind
    intro _ _ marks₁ m₁ s₁' ho _
    exact .pure ho.mirrors ⟨rfl, fun _ => h.chain.grow ho.grown.store⟩
  | .print value =>
    apply (Expr.mirrors hr hcall value hs hrenamable h).bind
    intro v v' marks₁ m₁ s₁' ho hv
    apply (mirrors_print ho.mirrors hv.mirrors).bind
    intro _ _ marks₂ m₂ s₂' ho₂ _
    exact .pure ho₂.mirrors ⟨rfl, fun _ => (h.chain.grow ho.grown.store).grow ho₂.grown.store⟩
  | .var name initializer =>
    -- While the initializer runs, the name need not be there yet.
    have hdeclared : m.Abreast r n marks (Scope.mark scopes name.text false) flags s' :=
      ⟨h.toMirrors, h.chain.declare hs.1.ordinary, h.signed⟩
    apply (Expr.optionMirrors hr hcall initializer hs.2 hrenamable.2 hdeclared).bind
    intro v v' marks₁ m₁ s₁' ho hv
    have h₁ := h.step ho
    have hfits := hv.fits.grow (m₁.store.grows_define m₁.env name.text v)
    have hspelled := r.spell_eq_swap (flags.headD false) hrenamable.1
    apply (mirrors_define h₁ hs.1.ordinary hspelled hfits hv.mirrors).bind
    intro _ _ marks₂ m₂ s₂' ho₂ hafter
    refine .pure ho₂.mirrors ⟨rfl, fun _ => ?_⟩
    rw [← ho.grown.env]
    exact hafter
  | .block body =>
    obtain ⟨honward, hinner⟩ := h.block (chosen [])
    have hbody : Stmt.ListRenamable r chosen 0 ((chosen [] :: flags).headD false) body := hrenamable
    have hrun := Stmt.listMirrors hr hcall bound body hs hbody hinner
    refine .later rfl rfl (.refl h.toMirrors) (.later rfl rfl honward ?_)
    rw [show (s'.child m.env).1 = m.store.frames.size from h.store.size]
    refine (RunM.Mirrors.withFrame hrun).mono
      fun marks₁ s flow flow' hgrow hflow => ⟨hflow.1, fun _ => ?_⟩
    exact (h.chain.grow honward.grown.store).grow hgrow
  | .ifElse condition yes none =>
    apply (Expr.mirrors hr hcall condition hs.1 hrenamable.1 h).bind
    intro v v' marks₁ m₁ s₁' ho hv
    rw [hv.mirrors.isTruthy]
    split
    · rw [← ho.grown.env]
      have hyes := Stmt.mirrors hr hcall bound yes hs.2.1 hrenamable.2 (h.step ho)
      rw [Stmt.Plain.after hs.2.2] at hyes
      exact hyes
    · exact .pure ho.mirrors ⟨rfl, fun _ => h.chain.grow ho.grown.store⟩
  | .ifElse condition yes (some no) =>
    obtain ⟨hcondition, hyes, hplain, hno, hplain'⟩ := hs
    apply (Expr.mirrors hr hcall condition hcondition hrenamable.1 h).bind
    intro v v' marks₁ m₁ s₁' ho hv
    rw [hv.mirrors.isTruthy, ← ho.grown.env]
    split
    · have hyes := Stmt.mirrors hr hcall bound yes hyes hrenamable.2.1 (h.step ho)
      rw [Stmt.Plain.after hplain] at hyes
      exact hyes
    · have hno := Stmt.mirrors hr hcall bound no hno hrenamable.2.2 (h.step ho)
      rw [Stmt.Plain.after hplain'] at hno
      exact hno
  | .while condition body =>
    have hcondition (marks : List Bool) (m : Machine) (s' : Store)
        (h : m.Abreast r n marks scopes flags s') :
        RunM.Mirrors r n marks (do return (← condition.eval call).isTruthy)
          (do return (← (condition.rename r flags).eval call).isTruthy) m s'
          fun _ _ a a' => a' = a := by
      apply (Expr.mirrors hr hcall condition hs.1 hrenamable.1 h).bind
      intro v v' marks₁ m₁ s₁' ho hv
      exact .pure ho.mirrors hv.mirrors.isTruthy
    have hbody (marks : List Bool) (m : Machine) (s' : Store)
        (h : m.Abreast r n marks scopes flags s') :
        RunM.Mirrors r n marks (body.exec call bound)
          ((body.rename r (inside chosen 0) flags).exec call bound) m s' (Flow.Twins r n) :=
      (Stmt.mirrors hr hcall bound body hs.2.1 hrenamable.2 h).mono fun _ _ _ _ _ hflow => hflow.1
    refine (mirrors_whileLoop hcondition hbody bound h).mono
      fun marks₁ s flow flow' hgrow hflow => ⟨hflow, fun _ => h.chain.grow hgrow⟩
  | .break keyword => exact .pure h.toMirrors ⟨rfl, nofun⟩
  | .function decl =>
    apply (mirrors_defineFunction h hs.1.ordinary hrenamable.1 hs.2 hrenamable.2).bind
    intro _ _ marks₁ m₁ s₁' ho hafter
    exact .pure ho.mirrors ⟨rfl, fun _ => hafter⟩
  | .return keyword value =>
    apply (Expr.optionMirrors hr hcall value hs hrenamable h).bind
    intro v v' marks₁ m₁ s₁' ho hv
    exact .pure ho.mirrors ⟨⟨v', rfl, hv⟩, nofun⟩
  | .class name none methods =>
    apply (mirrors_defineClass_base h hs.1.ordinary hrenamable.1 hs.2 hrenamable.2.2).bind
    intro _ _ marks₁ m₁ s₁' ho hafter
    exact .pure ho.mirrors ⟨rfl, fun _ => hafter⟩
  | .class name (some parent) methods =>
    apply (mirrors_defineClass_derived h hs.1.ordinary hrenamable.1 hs.2.1
      (hrenamable.2.1 parent rfl) hs.2.2 hrenamable.2.2).bind
    intro _ _ marks₁ m₁ s₁' ho hafter
    exact .pure ho.mirrors ⟨rfl, fun _ => hafter⟩

theorem Stmt.listMirrors (hr : r.Ordinary) (hcall : call.Mirrors r n) (bound : Nat)
    (ss : List Stmt) {scopes : List Scope} {flags : List Bool} {chosen : Path → Bool} {part : Nat}
    (hss : Stmt.ListScoped r.table n scopes ss)
    (hrenamable : Stmt.ListRenamable r chosen part (flags.headD false) ss)
    {marks : List Bool} {m : Machine} {s' : Store} (h : m.Abreast r n marks scopes flags s') :
    RunM.Mirrors r n marks (Stmt.listExec call bound ss)
      (Stmt.listExec call bound (Stmt.listRename r chosen part flags ss)) m s'
      (Stmt.Mirrored r n m.env (Stmt.listAfter scopes ss)) := by
  match ss with
  | [] => exact .pure h.toMirrors ⟨rfl, fun _ => h.chain⟩
  | s :: ss =>
    apply (Stmt.mirrors hr hcall bound s hss.1 hrenamable.1 h).bind
    intro flow flow' marks₁ m₁ s₁' ho hflow
    cases flow with
    | normal =>
      cases hflow.1
      have h₁ : m₁.Abreast r n marks₁ (s.after scopes) flags s₁' := by
        refine ⟨ho.mirrors, ?_, (h.step ho).signed⟩
        rw [ho.grown.env]
        exact hflow.2 rfl
      rw [← ho.grown.env]
      exact Stmt.listMirrors hr hcall bound ss hss.2 hrenamable.2 h₁
    | broken =>
      cases hflow.1
      exact .pure ho.mirrors ⟨rfl, nofun⟩
    | returned v =>
      obtain ⟨⟨v', rfl, hv⟩, _⟩ := hflow
      exact .pure ho.mirrors ⟨⟨v', rfl, hv⟩, nofun⟩

end

/-! ## Calls -/

theorem parameterVars_mirrors {s : Store} {parameters : List Lexeme} {vs vs' : List Value}
    (flag : Bool) (hnew : ∀ p ∈ parameters, p.text ≠ r.new)
    (hvs : List.Forall₂ (Value.Mirrors r marks s) vs vs') (name : String) :
    Option.Rel (Value.Mirrors r marks s) ((parameterVars parameters vs).get? name)
      ((parameterVars (parameters.map (r.declared flag)) vs').get? (r.swap flag name)) := by
  suffices hfold : ∀ vars vars' : Bindings Value,
      (∀ name, Option.Rel (Value.Mirrors r marks s) (vars.get? name)
        (vars'.get? (r.swap flag name))) →
      Option.Rel (Value.Mirrors r marks s)
        (((parameters.zip vs).foldl (fun vars p => vars.insert p.1.text p.2) vars).get? name)
        ((((parameters.map (r.declared flag)).zip vs').foldl
          (fun vars p => vars.insert p.1.text p.2) vars').get? (r.swap flag name)) from
    hfold .empty .empty fun _ => .none
  induction parameters generalizing vs vs' with
  | nil => exact fun vars vars' hvars => hvars name
  | cons p ps ih =>
    intro vars vars' hvars
    obtain ⟨hp, hps⟩ := List.forall_mem_cons.mp hnew
    cases hvs with
    | nil => exact hvars name
    | cons hv hvs =>
      have hinsert := rel_insert hvars p.text hv
      rw [← r.spell_eq_swap flag hp] at hinsert
      exact ih hps hvs _ _ hinsert

theorem Closure.Mirrors.arity {s : Store} {c c' : Closure} (h : c.Mirrors r marks s c') :
    c'.arity = c.arity := by
  obtain ⟨chosen, flags, _, _, rfl⟩ := h
  simp only [Closure.arity, FunctionDecl.rename_parameters, List.length_map]

theorem Class.Mirrors.arity {s : Store} {c c' : Class} (h : c.Mirrors r marks s c') :
    c'.arity = c.arity := by
  unfold Class.arity
  rcases rel_cases (h.methods "init") with ⟨hinit, hinit'⟩ | ⟨init, init', hinit, hinit', hmethod⟩
  · rw [hinit, hinit']
  · rw [hinit, hinit']
    obtain ⟨chosen, flags, _, _, rfl⟩ := hmethod
    simp only [Closure.arity, FunctionDecl.rename_parameters, List.length_map]

theorem mirrors_checkArity (paren : Lexeme) (expected got : Nat) (hm : m.Mirrors r n marks s') :
    RunM.Mirrors r n marks (checkArity paren expected got) (checkArity paren expected got) m s'
      fun _ _ _ _ => expected = got := by
  unfold checkArity
  split
  · next h => exact .pure hm h
  · exact .fail hm rfl _

/-- What bodies do is the same for renamed ones. -/
def RunsMirrored (r : Renaming) (n : Nat) (run : List Stmt → RunM Flow) : Prop :=
  ∀ {body : List Stmt} {chosen : Path → Bool} {marks : List Bool} {scopes : List Scope}
    {flags : List Bool} {m : Machine} {s' : Store}, m.Abreast r n marks scopes flags s' →
    Stmt.ListScoped r.table n scopes body →
    Stmt.ListRenamable r chosen 0 (flags.headD false) body →
    RunM.Mirrors r n marks (run body) (run (Stmt.listRename r chosen 0 flags body)) m s'
      (Flow.Twins r n)

/-- The body of a function begins in the frames of its scopes, marked as they are chosen. -/
theorem Closure.Mirrors.enter {closure : Closure} {chosen : Path → Bool} {vs vs' : List Value}
    (hm : m.Mirrors r n marks s') (hfits : closure.Fits r.table n m.store)
    (hsigned : m.store.Signed marks closure.frame flags)
    (hrenamable : closure.decl.Renamable r chosen) (harity : closure.arity = vs.length)
    (hvs : List.Forall₂ (Value.Twins r n marks m.store) vs vs') :
    let vars := parameterVars closure.decl.parameters vs
    let vars' := parameterVars (closure.decl.rename r chosen flags).parameters vs'
    m.Onward r n marks (marks ++ [chosen []])
        { m with store := (m.store.newFrame ⟨vars, some closure.frame⟩).2 }
        (s'.newFrame ⟨vars', some closure.frame⟩).2 ∧
      ∃ scopes, Machine.Abreast r n (marks ++ [chosen []]) scopes (chosen [] :: flags)
        (m.enter closure vs) (s'.newFrame ⟨vars', some closure.frame⟩).2 ∧
        Stmt.ListScoped r.table n scopes closure.decl.body := by
  intro vars vars'
  have hmirrors := hvs.imp fun _ _ h => h.mirrors
  have hvars (name : String) : Option.Rel (Value.Mirrors r marks m.store) (vars.get? name)
      (vars'.get? (r.swap (chosen []) name)) := by
    show Option.Rel _ _ ((parameterVars (closure.decl.rename r chosen flags).parameters vs').get? _)
    rw [FunctionDecl.rename_parameters]
    apply parameterVars_mirrors _ _ hmirrors
    obtain ⟨⟨_, parameters, _⟩, _, _⟩ := closure
    exact hrenamable.1
  have hargs : ∀ v ∈ vs, v.Fits r.table n m.store := by
    clear hmirrors hvars harity vars vars'
    induction hvs with
    | nil => exact fun _ hv => nomatch hv
    | cons h _ ih => exact List.forall_mem_cons.mpr ⟨h.fits, ih⟩
  obtain ⟨hentered, scopes, hchain, hbody⟩ := hfits.enter hm.fits harity hargs
  have honward := hm.newFrame (chosen []) closure.frame hvars hentered.store
  refine ⟨honward, scopes, ⟨RunM.Mirrors.moved honward.mirrors rfl rfl, hchain, ?_⟩, hbody⟩
  exact hsigned.push hm.store.marked vars (chosen [])

variable {run : List Stmt → RunM Flow}

theorem mirrors_callClosure (hr : r.Ordinary) (hrun : RunsMirrored r n run)
    {closure closure' : Closure}
    (paren : Lexeme) {vs vs' : List Value} (hm : m.Mirrors r n marks s')
    (hfits : closure.Fits r.table n m.store) (hclosure : closure.Mirrors r marks m.store closure')
    (harity : closure.arity = vs.length)
    (hvs : List.Forall₂ (Value.Twins r n marks m.store) vs vs') :
    RunM.Mirrors r n marks (callClosure run closure paren vs) (callClosure run closure' paren vs') m
      s' (Value.Twins r n) := by
  obtain ⟨chosen, flags, hsigned, hrenamable, rfl⟩ := hclosure
  obtain ⟨honward, scopes, hentered, hscoped⟩ :=
    Closure.Mirrors.enter hm hfits hsigned hrenamable harity hvs
  refine .later rfl rfl (.refl hm) ?_
  by_cases hdepth : maxDepth ≤ m.depth
  · rw [if_pos hdepth, if_pos hdepth]
    exact .fail hm rfl _
  rw [if_neg hdepth, if_neg hdepth]
  refine .later rfl rfl honward ?_
  have hbody :
      Stmt.ListRenamable r chosen 0 ((chosen [] :: flags).headD false) closure.decl.body := by
    obtain ⟨⟨_, _, body⟩, _, _⟩ := closure
    exact hrenamable.2
  have hinside := hrun hentered hscoped hbody
  rw [← FunctionDecl.rename_body] at hinside
  -- Both runs make the frame of the call at the same place.
  have hframe : (s'.newFrame ⟨parameterVars (closure.decl.rename r chosen flags).parameters vs',
      some closure.frame⟩).1 = m.store.frames.size := hm.store.size
  rw [hframe]
  apply (RunM.Mirrors.deeper (RunM.Mirrors.withFrame hinside)).bind
  intro flow flow' marks₁ m₁ s₁' ho hflow
  split
  · -- An initializer yields its instance, whatever its body did.
    have hthis := ho.mirrors.store.own_this hr closure.frame
    refine .inspect ho.mirrors ?_
    rcases rel_cases hthis with ⟨hown, hown'⟩ | ⟨v, v', hown, hown', hv⟩
    · rw [hown, hown']
      exact Value.Plain.twins trivial
    · rw [hown, hown']
      exact ⟨(ho.mirrors.fits.store.vars _ _ v hown).1, hv⟩
  · refine .pure ho.mirrors ?_
    cases flow with
    | returned v =>
      obtain ⟨v', rfl, hv⟩ := hflow
      exact hv
    | _ =>
      cases hflow
      exact Value.Plain.twins trivial

theorem mirrors_instantiate (hr : r.Ordinary) (hrun : RunsMirrored r n run) {cls cls' : Class}
    (paren : Lexeme) {vs vs' : List Value} (hm : m.Mirrors r n marks s')
    (hfits : cls.Fits r.table n m.store) (hcls : cls.Mirrors r marks m.store cls')
    (harity : cls.arity = vs.length)
    (hvs : List.Forall₂ (Value.Twins r n marks m.store) vs vs') :
    RunM.Mirrors r n marks (instantiate run cls paren vs) (instantiate run cls' paren vs') m s'
      (Value.Twins r n) := by
  have hgrows : m.store.Grows (m.store.newInstance cls).2 := Store.grows_of_frames rfl
  have honward : m.Onward r n marks marks { m with store := (m.store.newInstance cls).2 }
      (s'.newInstance cls').2 :=
    ⟨⟨rfl, rfl, hgrows⟩, List.prefix_rfl, ⟨hm.fits.table, hm.fits.store.newInstance hfits⟩,
      hm.store.newInstance hcls⟩
  refine .later rfl rfl honward ?_
  rw [show (s'.newInstance cls').1 = (m.store.newInstance cls).1 from hm.store.objects]
  rcases rel_cases (hcls.methods "init") with
    ⟨hinit, hinit'⟩ | ⟨init, init', hinit, hinit', hmethod⟩
  · rw [hinit, hinit']
    exact .pure honward.mirrors (Value.Plain.twins trivial)
  · rw [hinit, hinit']
    have hmethodFits := (hfits "init" init hinit).grow hgrows
    apply (mirrors_bindMethod _ honward.mirrors hmethodFits
      (hmethod.grow hgrows List.prefix_rfl)).bind
    rintro closure closure' marks₁ m₁ s₁' ho ⟨hclosure, hdecl, hmirrors⟩
    have hlength : closure.arity = vs.length := by
      rw [← harity, Class.arity, hinit, Closure.arity, hdecl]
      rfl
    have hvs₁ := hvs.imp fun _ _ h => ho.twins (honward.twins h)
    apply (mirrors_callClosure hr hrun paren ho.mirrors hclosure hmirrors hlength hvs₁).bind
    intro _ _ marks₂ m₂ s₂' ho₂ _
    exact .pure ho₂.mirrors (Value.Plain.twins trivial)

theorem mirrors_callValue (hr : r.Ordinary) (hrun : RunsMirrored r n run) :
    Invoke.Mirrors r n (callValue run) := by
  intro f f' paren vs vs' marks m s' hm hf hvs
  have hlength : vs'.length = vs.length := hvs.length_eq.symm
  obtain ⟨hfits, hmirrors⟩ := hf
  cases f with
  | native name =>
    cases hmirrors
    simp only [callValue, hlength]
    apply (mirrors_checkArity paren 0 vs.length hm).bind
    intro _ _ marks₁ m₁ s₁' ho _
    exact mirrors_readClock ho.mirrors
  | function closure stamp =>
    obtain ⟨closure', rfl, hclosure⟩ := hmirrors
    simp only [callValue, hlength, hclosure.arity]
    apply (mirrors_checkArity paren closure.arity vs.length hm).bind
    intro _ _ marks₁ m₁ s₁' ho harity
    exact mirrors_callClosure hr hrun paren ho.mirrors (Closure.Fits.grow hfits ho.grown.store)
      (hclosure.grow ho.grown.store ho.marks) harity (hvs.imp fun _ _ h => ho.twins h)
  | «class» cls =>
    obtain ⟨cls', rfl, hcls⟩ := hmirrors
    simp only [callValue, hlength, hcls.arity]
    apply (mirrors_checkArity paren cls.arity vs.length hm).bind
    intro _ _ marks₁ m₁ s₁' ho harity
    exact mirrors_instantiate hr hrun paren ho.mirrors (Class.Fits.grow hfits ho.grown.store)
      (hcls.grow ho.grown.store ho.marks) harity (hvs.imp fun _ _ h => ho.twins h)
  | _ =>
    cases hmirrors
    exact .fail hm rfl _

/-- Calls of mirrored values end in the same way, however deep they may go. -/
theorem invoke_mirrors (hr : r.Ordinary) (k : Nat) : Invoke.Mirrors r n (invoke k) := by
  induction k with
  | zero => exact fun _ _ _ _ _ _ hm _ _ => .throw hm _
  | succ k ih =>
    apply mirrors_callValue hr
    intro body chosen marks scopes flags m s' h hscoped hrenamable
    exact (Stmt.listMirrors hr ih k body hscoped hrenamable h).mono fun _ _ _ _ _ hflow => hflow.1

end Lox
