/-
  Lox.Proofs.Loops.Executing

  A statement that two tables place alike does the same in both runs (`Stmt.matches`), and
  so do calls, however deep they may go (`invoke_matches`).
-/
import Lox.Proofs.Loops.Evaluating

namespace Lox

open RunM

variable {T T' : Table} {ν : Nat → Nat} {pairs : FramePairs} {m : Machine} {s' : Store}
  {f' : FrameId} {links : List Link}

/-! ## Single actions -/

theorem matches_print {v v' : Value} (hm : m.Matches T T' pairs s')
    (hv : v.Matches T T' pairs m.store s' v') :
    RunM.Accords T T' pairs (RunM.print v) (RunM.print v') m s' f' fun _ _ _ _ _ => True := by
  have htext := Value.text_congr hv.bare hm.store.classes
  have hwritten (out : Sink) : m.Further T T' pairs s' pairs { m with out } s' :=
    ⟨⟨rfl, rfl, .refl _⟩, .refl _, List.Subset.refl _, hm.table, hm.store⟩
  have hprint : RunM.print v m = if (m.out.write (v.text m.store ++ "\n")).1 then
      .ok () { m with out := (m.out.write (v.text m.store ++ "\n")).2 }
    else .error .closed { m with out := (m.out.write (v.text m.store ++ "\n")).2 } := rfl
  have hprint' : RunM.print v' (m.across T' s' f') =
    if (m.out.write (v'.text s' ++ "\n")).1 then
      .ok () (Machine.across { m with out := (m.out.write (v'.text s' ++ "\n")).2 } T' s' f')
    else .error .closed
      (Machine.across { m with out := (m.out.write (v'.text s' ++ "\n")).2 } T' s' f') := rfl
  rw [htext] at hprint'
  by_cases htaken : (m.out.write (v.text m.store ++ "\n")).1 = true
  · rw [if_pos htaken] at hprint hprint'
    exact .ok hprint hprint' (hwritten _) trivial
  · rw [if_neg htaken] at hprint hprint'
    exact .error hprint hprint' (hwritten _)

theorem matches_readClock (hm : m.Matches T T' pairs s') :
    RunM.Accords T T' pairs readClock readClock m s' f' (Value.Matches T T') := by
  cases hreading : m.clock m.ticks with
  | none =>
    have hrun (n : Machine) (h : n.clock n.ticks = none) :
        readClock n = .error .awaitingClock n := by
      unfold readClock
      rw [h]
    exact .error (hrun m hreading) (hrun (m.across T' s' f') hreading) (.refl hm)
  | some reading =>
    have hrun (n : Machine) (h : n.clock n.ticks = some reading) :
        readClock n = .ok (.number reading) { n with ticks := n.ticks + 1 } := by
      unfold readClock
      rw [h]
    have hticked : m.Further T T' pairs s' pairs { m with ticks := m.ticks + 1 } s' :=
      ⟨⟨rfl, rfl, .refl _⟩, .refl _, List.Subset.refl _, hm.table, hm.store⟩
    exact .ok (hrun m hreading) (hrun (m.across T' s' f') hreading) hticked
      (Value.Plain.matches trivial)

/-! ## Functions and classes -/

theorem matches_defineFunction (h : m.Stands T T' pairs links s' f')
    (hshared : Link.Shared links) {decl : FunctionDecl} (hdecl : decl.Placed T T' ν links) :
    RunM.Accords T T' pairs (defineFunction decl) (defineFunction (decl.relabel (.numbers ν))) m s'
      f' fun _ _ _ _ _ => True := by
  have hclosure : Closure.Matches T T' pairs m.store s' ⟨decl, m.env, false⟩
      ⟨decl.relabel (.numbers ν), f', false⟩ :=
    ⟨ν, links, f', h.beside, h.pair hshared, hdecl, rfl⟩
  have hname : (decl.relabel (.numbers ν)).name.text = decl.name.text := by
    rw [FunctionDecl.relabel_name, Lexeme.relabel_numbers]
  unfold defineFunction
  rw [hname]
  refine .bindGet ((matches_functionValue h.toMatches hclosure).bind ?_)
  intro v v' pairs₁ m₁ s₁' ho hv
  exact matches_define (h.step ho) hshared decl.name.text hv

/-- Matching values under the same key keep bindings matching. -/
theorem rel_insert_same {α : Type} {R : α → α → Prop} {b b' : Bindings α}
    (hb : ∀ name, Option.Rel R (b.get? name) (b'.get? name)) (key : String) {v v' : α}
    (hv : R v v') (name : String) :
    Option.Rel R ((b.insert key v).get? name) ((b'.insert key v').get? name) := by
  by_cases hkey : name = key
  · rw [hkey, Bindings.get?_insert_self, Bindings.get?_insert_self]
    exact .some hv
  · rw [b.get?_insert_of_ne hkey, b'.get?_insert_of_ne hkey]
    exact hb name

theorem methodTable_matches {s : Store} {f g : FrameId}
    (hbeside : Store.Beside pairs s s' links f g) (methods : List FunctionDecl)
    (hmethods : FunctionDecl.ListPlaced T T' ν (.both :: links) methods) (name : String) :
    Option.Rel (Closure.MatchesMethod T T' pairs s s') ((methodTable f methods).get? name)
      ((methodTable g (FunctionDecl.listRelabel (.numbers ν) methods)).get? name) := by
  suffices hfold : ∀ table table' : Bindings Closure,
      (∀ name, Option.Rel (Closure.MatchesMethod T T' pairs s s') (table.get? name)
        (table'.get? name)) →
      Option.Rel (Closure.MatchesMethod T T' pairs s s')
        ((methods.foldl (fun table d => table.insert d.name.text ⟨d, f, d.name.text = "init"⟩)
          table).get? name)
        (((FunctionDecl.listRelabel (.numbers ν) methods).foldl
          (fun table d => table.insert d.name.text ⟨d, g, d.name.text = "init"⟩)
          table').get? name) from
    hfold .empty .empty fun _ => .none
  induction methods with
  | nil => exact fun table table' htable => htable name
  | cons d ds ih =>
    intro table table' htable
    have hname : (d.relabel (.numbers ν)).name.text = d.name.text := by
      rw [FunctionDecl.relabel_name, Lexeme.relabel_numbers]
    have hd : Closure.MatchesMethod T T' pairs s s' ⟨d, f, d.name.text = "init"⟩
        ⟨d.relabel (.numbers ν), g, d.name.text = "init"⟩ :=
      ⟨ν, links, g, hbeside, hmethods.1, rfl⟩
    rw [FunctionDecl.listRelabel, List.foldl_cons, List.foldl_cons, hname]
    exact ih hmethods.2 _ _ (rel_insert_same htable d.name.text hd)

/-- A class with matching methods and a matching superclass. -/
theorem class_matches {s : Store} {f g : FrameId} {stamp stamp' : Nat} (hstamp : stamp' = stamp)
    (name : String) {methods : List FunctionDecl} {parent parent' : Option Class}
    (hbeside : Store.Beside pairs s s' links f g)
    (hmethods : FunctionDecl.ListPlaced T T' ν (.both :: links) methods)
    (hparent : Option.Rel (Class.Matches T T' pairs s s') parent parent') :
    Class.Matches T T' pairs s s' ⟨stamp, name, methodTable f methods, parent⟩
      ⟨stamp', name, methodTable g (FunctionDecl.listRelabel (.numbers ν) methods), parent'⟩ := by
  refine ⟨hstamp, rfl, fun called => ?_⟩
  unfold Class.findMethod
  rcases rel_cases (methodTable_matches hbeside methods hmethods called) with
    ⟨hown, hown'⟩ | ⟨method, method', hown, hown', hmethod⟩
  · rw [hown, hown']
    rcases rel_cases hparent with ⟨rfl, rfl⟩ | ⟨cls, cls', rfl, rfl, hcls⟩
    · exact .none
    · exact hcls.methods called
  · rw [hown, hown']
    exact .some hmethod

theorem matches_superclassOf (h : m.Stands T T' pairs links s' f') (superclass : Option Occurrence)
    (hplaced : ∀ use, superclass = some use → use.Placed T T' ν links) :
    RunM.Accords T T' pairs (superclassOf superclass)
      (superclassOf (superclass.map (Occurrence.relabel (.numbers ν)))) m s' f'
      fun pairs₁ s s' parent parent' => Option.Rel (Class.Matches T T' pairs₁ s s') parent parent' ∧
        parent.isSome = superclass.isSome := by
  cases superclass with
  | none => exact .pure h.toMatches ⟨.none, rfl⟩
  | some use =>
    apply (matches_read h (hplaced use rfl)).bind
    intro v v' pairs₁ m₁ s₁' ho hv
    cases v with
    | «class» cls =>
      obtain ⟨cls', rfl, hcls⟩ := hv
      exact .pure ho.matching ⟨.some hcls, rfl⟩
    | function closure stamp =>
      obtain ⟨closure', rfl, _⟩ := hv
      exact .fail ho.matching _ _
    | _ =>
      cases hv
      exact .fail ho.matching _ _

/-- The frames that methods close over: for a subclass there is one more scope. -/
theorem matches_methodFrame (h : m.Stands T T' pairs links s' f') {parent parent' : Option Class}
    (hparent : Option.Rel (Class.Matches T T' pairs m.store s') parent parent') :
    RunM.Accords T T' pairs (methodFrame parent) (methodFrame parent') m s' f'
      fun pairs₁ s s' f g => Store.Beside pairs₁ s s'
        (if parent.isSome then .both :: links else links) f g := by
  rcases rel_cases hparent with ⟨rfl, rfl⟩ | ⟨cls, cls', rfl, rfl, hcls⟩
  · exact .ok rfl rfl (.refl h.toMatches) h.beside
  · have hpairs := List.subset_cons_self (m.store.frames.size, s'.frames.size) pairs
    have hgrows := m.store.grows_newFrame ⟨.single "super" (.class cls), some m.env⟩
    have hgrows' := s'.grows_newFrame ⟨.single "super" (.class cls'), some f'⟩
    have hsuper : Value.Matches T T' pairs m.store s' (.class cls) (.class cls') :=
      ⟨cls', rfl, hcls⟩
    have hstore := h.store.newFrame (some m.env) (some f') (rel_single_same "super" hsuper)
    refine .ok rfl rfl (.stored h.toMatches hgrows hgrows' hpairs hstore)
      ⟨List.mem_cons_self, m.env, f', ?_, ?_, h.beside.grow hpairs hgrows hgrows'⟩
    · exact m.store.parent?_newFrame_self _
    · exact s'.parent?_newFrame_self _

theorem matches_defineClass (h : m.Stands T T' pairs links s' f') (hshared : Link.Shared links)
    (name : Lexeme) (superclass : Option Occurrence) {methods : List FunctionDecl}
    (hplaced : ∀ use, superclass = some use → use.Placed T T' ν links)
    (hmethods : FunctionDecl.ListPlaced T T' ν
      (.both :: if superclass.isSome then .both :: links else links) methods) :
    RunM.Accords T T' pairs (defineClass name superclass methods)
      (defineClass name (superclass.map (Occurrence.relabel (.numbers ν)))
        (FunctionDecl.listRelabel (.numbers ν) methods)) m s' f' fun _ _ _ _ _ => True := by
  apply (matches_superclassOf h superclass hplaced).bind
  rintro parent parent' pairs₁ m₁ s₁' ho ⟨hparent, hsame⟩
  apply (matches_methodFrame (h.step ho) hparent).bind
  intro f g pairs₂ m₂ s₂' ho₂ hbeside
  rw [hsame] at hbeside
  have hgrows : m₂.store.Grows m₂.store.newStamp.2 := Store.grows_of_frames rfl
  have hgrows' : s₂'.Grows s₂'.newStamp.2 := Store.grows_of_frames rfl
  have hstamped : m₂.Further T T' pairs₂ s₂' pairs₂ { m₂ with store := m₂.store.newStamp.2 }
      s₂'.newStamp.2 :=
    .stored ho₂.matching hgrows hgrows' (List.Subset.refl _) ho₂.matching.store.newStamp
  have hcls := class_matches ho₂.matching.store.stamp name.text hbeside hmethods
    (rel_mono hparent fun _ _ h => h.grow ho₂.pairs ho₂.grown.store ho₂.grown')
  have hvalue : Value.Matches T T' pairs₂ m₂.store.newStamp.2 s₂'.newStamp.2 (.class _)
      (.class _) :=
    ⟨_, rfl, hcls.grow (List.Subset.refl _) hgrows hgrows'⟩
  exact .later hstamped (matches_define (((h.step ho).step ho₂).step hstamped) hshared name.text
    hvalue) rfl rfl

/-! ## Statements -/

def Flow.Matches (T T' : Table) (pairs : FramePairs) (s s' : Store) : Flow → Flow → Prop
  | .returned v, flow' => ∃ v', flow' = .returned v' ∧ v.Matches T T' pairs s s' v'
  | flow, flow' => flow' = flow

/-- Something that is done only where the statement before it ended normally. -/
theorem matches_behind {p p' : RunM Flow} {q q' : Flow → RunM Flow}
    (hp : RunM.Accords T T' pairs p p' m s' f' (Flow.Matches T T'))
    (hbroken : q .broken = pure .broken ∧ q' .broken = pure .broken)
    (hreturned : ∀ v, q (.returned v) = pure (.returned v) ∧
      q' (.returned v) = pure (.returned v))
    (hnormal : ∀ {pairs₁ m₁ s₁'}, m.Further T T' pairs s' pairs₁ m₁ s₁' →
      RunM.Accords T T' pairs₁ (q .normal) (q' .normal) m₁ s₁' f' (Flow.Matches T T')) :
    RunM.Accords T T' pairs (p >>= q) (p' >>= q') m s' f' (Flow.Matches T T') := by
  apply hp.bind
  intro flow flow' pairs₁ m₁ s₁' ho hflow
  cases flow with
  | normal =>
    cases hflow
    exact hnormal ho
  | broken =>
    cases hflow
    rw [hbroken.1, hbroken.2]
    exact .pure ho.matching rfl
  | returned v =>
    obtain ⟨v', rfl, hv⟩ := hflow
    rw [(hreturned v).1, (hreturned v').2]
    exact .pure ho.matching ⟨v', rfl, hv⟩

/-- The rounds of two loops, with what holds wherever a round begins. -/
theorem matches_whileLoop {condition condition' : RunM Bool} {body body' : RunM Flow}
    (hcondition : ∀ {pairs m s'}, m.Stands T T' pairs links s' f' →
      RunM.Accords T T' pairs condition condition' m s' f' fun _ _ _ a a' => a' = a)
    (hbody : ∀ {pairs m s'}, m.Stands T T' pairs links s' f' →
      RunM.Accords T T' pairs body body' m s' f' (Flow.Matches T T')) (bound : Nat)
    {pairs : FramePairs} {m : Machine} {s' : Store} (h : m.Stands T T' pairs links s' f') :
    RunM.Accords T T' pairs (whileLoop condition body bound) (whileLoop condition' body' bound) m s'
      f' (Flow.Matches T T') := by
  induction bound generalizing pairs m s' with
  | zero => exact .throw h.toMatches _
  | succ bound ih =>
    apply (hcondition h).bind
    rintro _ holds pairs₁ m₁ s₁' ho rfl
    cases holds with
    | false => exact .pure ho.matching rfl
    | true =>
      apply (hbody (h.step ho)).bind
      intro flow flow' pairs₂ m₂ s₂' ho₂ hflow
      cases flow with
      | normal =>
        cases hflow
        exact ih ((h.step ho).step ho₂)
      | broken =>
        cases hflow
        exact .pure ho₂.matching rfl
      | returned v =>
        obtain ⟨v', rfl, hv⟩ := hflow
        exact .pure ho₂.matching ⟨v', rfl, hv⟩

variable {call : Invoke}

theorem Expr.holds_matches (hcall : call.Matches T T') (e : Expr) (he : e.Placed T T' ν links)
    (h : m.Stands T T' pairs links s' f') :
    RunM.Accords T T' pairs (do return (← e.eval call).isTruthy)
      (do return (← (e.relabel (.numbers ν)).eval call).isTruthy) m s' f'
      fun _ _ _ a a' => a' = a := by
  apply (Expr.matches hcall e he h).bind
  intro v v' pairs₁ m₁ s₁' ho hv
  exact .pure ho.matching hv.isTruthy

mutual

theorem Stmt.matches (hcall : call.Matches T T') (bound : Nat) (s : Stmt) {links : List Link}
    (hs : s.Placed T T' ν links) {pairs : FramePairs} {m : Machine} {s' : Store} {f' : FrameId}
    (h : m.Stands T T' pairs links s' f') :
    RunM.Accords T T' pairs (s.exec call bound) ((s.relabel (.numbers ν)).exec call bound) m s' f'
      (Flow.Matches T T') := by
  match s with
  | .expression value =>
    apply (Expr.matches hcall value hs h).bind
    intro _ _ pairs₁ m₁ s₁' ho _
    exact .pure ho.matching rfl
  | .print value =>
    apply (Expr.matches hcall value hs h).bind
    intro v v' pairs₁ m₁ s₁' ho hv
    apply (matches_print ho.matching hv).bind
    intro _ _ pairs₂ m₂ s₂' ho₂ _
    exact .pure ho₂.matching rfl
  | .var name initializer =>
    apply (Expr.optionMatches hcall initializer hs.2 h).bind
    intro v v' pairs₁ m₁ s₁' ho hv
    apply (matches_define (h.step ho) hs.1 name.text hv).bind
    intro _ _ pairs₂ m₂ s₂' ho₂ _
    exact .pure ho₂.matching rfl
  | .block body => exact .inScope h fun hinside => Stmt.listMatches hcall bound body hs hinside
  | .ifElse condition yes none =>
    apply (Expr.matches hcall condition hs.1 h).bind
    intro v v' pairs₁ m₁ s₁' ho hv
    rw [hv.isTruthy]
    split
    · exact Stmt.matches hcall bound yes hs.2 (h.step ho)
    · exact .pure ho.matching rfl
  | .ifElse condition yes (some no) =>
    apply (Expr.matches hcall condition hs.1 h).bind
    intro v v' pairs₁ m₁ s₁' ho hv
    rw [hv.isTruthy]
    split
    · exact Stmt.matches hcall bound yes hs.2.1 (h.step ho)
    · exact Stmt.matches hcall bound no hs.2.2 (h.step ho)
  | .while condition body =>
    exact matches_whileLoop (Expr.holds_matches hcall condition hs.1)
      (Stmt.matches hcall bound body hs.2) bound h
  | .break keyword => exact .pure h.toMatches rfl
  | .function decl =>
    apply (matches_defineFunction h hs.1 hs.2).bind
    intro _ _ pairs₁ m₁ s₁' ho _
    exact .pure ho.matching rfl
  | .return keyword value =>
    apply (Expr.optionMatches hcall value hs h).bind
    intro v v' pairs₁ m₁ s₁' ho hv
    exact .pure ho.matching ⟨v', rfl, hv⟩
  | .class name none methods =>
    apply (matches_defineClass h hs.1 name none nofun hs.2).bind
    intro _ _ pairs₁ m₁ s₁' ho _
    exact .pure ho.matching rfl
  | .class name (some parent) methods =>
    have hparent (use : Occurrence) (huse : some parent = some use) : use.Placed T T' ν links := by
      cases huse
      exact hs.2.1
    apply (matches_defineClass h hs.1 name (some parent) hparent hs.2.2).bind
    intro _ _ pairs₁ m₁ s₁' ho _
    exact .pure ho.matching rfl

theorem Stmt.listMatches (hcall : call.Matches T T') (bound : Nat) (ss : List Stmt)
    {links : List Link} (hss : Stmt.ListPlaced T T' ν links ss) {pairs : FramePairs} {m : Machine}
    {s' : Store} {f' : FrameId} (h : m.Stands T T' pairs links s' f') :
    RunM.Accords T T' pairs (Stmt.listExec call bound ss)
      (Stmt.listExec call bound (Stmt.listRelabel (.numbers ν) ss)) m s' f'
      (Flow.Matches T T') := by
  match ss with
  | [] => exact .pure h.toMatches rfl
  | s :: ss =>
    exact matches_behind (Stmt.matches hcall bound s hss.1 h) ⟨rfl, rfl⟩ (fun _ => ⟨rfl, rfl⟩)
      fun ho => Stmt.listMatches hcall bound ss hss.2 (h.step ho)

end

/-! ## Calls -/

theorem parameterVars_matches {s : Store} (parameters : List Lexeme) {vs vs' : List Value}
    (hvs : List.Forall₂ (Value.Matches T T' pairs s s') vs vs') (name : String) :
    Option.Rel (Value.Matches T T' pairs s s') ((parameterVars parameters vs).get? name)
      ((parameterVars parameters vs').get? name) := by
  suffices hfold : ∀ vars vars' : Bindings Value,
      (∀ name, Option.Rel (Value.Matches T T' pairs s s') (vars.get? name) (vars'.get? name)) →
      Option.Rel (Value.Matches T T' pairs s s')
        (((parameters.zip vs).foldl (fun vars p => vars.insert p.1.text p.2) vars).get? name)
        (((parameters.zip vs').foldl (fun vars p => vars.insert p.1.text p.2) vars').get? name) from
    hfold .empty .empty fun _ => .none
  induction parameters generalizing vs vs' with
  | nil => exact fun vars vars' hvars => hvars name
  | cons p ps ih =>
    intro vars vars' hvars
    cases hvs with
    | nil => exact hvars name
    | cons hv hvs => exact ih hvs _ _ (rel_insert_same hvars p.text hv)

theorem Closure.Matches.arity {s : Store} {c c' : Closure} (h : c.Matches T T' pairs s s' c') :
    c'.arity = c.arity := by
  obtain ⟨ν, links, g, _, _, _, rfl⟩ := h
  simp only [Closure.arity, FunctionDecl.relabel_parameters, List.length_map]

theorem Class.Matches.arity {s : Store} {c c' : Class} (h : c.Matches T T' pairs s s' c') :
    c'.arity = c.arity := by
  unfold Class.arity
  rcases rel_cases (h.methods "init") with ⟨hinit, hinit'⟩ | ⟨init, init', hinit, hinit', hmethod⟩
  · rw [hinit, hinit']
  · rw [hinit, hinit']
    obtain ⟨ν, links, g, _, _, rfl⟩ := hmethod
    simp only [Closure.arity, FunctionDecl.relabel_parameters, List.length_map]

/-- What bodies do is the same for bodies that are placed alike. -/
def BodiesAccord (T T' : Table) (run : List Stmt → RunM Flow) : Prop :=
  ∀ {body : List Stmt} {ν : Nat → Nat} {links : List Link} {pairs : FramePairs} {m : Machine}
    {s' : Store} {f' : FrameId}, m.Stands T T' pairs links s' f' →
    Stmt.ListPlaced T T' ν links body →
    RunM.Accords T T' pairs (run body) (run (Stmt.listRelabel (.numbers ν) body)) m s' f'
      (Flow.Matches T T')

variable {run : List Stmt → RunM Flow}

/-- The frames in which the bodies of matching closures run. -/
theorem matches_callFrame {c c' : Closure} (hm : m.Matches T T' pairs s')
    (hbeside : Store.Beside pairs m.store s' links c.frame c'.frame)
    (hparameters : c'.decl.parameters = c.decl.parameters) {vs vs' : List Value}
    (hvs : List.Forall₂ (Value.Matches T T' pairs m.store s') vs vs') :
    RunM.Accords T T' pairs
      (make (·.newFrame ⟨parameterVars c.decl.parameters vs, some c.frame⟩))
      (make (·.newFrame ⟨parameterVars c'.decl.parameters vs', some c'.frame⟩)) m s' f'
      fun pairs₁ s s' => Store.Beside pairs₁ s s' (.both :: links) := by
  rw [hparameters]
  have hpairs := List.subset_cons_self (m.store.frames.size, s'.frames.size) pairs
  have hvars := parameterVars_matches c.decl.parameters hvs
  have hgrows := m.store.grows_newFrame ⟨parameterVars c.decl.parameters vs, some c.frame⟩
  have hgrows' := s'.grows_newFrame ⟨parameterVars c.decl.parameters vs', some c'.frame⟩
  refine .make hm hpairs hgrows hgrows' (hm.store.newFrame _ _ hvars)
    ⟨List.mem_cons_self, c.frame, c'.frame, ?_, ?_, hbeside.grow hpairs hgrows hgrows'⟩
  · exact m.store.parent?_newFrame_self _
  · exact s'.parent?_newFrame_self _

theorem matches_callClosure (hrun : BodiesAccord T T' run) {closure closure' : Closure}
    (paren : Lexeme) {vs vs' : List Value} (hm : m.Matches T T' pairs s')
    (hclosure : closure.Matches T T' pairs m.store s' closure')
    (hvs : List.Forall₂ (Value.Matches T T' pairs m.store s') vs vs') :
    RunM.Accords T T' pairs (callClosure run closure paren vs) (callClosure run closure' paren vs')
      m s' f' (Value.Matches T T') := by
  obtain ⟨ν, links, g, hbeside, hpair, hplaced, rfl⟩ := hclosure
  have hparameters : (closure.decl.relabel (.numbers ν)).parameters = closure.decl.parameters := by
    rw [FunctionDecl.relabel_parameters, List.map_id'' (Lexeme.relabel_numbers ν)]
  have hbody : Stmt.ListPlaced T T' ν (.both :: links) closure.decl.body := by
    obtain ⟨⟨name, parameters, body⟩, frame, isInitializer⟩ := closure
    exact hplaced
  refine .bindGet ?_
  show RunM.Accords T T' pairs (if maxDepth ≤ m.depth then _ else _)
    (if maxDepth ≤ m.depth then _ else _) m s' f' _
  split
  · exact .fail hm paren _
  apply (matches_callFrame hm hbeside hparameters hvs).bind
  intro a a' pairs₁ m₁ s₁' ho hinside
  have hstands : Machine.Stands T T' pairs₁ (.both :: links)
      { m₁ with depth := m₁.depth + 1, env := a } s₁' a' :=
    ⟨⟨ho.matching.table, ho.matching.store⟩, hinside⟩
  have hruns := hrun hstands hbody
  rw [← FunctionDecl.relabel_body] at hruns
  apply (RunM.Accords.deeper (RunM.Accords.withFrame hruns)).bind
  intro flow flow' pairs₂ m₂ s₂' ho₂ hflow
  show RunM.Accords T T' pairs₂ (if closure.isInitializer then _ else _)
    (if closure.isInitializer then _ else _) m₂ s₂' f' _
  split
  · -- An initializer yields its instance, whatever its body did.
    refine .inspect ho₂.matching ?_
    rcases rel_cases (ho₂.matching.store.vars _ (ho₂.pairs (ho.pairs hpair)) "this") with
      ⟨hown, hown'⟩ | ⟨v, v', hown, hown', hv⟩
    · rw [hown, hown']
      exact Value.Plain.matches trivial
    · rw [hown, hown']
      exact hv
  · refine .pure ho₂.matching ?_
    cases flow with
    | returned v =>
      obtain ⟨v', rfl, hv⟩ := hflow
      exact hv
    | _ =>
      cases hflow
      exact Value.Plain.matches trivial

theorem matches_instantiate (hrun : BodiesAccord T T' run) {cls cls' : Class} (paren : Lexeme)
    {vs vs' : List Value} (hm : m.Matches T T' pairs s')
    (hcls : cls.Matches T T' pairs m.store s' cls')
    (hvs : List.Forall₂ (Value.Matches T T' pairs m.store s') vs vs') :
    RunM.Accords T T' pairs (instantiate run cls paren vs) (instantiate run cls' paren vs') m s' f'
      (Value.Matches T T') := by
  have hborn : RunM.Accords T T' pairs (make (·.newInstance cls)) (make (·.newInstance cls')) m
      s' f' fun _ _ _ i i' => i' = i :=
    .make hm (List.Subset.refl _) (Store.grows_of_frames rfl) (Store.grows_of_frames rfl)
      (hm.store.newInstance hcls) hm.store.objects
  apply hborn.bind
  rintro _ i pairs₁ m₁ s₁' ho rfl
  have hinstance {pairs : FramePairs} {s s' : Store} :
      Value.Matches T T' pairs s s' (.instance i) (.instance i) := rfl
  rcases rel_cases (hcls.methods "init") with
    ⟨hinit, hinit'⟩ | ⟨init, init', hinit, hinit', hmethod⟩
  · rw [hinit, hinit']
    exact .pure ho.matching hinstance
  · rw [hinit, hinit']
    apply (matches_bindMethod i ho.matching (hmethod.grow ho.pairs ho.grown.store ho.grown')).bind
    intro closure closure' pairs₂ m₂ s₂' ho₂ hclosure
    have hvs₂ := hvs.imp fun _ _ h => ho₂.value (ho.value h)
    apply (matches_callClosure hrun paren ho₂.matching hclosure hvs₂).bind
    intro _ _ pairs₃ m₃ s₃' ho₃ _
    exact .pure ho₃.matching hinstance

theorem matches_checkArity (paren : Lexeme) (expected got : Nat) (hm : m.Matches T T' pairs s') :
    RunM.Accords T T' pairs (checkArity paren expected got) (checkArity paren expected got) m s' f'
      fun _ _ _ _ _ => True := by
  unfold checkArity
  split
  · exact .pure hm trivial
  · exact .fail hm paren _

theorem matches_callValue (hrun : BodiesAccord T T' run) : Invoke.Matches T T' (callValue run) := by
  intro f g paren vs vs' pairs m s' f' hm hf hvs
  have hlength : vs'.length = vs.length := hvs.length_eq.symm
  cases f with
  | native name =>
    cases hf
    simp only [callValue, hlength]
    apply (matches_checkArity paren 0 vs.length hm).bind
    intro _ _ pairs₁ m₁ s₁' ho _
    exact matches_readClock ho.matching
  | function closure stamp =>
    obtain ⟨closure', rfl, hclosure⟩ := hf
    simp only [callValue, hlength, hclosure.arity]
    apply (matches_checkArity paren closure.arity vs.length hm).bind
    intro _ _ pairs₁ m₁ s₁' ho _
    exact matches_callClosure hrun paren ho.matching
      (hclosure.grow ho.pairs ho.grown.store ho.grown') (hvs.imp fun _ _ h => ho.value h)
  | «class» cls =>
    obtain ⟨cls', rfl, hcls⟩ := hf
    simp only [callValue, hlength, hcls.arity]
    apply (matches_checkArity paren cls.arity vs.length hm).bind
    intro _ _ pairs₁ m₁ s₁' ho _
    exact matches_instantiate hrun paren ho.matching
      (hcls.grow ho.pairs ho.grown.store ho.grown') (hvs.imp fun _ _ h => ho.value h)
  | _ =>
    cases hf
    exact .fail hm paren _

/-- Calls of matching values end in the same way, however deep they may go. -/
theorem invoke_matches (k : Nat) : Invoke.Matches T T' (invoke k) := by
  induction k with
  | zero => exact fun _ _ _ _ _ _ _ hm _ _ => .throw hm _
  | succ k ih =>
    apply matches_callValue
    intro body ν links pairs m s' f' h hbody
    exact Stmt.listMatches ih k body hbody h

end Lox
