/-
  Lox.Proofs.Loops.Meaning

  What a `for` means, in every session.

    * `Store.Fits.matches_self` — a store with nothing but scoped functions matches itself
      under every extension of its table, each frame paired with itself;
    * `Point.FitsIn.reaches_ready` — around statements that come up all names are ready;
    * `for_follows_rule` — wherever a `for` is executed, its tree does what the rule says.
-/
import Lox.Proofs.Flow.Containment
import Lox.Proofs.Grounding.Lookups
import Lox.Proofs.Loops.Rule
import Lox.Proofs.Occurrences.Running
import Lox.Proofs.Scoping.Writes

namespace Lox

open RunM

/-! ## A store beside itself -/

/-- Every frame with itself. -/
def Store.selves (s : Store) : FramePairs := (List.range s.frames.size).map fun f => (f, f)

theorem Store.mem_selves {s : Store} {p : FrameId × FrameId} :
    p ∈ s.selves ↔ p.1 < s.frames.size ∧ p.2 = p.1 := by
  unfold selves
  constructor
  · intro hp
    obtain ⟨f, hf, rfl⟩ := List.mem_map.mp hp
    exact ⟨List.mem_range.mp hf, rfl⟩
  · rintro ⟨hlt, hsame⟩
    exact List.mem_map.mpr ⟨p.1, List.mem_range.mpr hlt, Prod.ext rfl hsame.symm⟩

variable {T T' : Table} {n n' : Nat} {s : Store} {scopes : List Scope}

theorem rel_self {α : Type} {R : α → α → Prop} {a : Option α} (h : ∀ x, a = some x → R x x) :
    Option.Rel R a a := by
  cases a with
  | none => exact .none
  | some x => exact .some (h x rfl)

theorem FunctionDecl.relabel_id (d : FunctionDecl) : d.relabel (.numbers id) = d := d.relabel_same

/-- The same tree is placed alike by its table and an extension of it. -/
theorem FunctionDecl.Scoped.placed_self (hT : T.Extends T' n n') {d : FunctionDecl}
    (h : d.Scoped T n scopes) :
    d.Placed T T' id (List.replicate scopes.length .both) := by
  have hextended : (d.relabel (.numbers id)).Scoped T' n' scopes := by
    rw [d.relabel_id]
    exact FunctionDecl.Scoped.extend hT d h
  exact FunctionDecl.Scoped.placed d h hextended (.refl scopes)

section

variable (hT : T.Extends T' n n') (hglobals : Store.globals < s.frames.size)
include hT hglobals

omit hT in
theorem Store.Chain.mem_selves {f : FrameId} (h : s.Chain f scopes) : (f, f) ∈ s.selves := by
  cases scopes with
  | nil =>
    cases h
    exact Store.mem_selves.mpr ⟨hglobals, rfl⟩
  | cons scope outer =>
    obtain ⟨_, g, hg, _⟩ := h
    exact Store.mem_selves.mpr ⟨Store.lt_of_parent? hg, rfl⟩

omit hT hglobals in
theorem Store.Chain.beside_self {f : FrameId} (h : s.Chain f scopes) :
    Store.Beside s.selves s s (List.replicate scopes.length .both) f f := by
  refine .of_chain h fun g hg => ?_
  obtain ⟨around, hlink⟩ := Option.isSome_iff_exists.mp hg
  exact Store.mem_selves.mpr ⟨Store.lt_of_parent? hlink, rfl⟩

theorem Closure.Fits.matches_self {c : Closure} (h : c.Fits T n s) :
    c.Matches T T' s.selves s s c := by
  obtain ⟨scopes, hchain, hscoped⟩ := h
  refine ⟨id, _, c.frame, hchain.beside_self, hchain.mem_selves hglobals,
    hscoped.placed_self hT, ?_⟩
  rw [c.decl.relabel_id]

omit hglobals in
theorem Closure.FitsMethod.matches_self {c : Closure} (h : c.FitsMethod T n s) :
    c.MatchesMethod T T' s.selves s s c := by
  obtain ⟨scopes, hchain, hscoped⟩ := h
  refine ⟨id, _, c.frame, hchain.beside_self, hscoped.placed_self hT, ?_⟩
  rw [c.decl.relabel_id]

theorem Value.Fits.matches_self {v : Value} (h : v.Fits T n s) :
    v.Matches T T' s.selves s s v := by
  cases v with
  | function closure stamp => exact ⟨closure, rfl, Closure.Fits.matches_self hT hglobals h⟩
  | «class» cls =>
    exact ⟨cls, rfl, rfl, rfl, fun name => rel_self fun method hmethod =>
      Closure.FitsMethod.matches_self hT (h name method hmethod)⟩
  | _ => rfl

end

theorem Store.Fits.matches_self (h : s.Fits T n) (hs : s.Grounded) (hT : T.Extends T' n n') :
    s.Matches T T' s.selves s where
  within p hp := by
    obtain ⟨hlt, hsame⟩ := Store.mem_selves.mp hp
    exact ⟨hlt, hsame ▸ hlt⟩
  apart p hp q hq := by rw [(Store.mem_selves.mp hp).2, (Store.mem_selves.mp hq).2]
  global := Store.mem_selves.mpr ⟨hs.globals, rfl⟩
  root := hs.top
  root' := hs.top
  vars p hp name := by
    rw [(Store.mem_selves.mp hp).2]
    exact rel_self fun v hv => (h.vars _ name v hv).1.matches_self hT hs.globals
  objects := rfl
  classes _ := rfl
  fields i name := rel_self fun v hv => (h.fields i name v hv).matches_self hT hs.globals
  methods i name := rel_self fun method hmethod => (h.methods i name method hmethod).matches_self hT
  stamp := rfl

/-! ## Sessions -/

namespace Session

theorem reached_afterTexts (out : Sink) (clock : Nat → Option Float)
    (texts : List (Nat × String × SessionMode)) : (afterTexts out clock texts).Reached := by
  have goOn (s : Session) (h : s.Reached) :
      (texts.foldl (fun s text => (s.step text.1 (.plain text.2.1 text.2.2)).2) s).Reached := by
    induction texts generalizing s with
    | nil => exact h
    | cons text texts ih => exact ih _ (h.step text.1 _)
  exact goOn _ (.start out clock)

theorem Begins.runs {s : Session} {fuel : Nat} {source : String} {mode : SessionMode} {p : Point}
    (h : s.Begins fuel source mode p) : s.Runs fuel (.plain source mode) p := by
  have takes {α : Type} {parse : List Token → Nat → Parser.Parsed α}
      {resolve : α → Except (List Diagnostic) Table} {tree : α} {A : Table}
      (h : s.Accepts source parse resolve tree A) :
      s.Takes (.plain source mode) parse resolve tree (A.shift 0) := by
    refine ⟨h.scanned, h.parsed, ?_⟩
    rw [h.resolved]
    rfl
  cases h with
  | interpret haccepts => exact .interpret rfl (takes haccepts)
  | execute haccepts hdone => exact .execute rfl (takes haccepts) hdone
  | evaluate haccepts => exact .evaluate rfl (takes haccepts)

end Session

/-! ## Statements that are reached -/

/-- Statements come up where statements are executed or something with a frame of its own
    begins. -/
theorem Point.Step.running {p q : Point} (h : p.Step q) (hq : q.task.Running) :
    p.task.Running ∨ p.task.Opens := by
  cases h <;> first | exact hq.elim | exact .inl trivial | exact .inr trivial

/-- Around statements that come up all names are ready. -/
theorem Point.FitsIn.reaches_ready {root p : Point} (hroot : root.FitsIn T n [])
    (h : root.Reaches p) :
    ∃ scopes, p.FitsIn T n scopes ∧ (p.task.Running → ∀ name, ¬Scope.Pends scopes name) := by
  induction h with
  | refl => exact ⟨[], hroot, fun _ _ ⟨_, hscope, _⟩ => by cases hscope⟩
  | tail _ hstep ih =>
    obtain ⟨scopes, hp, hready⟩ := ih
    obtain ⟨scopes', hq, hhands⟩ := hp.step hstep
    refine ⟨scopes', hq, fun hrunning name hpends => ?_⟩
    rcases hhands name hpends with ⟨hpends, hopens⟩ | ⟨declared, value, _, _, rfl⟩
    · exact hready ((hstep.running hrunning).resolve_right hopens) name hpends
    · exact hrunning

/-! ## Main statement -/

/-- Paths of a steady store stay. -/
theorem Store.Steady.path {s t : Store} (hst : s.Steady t) {f : FrameId} {path : List FrameId}
    (h : s.Path f path) (hpath : ∀ g ∈ path, g < s.frames.size) : t.Path f path := by
  induction h with
  | top hlink => exact .top ((hst.links _ (hpath _ List.mem_cons_self)).trans hlink)
  | link hlink _ ih =>
    exact .link (hst.parent? hlink) (ih fun g hg => hpath g (List.mem_cons_of_mem _ hg))

/-- Behind a statement without declarations the walk is in the scopes of before. -/
theorem Stmt.Plain.scopes_resolve {s : Stmt} (hplain : s.Plain) (hs : s.Proper) (w : Walk) :
    (s.resolve w).scopes = w.scopes :=
  ((s.resolves hs : Resolves ∅ 0 _ _ _ _ _) w).1.scopes.trans (hplain.after w.scopes)

/-- A `for` means what the rule says, whatever its parts are, and wherever the work on an
    accepted text comes to it, also inside functions and other loops.
    Its tree and the rule, each with the distances that go with it, end in the same way, be it
    normally, by a `return` or with a fault, with the same output, and the stores that they
    leave match.  The occurrences of the rule have numbers of their own, since both kinds of
    distances are in one table; there always is such a table.
    The resolver comes out of the tree with the scopes of before, and the frames around the
    position are those of before, too; a frame of the loop is newer than all of them.  So what
    the initializer declares is not visible behind the loop. -/
theorem for_follows_rule (out : Sink) (clock : Nat → Option Float)
    (texts : List (Nat × String × SessionMode)) (fuel : Nat) (source : String)
    (mode : SessionMode) {p : Point}
    (hp : (Session.afterTexts out clock texts).Begins fuel source mode p) {l : ForLoop} {k : Nat}
    {m : Machine} (hreaches : p.Reaches ⟨k, .stmt l.tree, m⟩) :
    (∃ n scopes, Point.FitsIn m.table n ⟨k, .stmt l.tree, m⟩ scopes ∧
      (∃ T' n' ν, m.table.Extends T' n n' ∧ (l.renumber ν).Scoped T' n' scopes) ∧
      ∀ T' n' ν, m.table.Extends T' n n' → (l.renumber ν).Scoped T' n' scopes →
        RunM.Accords m.table T' m.store.selves (execute k l.tree)
          ((l.renumber ν).exec (invoke k) k) m m.store m.env (Flow.Matches m.table T')) ∧
    (∀ w : Walk, (l.tree.resolve w).scopes = w.scopes) ∧
    ∃ path, m.store.Path m.env path ∧ (∀ g ∈ path, g < m.store.frames.size) ∧
      ((execute k l.tree).after m).store.Path ((execute k l.tree).after m).env path := by
  have hsession := Session.reached_afterTexts out clock texts
  obtain ⟨T, n, hfits⟩ := (Session.fits_afterTexts out clock texts).begins_outside hp
  obtain ⟨scopes, hpoint, hready⟩ := hfits.reaches_ready hreaches
  have hdistinct := ((hp.distinct hsession).reaches hreaches).task
  have hroot := hp.runs.grounded hsession.grounded
  obtain ⟨⟨hm, hproper⟩, -⟩ := hroot.1.reaches hreaches
  have htable : m.table = T := hpoint.machine.table
  subst htable
  refine ⟨⟨n, scopes, hpoint, ?_, fun T' n' ν hT hl => ?_⟩, ?_, ?_⟩
  · exact ForLoop.exists_scoped hpoint.task hdistinct (hready trivial)
  · have hstands : m.Stands m.table T' m.store.selves (List.replicate scopes.length .both) m.store
        m.env :=
      ⟨⟨rfl, hpoint.machine.store.matches_self hm.store hT⟩, hpoint.chain.beside_self⟩
    exact ForLoop.tree_matches (invoke_matches k) k hpoint.task hl (.refl scopes) hstands
  · exact l.tree_plain.scopes_resolve hproper
  · have hdown := hm.store.linksDown
    obtain ⟨path, hpath⟩ := hdown.exists_path m.env
    have hold (g : FrameId) (hg : g ∈ path) : g < m.store.frames.size :=
      Nat.lt_of_le_of_lt (hpath.le hdown g hg) hm.env
    have hgoes : m.Goes ((execute k l.tree).after m) :=
      (l.tree.grounds (invoke_grounds k) k hproper hm).1
    refine ⟨path, hpath, hold, ?_⟩
    rw [hgoes.env]
    exact hgoes.store.onward.path hpath hold

/-- A loop that runs once. -/
def onceLoop : ForLoop where
  first := some (.var ⟨"a", 1⟩ (some (.literal (.bool true))))
  condition := some (.name ⟨0, ⟨"a", 1⟩⟩)
  increment := some (.assign ⟨2, ⟨"a", 1⟩⟩ (.literal (.bool false)))
  body := .print (.name ⟨3, ⟨"a", 1⟩⟩)
  plain := trivial

/-- All its occurrences mean the variable in the one scope of the rule. -/
theorem scoped_onceLoop (T : Table) (n : Nat) : ∃ T' : Table, T.Extends T' n (n + 4) ∧
    (onceLoop.renumber (n + ·)).Scoped T' (n + 4) [] := by
  let T' : Table := ((T.insert n 0).insert (n + 2) 0).insert (n + 3) 0
  have htable (id : Nat) : T'[id]? = if n + 3 = id then some 0 else if n + 2 = id then some 0
      else if n = id then some 0 else T[id]? := by
    simp [T', Std.TreeMap.getElem?_insert]
  have hname : Lexeme.Ordinary ⟨"a", 1⟩ := ⟨by decide, by decide⟩
  have hready (id : Nat) (hid : id < n + 4) (hplace : T'[id]? = some 0) :
      T'.Readable (n + 4) [Bindings.empty.insert "a" true] ⟨id, ⟨"a", 1⟩⟩ := by
    refine ⟨⟨hid, hplace⟩, fun d scope hd hscope => ?_⟩
    cases hplace.symm.trans hd
    cases hscope
    rfl
  have hfirst : Lexeme.Declarable [.empty] ⟨"a", 1⟩ :=
    ⟨hname, fun scope hscope => by cases hscope; rfl⟩
  have hincrement : T'[n + 2]? = some 0 := by simp [htable]
  refine ⟨T', ⟨by omega, fun id hid => ?_⟩, ⟨hfirst, trivial⟩,
    hready n (by omega) (by simp [htable]), hready (n + 3) (by omega) (by simp [htable]),
    ⟨(hready _ (by omega) hincrement).1, ?_⟩, hname, trivial⟩
  · rw [htable, if_neg (by omega), if_neg (by omega), if_neg (by omega)]
  · intro d scope hd
    cases hincrement.symm.trans hd

/-- The rule needs the distance 0 for everything, where the tree has 1 in body and increment. -/
theorem for_follows_rule_once : ∃ (p : Point) (m : Machine),
    (Session.afterTexts .unlimited (fun _ => none) []).Begins 2 "for(var a=true;a;a=false)print a;"
        .interpret p ∧
      p.Reaches ⟨2, .stmt onceLoop.tree, m⟩ ∧
      (∃ n T', m.table.Extends T' n (n + 4) ∧
        (onceLoop.renumber (n + ·)).Scoped T' (n + 4) [] ∧
        RunM.Accords m.table T' m.store.selves (execute 2 onceLoop.tree)
          ((onceLoop.renumber (n + ·)).exec (invoke 2) 2) m m.store m.env
          (Flow.Matches m.table T')) ∧
      (∀ w : Walk, (onceLoop.tree.resolve w).scopes = w.scopes) ∧
      ∃ path, m.store.Path m.env path ∧ (∀ g ∈ path, g < m.store.frames.size) ∧
        ((execute 2 onceLoop.tree).after m).store.Path ((execute 2 onceLoop.tree).after m).env
          path := by
  have haccepts : ∃ A, (Session.afterTexts .unlimited (fun _ => none) []).Accepts
      "for(var a=true;a;a=false)print a;" parseProgram resolveProgram [onceLoop.tree] A :=
    ⟨_, by cbv, by cbv, rfl⟩
  obtain ⟨A, haccepts⟩ := haccepts
  have hbegins := @Session.Begins.interpret 2 _ _ _ _ haccepts
  have hreaches : Point.Reaches ⟨2, .stmts [onceLoop.tree],
      (Session.afterTexts .unlimited (fun _ => none) []).withTable A⟩ _ := .single .statement
  obtain ⟨⟨n, scopes, hfits, -, haccords⟩, hscopes, hpath⟩ :=
    for_follows_rule .unlimited (fun _ => none) [] 2 _ _ hbegins hreaches
  have hglobal : scopes = [] := by
    cases scopes with
    | nil => rfl
    | cons scope outer =>
      obtain ⟨_, g, hlink, _⟩ := hfits.chain
      cases hlink
  subst hglobal
  obtain ⟨T', hT, hscoped⟩ := scoped_onceLoop _ n
  exact ⟨_, _, hbegins, hreaches, ⟨n, T', hT, hscoped, haccords T' _ _ hT hscoped⟩, hscopes, hpath⟩

end Lox
