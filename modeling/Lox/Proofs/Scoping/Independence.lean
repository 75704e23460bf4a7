/-
  Lox.Proofs.Scoping.Independence

  A walk does not look back: what it does at a position depends on the scopes, the body
  and the class around the position, not on what was found before.

    * `Walk.Behind` — two walks at the same position, of which the second one had found
      something before;
    * `Walk.Apart` — walking through a tree keeps two such walks so, and ends in the
      same body;
    * `resolveProgram_append` — so the distances and the faults of a program are those
      of its two halves.
-/
import Lox.Proofs.Scoping.Resolution
import Lox.Proofs.Scoping.Tables

namespace Lox

/-! ## Two walks -/

/-- Two walks at the same position. -/
structure Walk.SamePlace (w w' : Walk) : Prop where
  scopes : w'.scopes = w.scopes
  body : w'.body = w.body
  cls : w'.cls = w.cls

/-- What the second walk has found is what `base` has found and then the first walk. -/
structure Walk.Behind (base w w' : Walk) : Prop extends w.SamePlace w' where
  faults : w'.faults.toList = base.faults.toList ++ w.faults.toList
  table : ∀ id : Nat, w'.table[id]? = w.table[id]?.or base.table[id]?

/-- Walking does not depend on what was found before. -/
structure Walk.Apart (f : Walk → Walk) : Prop where
  body : ∀ w, (f w).body = w.body
  behind : ∀ {base w w' : Walk}, base.Behind w w' → base.Behind (f w) (f w')

namespace Walk

theorem SamePlace.declaresHere {w w' : Walk} (h : w.SamePlace w') (name : String) :
    w'.declaresHere name = w.declaresHere name := by
  rw [Walk.declaresHere, Walk.declaresHere, h.scopes]

theorem SamePlace.readsOwnInitializer {w w' : Walk} (h : w.SamePlace w') (name : String) :
    w'.readsOwnInitializer name = w.readsOwnInitializer name := by
  rw [Walk.readsOwnInitializer, Walk.readsOwnInitializer, h.scopes]

namespace Apart

variable {f g : Walk → Walk}

theorem still : Apart fun w => w := ⟨fun _ => rfl, fun h => h⟩

theorem then_ (hf : Apart f) (hg : Apart g) : Apart fun w => g (f w) :=
  ⟨fun w => (hg.body _).trans (hf.body w), fun h => hg.behind (hf.behind h)⟩

/-- Both walks decide in the same way. -/
theorem ite {c : Walk → Prop} [∀ w, Decidable (c w)]
    (hc : ∀ {w w' : Walk}, w.SamePlace w' → (c w' ↔ c w)) (hf : Apart f) (hg : Apart g) :
    Apart fun w => if c w then f w else g w := by
  refine ⟨fun w => ?_, fun {base w w'} h => ?_⟩
  · split
    · exact hf.body w
    · exact hg.body w
  · by_cases hw : c w
    · rw [if_pos hw, if_pos ((hc h.toSamePlace).mpr hw)]
      exact hf.behind h
    · rw [if_neg hw, if_neg fun hw' => hw ((hc h.toSamePlace).mp hw')]
      exact hg.behind h

theorem inScope (scope : Scope) (hf : Apart f) : Apart fun w => w.inScope scope f := by
  refine ⟨fun w => hf.body _, fun {base w w'} h => ?_⟩
  have hinner : base.Behind { w with scopes := scope :: w.scopes }
      { w' with scopes := scope :: w'.scopes } :=
    ⟨⟨congrArg (scope :: ·) h.scopes, h.body, h.cls⟩, h.faults, h.table⟩
  have hafter := hf.behind hinner
  exact ⟨⟨congrArg List.tail hafter.scopes, hafter.body, hafter.cls⟩, hafter.faults, hafter.table⟩

theorem inClass (cls : ClassKind) (hf : Apart f) :
    Apart fun w => { f { w with cls } with cls := w.cls } := by
  refine ⟨fun w => hf.body _, fun {base w w'} h => ?_⟩
  have hinner : base.Behind { w with cls } { w' with cls } :=
    ⟨⟨h.scopes, h.body, rfl⟩, h.faults, h.table⟩
  have hafter := hf.behind hinner
  exact ⟨⟨hafter.scopes, hafter.body, h.cls⟩, hafter.faults, hafter.table⟩

theorem inBody (body : BodyKind) (hf : Apart f) :
    Apart fun w => { f { w with body } with body := w.body } := by
  refine ⟨fun w => rfl, fun {base w w'} h => ?_⟩
  have hinner : base.Behind { w with body } { w' with body } :=
    ⟨⟨h.scopes, rfl, h.cls⟩, h.faults, h.table⟩
  have hafter := hf.behind hinner
  exact ⟨⟨hafter.scopes, h.body, hafter.cls⟩, hafter.faults, hafter.table⟩

/-- A walk only adds faults. -/
theorem prefix_faults (hf : Apart f) (w : Walk) : w.faults.toList <+: (f w).faults.toList := by
  have hfresh : w.Behind { w with table := ∅, faults := #[] } w := by
    refine ⟨⟨rfl, rfl, rfl⟩, (List.append_nil _).symm, fun id => ?_⟩
    rw [Std.TreeMap.getElem?_emptyc, Option.none_or]
  exact ⟨_, (hf.behind hfresh).faults.symm⟩

/-- If two walks in a row find no fault, neither of them does. -/
theorem faults_eq (hf : Apart f) (hg : Apart g) {w : Walk} (h : (g (f w)).faults = w.faults) :
    (f w).faults = w.faults ∧ (g (f w)).faults = (f w).faults := by
  have hback := hg.prefix_faults (f w)
  rw [h] at hback
  have hfirst : (f w).faults = w.faults := Array.toList_inj.mp
    (hback.eq_of_length (Nat.le_antisymm hback.length_le (hf.prefix_faults w).length_le))
  exact ⟨hfirst, h.trans hfirst.symm⟩

end Apart

end Walk

open Walk

theorem apart_report (at_ : Lexeme) (fault : ScopeFault) : Apart fun w => w.report at_ fault := by
  refine ⟨fun w => rfl, fun {base w w'} h =>
    ⟨⟨h.scopes, h.body, h.cls⟩, ?_, h.table⟩⟩
  simp [Walk.report, h.faults]

theorem apart_mark (name : String) (ready : Bool) : Apart fun w => w.mark name ready := by
  refine ⟨fun w => ?_, fun {base w w'} h => ?_⟩
  · unfold Walk.mark
    split <;> rfl
  · unfold Walk.mark
    rw [h.scopes]
    split
    · exact h
    · exact ⟨⟨rfl, h.body, h.cls⟩, h.faults, h.table⟩

theorem apart_bind (use : Occurrence) : Apart fun w => w.bind use := by
  refine ⟨fun w => ?_, fun {base w w'} h => ?_⟩
  · unfold Walk.bind
    split <;> rfl
  · unfold Walk.bind Walk.distance?
    rw [h.scopes]
    split
    · exact h
    · next d _ =>
      refine ⟨⟨rfl, h.body, h.cls⟩, h.faults, fun id => ?_⟩
      rw [Std.TreeMap.getElem?_insert, Std.TreeMap.getElem?_insert]
      split
      · rfl
      · exact h.table id

theorem apart_declare (name : Lexeme) : Apart fun w => w.declare name :=
  (Apart.ite (c := fun w => w.declaresHere name.text = true)
    (fun h => by rw [h.declaresHere]) ((apart_mark name.text false).then_ (apart_report name _))
    (apart_mark name.text false))

theorem apart_introduce (name : Lexeme) : Apart fun w => w.introduce name :=
  (apart_declare name).then_ (apart_mark name.text true)

theorem apart_read (use : Occurrence) : Apart fun w => w.read use :=
  (Apart.ite (c := fun w => w.readsOwnInitializer use.name.text = true)
    (fun h => by rw [h.readsOwnInitializer]) (apart_report use.name _) .still).then_
    (apart_bind use)

/-! ## Trees -/

mutual

theorem Expr.apart (e : Expr) : Apart e.resolve := by
  cases e with
  | literal value => exact .still
  | grouping inner => exact Expr.apart inner
  | unary op sign operand => exact Expr.apart operand
  | binary op sign left right => exact (Expr.apart left).then_ (Expr.apart right)
  | logical op sign left right => exact (Expr.apart left).then_ (Expr.apart right)
  | name use => exact apart_read use
  | assign target value => exact (Expr.apart value).then_ (apart_bind target)
  | call callee paren arguments => exact (Expr.apart callee).then_ (Expr.listApart arguments)
  | get object property => exact Expr.apart object
  | set object property value => exact (Expr.apart value).then_ (Expr.apart object)
  | this keyword =>
    exact .ite (fun h => by rw [h.cls]) (apart_report keyword.name _) (apart_bind keyword)
  | super keyword method =>
    refine ⟨fun w => ?_, fun {base w w'} h => ?_⟩
    · simp only [Expr.resolve]
      split <;> exact (apart_bind keyword).body _
    · simp only [Expr.resolve]
      rw [h.cls]
      split
      · exact (apart_bind keyword).behind ((apart_report keyword.name _).behind h)
      · exact (apart_bind keyword).behind ((apart_report keyword.name _).behind h)
      · exact (apart_bind keyword).behind h

theorem Expr.listApart (es : List Expr) : Apart (Expr.listResolve es) := by
  cases es with
  | nil => exact .still
  | cons e es => exact (Expr.apart e).then_ (Expr.listApart es)

end

theorem Expr.optionApart (e : Option Expr) : Apart (Expr.optionResolve e) := by
  cases e with
  | none => exact .still
  | some e => exact Expr.apart e

theorem apart_checkReturn (keyword : Lexeme) (hasValue : Bool) :
    Apart fun w => w.checkReturn keyword hasValue := by
  have hfirst :
      Apart fun w => if w.body = .topLevel then w.report keyword .returnAtTopLevel else w :=
    .ite (fun h => by rw [h.body]) (apart_report keyword _) .still
  exact .ite (c := fun w => hasValue ∧ w.body = .initializer) (fun h => by rw [h.body])
    (hfirst.then_ (apart_report keyword _)) hfirst

theorem apart_parameters (parameters : List Lexeme) :
    Apart fun w => parameters.foldl Walk.introduce w := by
  induction parameters with
  | nil => exact .still
  | cons p ps ih => exact (apart_introduce p).then_ ih

mutual

theorem Stmt.apart (s : Stmt) : Apart s.resolve := by
  match s with
  | .expression value => exact Expr.apart value
  | .print value => exact Expr.apart value
  | .var name initializer =>
    exact ((apart_declare name).then_ (Expr.optionApart initializer)).then_
      (apart_mark name.text true)
  | .block body => exact (Stmt.listApart body).inScope .empty
  | .ifElse condition yes none => exact (Expr.apart condition).then_ (Stmt.apart yes)
  | .ifElse condition yes (some no) =>
    exact ((Expr.apart condition).then_ (Stmt.apart yes)).then_ (Stmt.apart no)
  | .while condition body => exact (Expr.apart condition).then_ (Stmt.apart body)
  | .break keyword => exact .still
  | .function decl =>
    exact (apart_introduce decl.name).then_ (FunctionDecl.apart .function decl)
  | .return keyword value =>
    exact (apart_checkReturn keyword value.isSome).then_ (Expr.optionApart value)
  | .class name none methods =>
    exact ((apart_introduce name).then_
      ((FunctionDecl.listApart methods).inScope (.single "this" true))).inClass .base
  | .class name (some parent) methods =>
    have hmethods := ((FunctionDecl.listApart methods).inScope (.single "this" true)).inScope
      (.single "super" true)
    have hchecked : Apart fun w =>
        if parent.name.text = name.text then w.report parent.name .inheritsFromItself else w :=
      .ite (fun _ => Iff.rfl) (apart_report parent.name _) .still
    exact ((apart_introduce name).then_
      (hchecked.then_ (((apart_read parent).then_ hmethods).inClass .derived))).inClass .base

theorem Stmt.listApart (ss : List Stmt) : Apart (Stmt.listResolve ss) := by
  match ss with
  | [] => exact .still
  | s :: ss => exact (Stmt.apart s).then_ (Stmt.listApart ss)

theorem FunctionDecl.apart (kind : BodyKind) (d : FunctionDecl) : Apart (d.resolve kind) := by
  match d with
  | ⟨name, parameters, body⟩ =>
    exact (((apart_parameters parameters).then_ (Stmt.listApart body)).inScope .empty).inBody kind

theorem FunctionDecl.listApart (ds : List FunctionDecl) : Apart (FunctionDecl.listResolve ds) := by
  match ds with
  | [] => exact .still
  | d :: ds => exact (FunctionDecl.apart d.methodKind d).then_ (FunctionDecl.listApart ds)

end

/-! ## Halves of a program -/

theorem Stmt.listResolve_append (p q : List Stmt) (w : Walk) :
    Stmt.listResolve (p ++ q) w = Stmt.listResolve q (Stmt.listResolve p w) := by
  induction p generalizing w with
  | nil => rfl
  | cons s p ih => exact ih (s.resolve w)

theorem Stmt.listAfter_nil (ss : List Stmt) : Stmt.listAfter [] ss = [] := by
  induction ss with
  | nil => rfl
  | cons s ss ih =>
    have hafter : s.after [] = [] := by cases s <;> rfl
    rw [Stmt.listAfter, List.foldl_cons, hafter]
    exact ih

/-- A walk through top-level statements ends where it began. -/
theorem Stmt.behind_top {p : List Stmt} (hp : Stmt.ListProper p) :
    (Stmt.listResolve p .start).Behind .start (Stmt.listResolve p .start) := by
  have hleads := ((Stmt.listResolves p hp : Resolves ∅ 0 _ _ _ _ _) .start).1
  refine ⟨⟨?_, (Stmt.listApart p).body .start, hleads.cls⟩, ?_, fun id => ?_⟩
  · rw [hleads.scopes]
    exact Stmt.listAfter_nil p
  · exact (List.append_nil _).symm
  · rw [show Walk.start.table[id]? = none from Std.TreeMap.getElem?_emptyc, Option.none_or]

/-- The faults of a tree, if it has any. -/
def scopeFaults : Except (List Diagnostic) Table → List Diagnostic
  | .ok _ => []
  | .error faults => faults

theorem Walk.result_ok_iff {w : Walk} : (∃ A, w.result = .ok A) ↔ w.faults.toList = [] := by
  unfold Walk.result
  rw [Array.toList_eq_nil_iff]
  split
  · next hempty => exact ⟨fun _ => Array.isEmpty_iff.mp hempty, fun _ => ⟨_, rfl⟩⟩
  · next hempty =>
    exact ⟨nofun, fun h => absurd (Array.isEmpty_iff.mpr h) hempty⟩

theorem Walk.scopeFaults_result (w : Walk) : scopeFaults w.result = w.faults.toList := by
  unfold Walk.result
  split
  · next hempty => exact (Array.toList_eq_nil_iff.mpr (Array.isEmpty_iff.mp hempty)).symm
  · rfl

/-- Two halves of a program have the distances and the faults of the whole. -/
theorem resolveProgram_append {p : List Stmt} (hp : Stmt.ListProper p) (q : List Stmt) :
    ((∃ C, resolveProgram (p ++ q) = .ok C) ↔
      (∃ A, resolveProgram p = .ok A) ∧ ∃ B, resolveProgram q = .ok B) ∧
    (∀ A B C : Table, resolveProgram p = .ok A → resolveProgram q = .ok B →
      resolveProgram (p ++ q) = .ok C → ∀ id : Nat, C[id]? = B[id]?.or A[id]?) ∧
    scopeFaults (resolveProgram (p ++ q)) =
      scopeFaults (resolveProgram p) ++ scopeFaults (resolveProgram q) := by
  have hbehind := (Stmt.listApart q).behind (Stmt.behind_top hp)
  unfold resolveProgram
  rw [Stmt.listResolve_append]
  refine ⟨?_, fun A B C hA hB hC id => ?_, ?_⟩
  · rw [Walk.result_ok_iff, Walk.result_ok_iff, Walk.result_ok_iff, hbehind.faults,
      List.append_eq_nil_iff]
  · rw [← (Resolves.result_eq_ok hA).2, ← (Resolves.result_eq_ok hB).2,
      ← (Resolves.result_eq_ok hC).2]
    exact hbehind.table id
  · rw [Walk.scopeFaults_result, Walk.scopeFaults_result, Walk.scopeFaults_result]
    exact hbehind.faults

end Lox
