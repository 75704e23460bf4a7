/-
  Lox.Proofs.Occurrences.Entering

  What the resolver enters into its table, one entry after another.

    * `Expr.entries`, `Stmt.entries` — the occurrences that a walk through a tree enters,
      with their distances, in the order in which it comes to them;
    * `Table.enter` — a table with entries added in their order;
    * `Walk.Enters` — a walk adds just these entries to its table, each for another
      occurrence of the tree, so that it has no others (`Walk.Enters.unused`);
    * `Stmt.listEnters`, `Expr.enters` — walks through trees do so, whether or not they find
      faults.
-/
import Lox.Proofs.Numbering
import Lox.Scope.Resolver
import Mathlib.Data.List.Perm.Subperm

namespace Lox

/-- A table with entries added in their order. -/
def Table.enter (table : Table) (entries : List (Nat × Nat)) : Table :=
  entries.foldl (fun t entry => t.insert entry.1 entry.2) table

theorem Table.enter_append (table : Table) (front back : List (Nat × Nat)) :
    table.enter (front ++ back) = (table.enter front).enter back :=
  List.foldl_append

theorem Table.getElem?_enter_of_not_mem (table : Table) {entries : List (Nat × Nat)} {id : Nat}
    (h : id ∉ entries.map Prod.fst) : (table.enter entries)[id]? = table[id]? := by
  induction entries generalizing table with
  | nil => rfl
  | cons entry entries ih =>
    rw [List.map_cons, List.mem_cons, not_or] at h
    refine (ih (table.insert entry.1 entry.2) h.2).trans ?_
    rw [Std.TreeMap.getElem?_insert]
    simp [Ne.symm h.1]

/-! ## Entries in their order -/

/-- Inside one more scope. -/
def Walk.within (w : Walk) (scope : Scope) : Walk := { w with scopes := scope :: w.scopes }

/-- What is entered for an occurrence: nothing if it means no local name. -/
def Walk.entry (w : Walk) (use : Occurrence) : List (Nat × Nat) :=
  (w.distance? use.name.text).toList.map (use.id, ·)

mutual

/-- What walking through an expression enters. -/
def Expr.entries : Expr → Walk → List (Nat × Nat)
  | .literal _, _ => []
  | .grouping inner, w => inner.entries w
  | .unary _ _ operand, w => operand.entries w
  | .binary _ _ left right, w => left.entries w ++ right.entries (left.resolve w)
  | .logical _ _ left right, w => left.entries w ++ right.entries (left.resolve w)
  | .name use, w => w.entry use
  | .assign target value, w => value.entries w ++ (value.resolve w).entry target
  | .call callee _ arguments, w =>
    callee.entries w ++ Expr.listEntries arguments (callee.resolve w)
  | .get object _, w => object.entries w
  | .set object _ value, w => value.entries w ++ object.entries (value.resolve w)
  | .this keyword, w => if w.cls = .outside then [] else w.entry keyword
  | .super keyword _, w => w.entry keyword

/-- What walking through expressions enters. -/
def Expr.listEntries : List Expr → Walk → List (Nat × Nat)
  | [], _ => []
  | e :: es, w => e.entries w ++ Expr.listEntries es (e.resolve w)

end

/-- What walking through an expression that may be missing enters. -/
def Expr.optionEntries : Option Expr → Walk → List (Nat × Nat)
  | none, _ => []
  | some e, w => e.entries w

mutual

/-- What walking through a statement enters. -/
def Stmt.entries : Stmt → Walk → List (Nat × Nat)
  | .expression value, w => value.entries w
  | .print value, w => value.entries w
  | .var name initializer, w => Expr.optionEntries initializer (w.declare name)
  | .block body, w => Stmt.listEntries body (w.within .empty)
  | .ifElse condition yes none, w => condition.entries w ++ yes.entries (condition.resolve w)
  | .ifElse condition yes (some no), w =>
    condition.entries w ++ yes.entries (condition.resolve w) ++
      no.entries (yes.resolve (condition.resolve w))
  | .while condition body, w => condition.entries w ++ body.entries (condition.resolve w)
  | .break _, _ => []
  | .function decl, w => decl.entries .function (w.introduce decl.name)
  | .return keyword value, w => Expr.optionEntries value (w.checkReturn keyword value.isSome)
  | .class name none methods, w =>
    let named := { w with cls := .base }.introduce name
    FunctionDecl.listEntries methods (named.within (.single "this" true))
  | .class name (some parent) methods, w =>
    let named := { w with cls := .base }.introduce name
    let checked :=
      if parent.name.text = name.text then named.report parent.name .inheritsFromItself else named
    let derived := { checked with cls := .derived }
    derived.entry parent ++ FunctionDecl.listEntries methods
      (((derived.read parent).within (.single "super" true)).within (.single "this" true))

/-- What walking through statements enters. -/
def Stmt.listEntries : List Stmt → Walk → List (Nat × Nat)
  | [], _ => []
  | s :: ss, w => s.entries w ++ Stmt.listEntries ss (s.resolve w)

/-- What walking through a function enters. -/
def FunctionDecl.entries (kind : BodyKind) : FunctionDecl → Walk → List (Nat × Nat)
  | ⟨_, parameters, body⟩, w =>
    Stmt.listEntries body
      (parameters.foldl Walk.introduce ({ w with body := kind }.within .empty))

/-- What walking through methods enters. -/
def FunctionDecl.listEntries : List FunctionDecl → Walk → List (Nat × Nat)
  | [], _ => []
  | d :: ds, w => d.entries d.methodKind w ++ FunctionDecl.listEntries ds (d.resolve d.methodKind w)

end

/-! ## Walks that enter -/

namespace Walk

/-- A walk adds entries to its table, and these are for different occurrences among the
    uses. -/
structure Enters (f : Walk → Walk) (entries : Walk → List (Nat × Nat)) (uses : List Use) :
    Prop where
  table : ∀ w, (f w).table = w.table.enter (entries w)
  own : ∀ w, ((entries w).map Prod.fst).Subperm (uses.map (·.occurrence.id))

namespace Enters

variable {f f' : Walk → Walk} {g g' : Walk → List (Nat × Nat)} {us vs : List Use}

/-- A walk that does not change its table. -/
theorem quiet (h : ∀ w, (f w).table = w.table) : Enters f (fun _ => []) [] :=
  ⟨h, fun _ => .refl _⟩

theorem then_ (h : Enters f g us) (h' : Enters f' g' vs) :
    Enters (fun w => f' (f w)) (fun w => g w ++ g' (f w)) (us ++ vs) := by
  refine ⟨fun w => ?_, fun w => ?_⟩
  · rw [h'.table, h.table, Table.enter_append]
  · rw [List.map_append, List.map_append]
    exact (h.own w).append (h'.own (f w))

theorem perm (h : Enters f g us) (hperm : us.Perm vs) : Enters f g vs :=
  ⟨h.table, fun w => (h.own w).trans (hperm.map _).subperm⟩

/-- Before a walk that enters, one that does not. -/
theorem behind (hf : ∀ w, (f w).table = w.table) (h : Enters f' g' vs) :
    Enters (fun w => f' (f w)) (fun w => g' (f w)) vs :=
  (quiet hf).then_ h

/-- After it, one that does not. -/
theorem before (h : Enters f g us) (hf' : ∀ w, (f' w).table = w.table) :
    Enters (fun w => f' (f w)) g us :=
  ⟨fun w => (hf' _).trans (h.table w), h.own⟩

theorem bind (kind : UseKind) (use : Occurrence) :
    Enters (·.bind use) (·.entry use) [⟨kind, use⟩] := by
  refine ⟨fun w => ?_, fun w => ?_⟩
  · unfold Walk.bind entry
    cases w.distance? use.name.text <;> rfl
  · unfold entry
    cases w.distance? use.name.text with
    | none => exact List.nil_subperm
    | some d => exact .refl _

theorem read (use : Occurrence) : Enters (·.read use) (·.entry use) [⟨.read, use⟩] := by
  have hbind := bind .read use
  refine ⟨fun w => ?_, hbind.own⟩
  -- A fault that is reported does not change the scopes.
  dsimp only [Walk.read]
  split
  · exact hbind.table (w.report use.name .readInOwnInitializer)
  · exact hbind.table w

theorem inScope (scope : Scope) (h : Enters f g us) :
    Enters (·.inScope scope f) (fun w => g (w.within scope)) us :=
  ⟨fun w => h.table (w.within scope), fun _ => h.own _⟩

/-- The table of a walk that found no fault: its entries, and nothing else. -/
theorem result (h : Enters f g us) {T : Table} (hT : (f .start).result = .ok T) :
    T = Table.enter ∅ (g .start) := by
  unfold Walk.result at hT
  split at hT
  · cases hT
    exact h.table .start
  · cases hT

/-- For a number that is not one of the tree nothing is entered. -/
theorem getElem?_table (h : Enters f g us) (w : Walk) {id : Nat}
    (hid : ∀ use ∈ us, use.occurrence.id ≠ id) : (f w).table[id]? = w.table[id]? := by
  rw [h.table w, Table.getElem?_enter_of_not_mem]
  intro hmem
  obtain ⟨use, huse, heq⟩ := List.mem_map.mp ((h.own w).subset hmem)
  exact hid use huse heq

/-- A number that is not one of the tree has no entry. -/
theorem unused (h : Enters f g us) {T : Table} (hT : (f .start).result = .ok T) {id : Nat}
    (hid : ∀ use ∈ us, use.occurrence.id ≠ id) : T[id]? = none := by
  have hstart := h.getElem?_table .start hid
  rw [h.table .start] at hstart
  rw [h.result hT]
  exact hstart.trans Std.TreeMap.getElem?_emptyc

end Enters

/-! ## Steps that enter nothing -/

theorem table_mark (w : Walk) (name : String) (ready : Bool) :
    (w.mark name ready).table = w.table := by
  unfold mark
  split <;> rfl

theorem table_declare (w : Walk) (name : Lexeme) : (w.declare name).table = w.table := by
  dsimp only [declare]
  split <;> exact w.table_mark _ _

theorem table_introduce (w : Walk) (name : Lexeme) : (w.introduce name).table = w.table :=
  ((w.declare name).table_mark _ _).trans (w.table_declare name)

theorem table_introduceAll (parameters : List Lexeme) (w : Walk) :
    (parameters.foldl introduce w).table = w.table := by
  induction parameters generalizing w with
  | nil => rfl
  | cons p ps ih => exact (ih _).trans (w.table_introduce p)

theorem table_checkReturn (w : Walk) (keyword : Lexeme) (hasValue : Bool) :
    (w.checkReturn keyword hasValue).table = w.table := by
  dsimp only [checkReturn]
  split <;> split <;> rfl

end Walk

/-! ## Trees -/

open Walk

mutual

theorem Expr.enters (e : Expr) : Enters e.resolve e.entries e.uses := by
  cases e with
  | literal value => exact .quiet fun _ => rfl
  | grouping inner => exact inner.enters
  | unary op sign operand => exact operand.enters
  | binary op sign left right => exact left.enters.then_ right.enters
  | logical op sign left right => exact left.enters.then_ right.enters
  | name use => exact .read use
  | assign target value =>
    exact (value.enters.then_ (.bind .assign target)).perm List.perm_append_comm
  | call callee paren arguments => exact callee.enters.then_ (Expr.listEnters arguments)
  | get object property => exact object.enters
  | set object property value => exact (value.enters.then_ object.enters).perm List.perm_append_comm
  | this keyword =>
    -- Outside all classes `this` is a fault, and not looked for.
    have hbind := Enters.bind .this keyword
    refine ⟨fun w => ?_, fun w => ?_⟩
    · unfold Expr.resolve Expr.entries
      split
      · rfl
      · exact hbind.table w
    · unfold Expr.entries
      split
      · exact List.nil_subperm
      · exact hbind.own w
  | super keyword method =>
    -- A misplaced `super` is a fault, too, but it is looked for all the same.
    have hbind := Enters.bind .super keyword
    refine ⟨fun w => ?_, hbind.own⟩
    unfold Expr.resolve
    dsimp only
    cases w.cls with
    | outside => exact hbind.table (w.report keyword.name .superOutsideClass)
    | base => exact hbind.table (w.report keyword.name .superWithoutSuperclass)
    | derived => exact hbind.table w

theorem Expr.listEnters (es : List Expr) :
    Enters (Expr.listResolve es) (Expr.listEntries es) (Expr.listUses es) := by
  cases es with
  | nil => exact .quiet fun _ => rfl
  | cons e es => exact e.enters.then_ (Expr.listEnters es)

end

theorem Expr.optionEnters (e : Option Expr) :
    Enters (Expr.optionResolve e) (Expr.optionEntries e) (Expr.optionUses e) := by
  cases e with
  | none => exact .quiet fun _ => rfl
  | some e => exact e.enters

mutual

theorem Stmt.enters (s : Stmt) : Enters s.resolve s.entries s.uses := by
  match s with
  | .expression value => exact value.enters
  | .print value => exact value.enters
  | .var name initializer =>
    exact (Enters.behind (·.table_declare name) (Expr.optionEnters initializer)).before
      (·.table_mark name.text true)
  | .block body => exact .inScope .empty (Stmt.listEnters body)
  | .ifElse condition yes none => exact condition.enters.then_ yes.enters
  | .ifElse condition yes (some no) => exact (condition.enters.then_ yes.enters).then_ no.enters
  | .while condition body => exact condition.enters.then_ body.enters
  | .break keyword => exact .quiet fun _ => rfl
  | .function decl =>
    exact .behind (f := (·.introduce decl.name)) (·.table_introduce decl.name)
      (decl.enters .function)
  | .return keyword value =>
    exact .behind (f := (·.checkReturn keyword value.isSome))
      (·.table_checkReturn keyword value.isSome) (Expr.optionEnters value)
  | .class name none methods =>
    have hnamed (w : Walk) : ({ w with cls := .base }.introduce name).table = w.table :=
      table_introduce _ name
    have hmethods := Enters.inScope (.single "this" true) (FunctionDecl.listEnters methods)
    exact ⟨(Enters.behind hnamed hmethods).table, (Enters.behind hnamed hmethods).own⟩
  | .class name (some parent) methods =>
    have hnamed (w : Walk) :
        (if parent.name.text = name.text then
          ({ w with cls := .base }.introduce name).report parent.name .inheritsFromItself
          else { w with cls := .base }.introduce name).table = w.table := by
      split <;> exact table_introduce _ name
    have hmethods := Enters.inScope (.single "super" true)
      (.inScope (.single "this" true) (FunctionDecl.listEnters methods))
    have hderived := Enters.behind (f := fun w => { (if parent.name.text = name.text then
          ({ w with cls := .base }.introduce name).report parent.name .inheritsFromItself
          else { w with cls := .base }.introduce name) with cls := .derived }) hnamed
      ((Enters.read parent).then_ hmethods)
    exact ⟨hderived.table, hderived.own⟩

theorem Stmt.listEnters (ss : List Stmt) :
    Enters (Stmt.listResolve ss) (Stmt.listEntries ss) (Stmt.listUses ss) := by
  match ss with
  | [] => exact .quiet fun _ => rfl
  | s :: ss => exact s.enters.then_ (Stmt.listEnters ss)

theorem FunctionDecl.enters (kind : BodyKind) (d : FunctionDecl) :
    Enters (d.resolve kind) (d.entries kind) d.uses := by
  match d with
  | ⟨name, parameters, body⟩ =>
    have hbody := Enters.inScope .empty
      (.behind (Walk.table_introduceAll parameters) (Stmt.listEnters body))
    exact ⟨fun w => hbody.table { w with body := kind }, fun w => hbody.own { w with body := kind }⟩

theorem FunctionDecl.listEnters (ds : List FunctionDecl) :
    Enters (FunctionDecl.listResolve ds) (FunctionDecl.listEntries ds)
      (FunctionDecl.listUses ds) := by
  match ds with
  | [] => exact .quiet fun _ => rfl
  | d :: ds => exact (d.enters d.methodKind).then_ (FunctionDecl.listEnters ds)

end

end Lox
