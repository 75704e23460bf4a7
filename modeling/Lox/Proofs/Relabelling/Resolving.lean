/-
  Lox.Proofs.Relabelling.Resolving

  The resolver does not look at lines, and at numbers only to enter them into the table.

    * `Table.Renumbered` — the same distances under the new numbers;
    * `Walk.Relabelled` — two walks at the same position, of which the second one found
      the same on the new lines and under the new numbers;
    * `Walk.Moves` — walking through a tree and through the relabelled one keeps two
      walks so.

  `resolveProgram_relabel` says what this comes to for a whole program: numbers may
  change in any way in which different ones stay different.
-/
import Lox.Proofs.Relabelling.Parsing
import Lox.Proofs.Scoping.Independence

namespace Lox

section

variable (r : Relabelling)

/-- The second table has the same distances under the new numbers, and no others. -/
structure Table.Renumbered (T T' : Table) : Prop where
  same : ∀ id, T'[r.id id]? = T[id]?
  only : ∀ id' d, T'[id']? = some d → ∃ id, r.id id = id'

/-- Two walks at the same position. -/
structure Walk.Relabelled (w w' : Walk) : Prop extends w.SamePlace w' where
  table : Table.Renumbered r w.table w'.table
  faults : w'.faults = w.faults.map (Diagnostic.relabel r)

/-- Two ways on from such walks lead to such walks. -/
structure Walk.Moves (f f' : Walk → Walk) : Prop where
  relabelled {w w' : Walk} : w.Relabelled r w' → (f w).Relabelled r (f' w')

end

variable {r : Relabelling}

theorem Table.Renumbered.insert {T T' : Table} (h : Table.Renumbered r T T')
    (hr : r.id.Injective) (id d : Nat) :
    Table.Renumbered r (T.insert id d) (T'.insert (r.id id) d) := by
  refine ⟨fun other => ?_, fun id' d' hd' => ?_⟩
  · rw [Std.TreeMap.getElem?_insert, Std.TreeMap.getElem?_insert, h.same]
    by_cases hid : id = other
    · simp [hid]
    · have hid' : r.id id ≠ r.id other := fun heq => hid (hr heq)
      simp [hid, hid']
  · rw [Std.TreeMap.getElem?_insert] at hd'
    by_cases hid : r.id id = id'
    · exact ⟨id, hid⟩
    · simp only [Std.LawfulEqCmp.compare_eq_iff_eq, hid, if_false] at hd'
      exact h.only id' d' hd'

namespace Walk.Moves

variable {f f' g g' : Walk → Walk}

theorem still : Moves r (fun w => w) (fun w => w) := ⟨fun h => h⟩

theorem then_ (hf : Moves r f f') (hg : Moves r g g') :
    Moves r (fun w => g (f w)) (fun w => g' (f' w)) :=
  ⟨fun h => hg.relabelled (hf.relabelled h)⟩

theorem report (at_ : Lexeme) (fault : ScopeFault) :
    Moves r (·.report at_ fault) (·.report (at_.relabel r) fault) := by
  refine ⟨fun {w w'} h => ⟨⟨h.scopes, h.body, h.cls⟩, h.table, ?_⟩⟩
  show w'.faults.push _ = (w.faults.push _).map _
  rw [h.faults, Array.map_push]
  rfl

theorem mark (name : String) (ready : Bool) : Moves r (·.mark name ready) (·.mark name ready) := by
  refine ⟨fun {w w'} h => ?_⟩
  dsimp only [Walk.mark]
  rw [h.scopes]
  cases hscopes : w.scopes with
  | nil => exact h
  | cons scope outer => exact ⟨⟨rfl, h.body, h.cls⟩, h.table, h.faults⟩

theorem declare (name : Lexeme) : Moves r (·.declare name) (·.declare (name.relabel r)) := by
  refine ⟨fun {w w'} h => ?_⟩
  have hmarked := (mark (r := r) name.text false).relabelled h
  have hhere : w'.declaresHere (name.relabel r).text = w.declaresHere name.text :=
    h.declaresHere name.text
  dsimp only [Walk.declare]
  rw [hhere]
  split
  · exact (report name .alreadyDeclared).relabelled hmarked
  · exact hmarked

theorem define (name : Lexeme) : Moves r (·.define name) (·.define (name.relabel r)) :=
  mark name.text true

theorem introduce (name : Lexeme) : Moves r (·.introduce name) (·.introduce (name.relabel r)) :=
  (declare name).then_ (define name)

theorem bind (hr : r.id.Injective) (use : Occurrence) :
    Moves r (·.bind use) (·.bind (use.relabel r)) := by
  refine ⟨fun {w w'} h => ?_⟩
  have hdistance : w'.distance? (use.relabel r).name.text = w.distance? use.name.text := by
    rw [Walk.distance?, Walk.distance?, h.scopes]
    rfl
  dsimp only [Walk.bind]
  rw [hdistance]
  cases w.distance? use.name.text with
  | none => exact h
  | some d => exact ⟨⟨h.scopes, h.body, h.cls⟩, h.table.insert hr use.id d, h.faults⟩

theorem read (hr : r.id.Injective) (use : Occurrence) :
    Moves r (·.read use) (·.read (use.relabel r)) := by
  refine ⟨fun {w w'} h => ?_⟩
  have hown : w'.readsOwnInitializer (use.relabel r).name.text =
      w.readsOwnInitializer use.name.text := h.readsOwnInitializer _
  dsimp only [Walk.read]
  rw [hown]
  split
  · exact (bind hr use).relabelled ((report use.name .readInOwnInitializer).relabelled h)
  · exact (bind hr use).relabelled h

theorem inScope (scope : Scope) (hf : Moves r f f') :
    Moves r (·.inScope scope f) (·.inScope scope f') := by
  refine ⟨fun {w w'} h => ?_⟩
  have hinner : Walk.Relabelled r { w with scopes := scope :: w.scopes }
      { w' with scopes := scope :: w'.scopes } :=
    ⟨⟨congrArg (scope :: ·) h.scopes, h.body, h.cls⟩, h.table, h.faults⟩
  have hafter := hf.relabelled hinner
  exact ⟨⟨congrArg List.tail hafter.scopes, hafter.body, hafter.cls⟩, hafter.table, hafter.faults⟩

theorem inBody (body : BodyKind) (hf : Moves r f f') :
    Moves r (fun w => { f { w with body } with body := w.body })
      (fun w => { f' { w with body } with body := w.body }) := by
  refine ⟨fun {w w'} h => ?_⟩
  have hinner : Walk.Relabelled r { w with body } { w' with body } :=
    ⟨⟨h.scopes, rfl, h.cls⟩, h.table, h.faults⟩
  have hafter := hf.relabelled hinner
  exact ⟨⟨hafter.scopes, h.body, hafter.cls⟩, hafter.table, hafter.faults⟩

theorem inClass (cls : ClassKind) (hf : Moves r f f') :
    Moves r (fun w => { f { w with cls } with cls := w.cls })
      (fun w => { f' { w with cls } with cls := w.cls }) := by
  refine ⟨fun {w w'} h => ?_⟩
  have hinner : Walk.Relabelled r { w with cls } { w' with cls } :=
    ⟨⟨h.scopes, h.body, rfl⟩, h.table, h.faults⟩
  have hafter := hf.relabelled hinner
  exact ⟨⟨hafter.scopes, hafter.body, h.cls⟩, hafter.table, hafter.faults⟩

theorem as (cls : ClassKind) : Moves r (fun w => { w with cls }) (fun w => { w with cls }) :=
  ⟨fun h => ⟨⟨h.scopes, h.body, rfl⟩, h.table, h.faults⟩⟩

theorem this (hr : r.id.Injective) (keyword : Occurrence) :
    Moves r (Expr.resolve (.this keyword)) (Expr.resolve (.this (keyword.relabel r))) := by
  refine ⟨fun {w w'} h => ?_⟩
  show Walk.Relabelled r (if w.cls = .outside then _ else _) (if w'.cls = .outside then _ else _)
  rw [h.cls]
  split
  · exact (report keyword.name .thisOutsideClass).relabelled h
  · exact (bind hr keyword).relabelled h

theorem super (hr : r.id.Injective) (keyword : Occurrence) (method : Lexeme) :
    Moves r (Expr.resolve (.super keyword method))
      (Expr.resolve (.super (keyword.relabel r) (method.relabel r))) := by
  refine ⟨fun {w w'} h => ?_⟩
  unfold Expr.resolve
  dsimp only
  rw [h.cls]
  cases w.cls with
  | outside => exact ((report keyword.name .superOutsideClass).then_ (bind hr keyword)).relabelled h
  | base =>
    exact ((report keyword.name .superWithoutSuperclass).then_ (bind hr keyword)).relabelled h
  | derived => exact (bind hr keyword).relabelled h

theorem checkReturn (keyword : Lexeme) (hasValue : Bool) :
    Moves r (·.checkReturn keyword hasValue) (·.checkReturn (keyword.relabel r) hasValue) := by
  refine ⟨fun {w w'} h => ?_⟩
  have hchecked : Walk.Relabelled r
      (if w.body = .topLevel then w.report keyword .returnAtTopLevel else w)
      (if w.body = .topLevel then w'.report (keyword.relabel r) .returnAtTopLevel else w') := by
    split
    · exact (report keyword .returnAtTopLevel).relabelled h
    · exact h
  dsimp only [Walk.checkReturn]
  rw [h.body]
  split
  · exact (report keyword .returnValueInInitializer).relabelled hchecked
  · exact hchecked

end Walk.Moves

/-! ## Trees -/

open Walk

mutual

theorem Expr.moves (hr : r.id.Injective) (e : Expr) : Moves r e.resolve (e.relabel r).resolve := by
  cases e with
  | literal value => exact .still
  | grouping inner => exact Expr.moves hr inner
  | unary op sign operand => exact Expr.moves hr operand
  | binary op sign left right => exact (Expr.moves hr left).then_ (Expr.moves hr right)
  | logical op sign left right => exact (Expr.moves hr left).then_ (Expr.moves hr right)
  | name use => exact .read hr use
  | assign target value => exact (Expr.moves hr value).then_ (.bind hr target)
  | call callee paren arguments =>
    exact (Expr.moves hr callee).then_ (Expr.listMoves hr arguments)
  | get object property => exact Expr.moves hr object
  | set object property value => exact (Expr.moves hr value).then_ (Expr.moves hr object)
  | this keyword => exact .this hr keyword
  | super keyword method => exact .super hr keyword method

theorem Expr.listMoves (hr : r.id.Injective) (es : List Expr) :
    Moves r (Expr.listResolve es) (Expr.listResolve (Expr.listRelabel r es)) := by
  cases es with
  | nil => exact .still
  | cons e es => exact (Expr.moves hr e).then_ (Expr.listMoves hr es)

end

theorem Expr.optionMoves (hr : r.id.Injective) (e : Option Expr) :
    Moves r (Expr.optionResolve e) (Expr.optionResolve (e.map (Expr.relabel r))) := by
  cases e with
  | none => exact .still
  | some e => exact Expr.moves hr e

mutual

theorem Stmt.moves (hr : r.id.Injective) (s : Stmt) : Moves r s.resolve (s.relabel r).resolve := by
  match s with
  | .expression value => exact Expr.moves hr value
  | .print value => exact Expr.moves hr value
  | .var name initializer =>
    exact ((Moves.declare name).then_ (Expr.optionMoves hr initializer)).then_ (.define name)
  | .block body => exact .inScope .empty (Stmt.listMoves hr body)
  | .ifElse condition yes none => exact (Expr.moves hr condition).then_ (Stmt.moves hr yes)
  | .ifElse condition yes (some no) =>
    exact ((Expr.moves hr condition).then_ (Stmt.moves hr yes)).then_ (Stmt.moves hr no)
  | .while condition body => exact (Expr.moves hr condition).then_ (Stmt.moves hr body)
  | .break keyword => exact .still
  | .function decl =>
    have hdecl := (Moves.introduce decl.name).then_ (FunctionDecl.moves hr .function decl)
    rw [← FunctionDecl.relabel_name] at hdecl
    exact hdecl
  | .return keyword value =>
    have hchecked : Moves r (·.checkReturn keyword value.isSome)
        (·.checkReturn (keyword.relabel r) (value.map (Expr.relabel r)).isSome) := by
      rw [Option.isSome_map]
      exact .checkReturn keyword value.isSome
    exact hchecked.then_ (Expr.optionMoves hr value)
  | .class name none methods =>
    exact .inClass .base <| (Moves.introduce name).then_ <|
      .inScope _ (FunctionDecl.listMoves hr methods)
  | .class name (some parent) methods =>
    have hchecked : Moves r
        (fun w => if parent.name.text = name.text then w.report parent.name .inheritsFromItself
          else w)
        (fun w => if parent.name.text = name.text then
          w.report (parent.name.relabel r) .inheritsFromItself else w) := by
      refine ⟨fun {w w'} h => ?_⟩
      split
      · exact (Moves.report parent.name .inheritsFromItself).relabelled h
      · exact h
    exact .inClass .base <| (((Moves.introduce name).then_ hchecked).then_ (.as .derived)).then_ <|
      (Moves.read hr parent).then_ <|
        .inScope _ <| .inScope _ (FunctionDecl.listMoves hr methods)

theorem Stmt.listMoves (hr : r.id.Injective) (ss : List Stmt) :
    Moves r (Stmt.listResolve ss) (Stmt.listResolve (Stmt.listRelabel r ss)) := by
  match ss with
  | [] => exact .still
  | s :: ss => exact (Stmt.moves hr s).then_ (Stmt.listMoves hr ss)

theorem FunctionDecl.moves (hr : r.id.Injective) (kind : BodyKind) (d : FunctionDecl) :
    Moves r (d.resolve kind) ((d.relabel r).resolve kind) := by
  match d with
  | ⟨name, parameters, body⟩ =>
    have hparameters : Moves r (parameters.foldl Walk.introduce)
        ((parameters.map (Lexeme.relabel r)).foldl Walk.introduce) := by
      induction parameters with
      | nil => exact .still
      | cons p ps ih => exact (Moves.introduce p).then_ ih
    exact .inBody kind <| .inScope .empty <| hparameters.then_ (Stmt.listMoves hr body)

theorem FunctionDecl.listMoves (hr : r.id.Injective) (ds : List FunctionDecl) :
    Moves r (FunctionDecl.listResolve ds)
      (FunctionDecl.listResolve (FunctionDecl.listRelabel r ds)) := by
  match ds with
  | [] => exact .still
  | d :: ds =>
    have hkind : (d.relabel r).methodKind = d.methodKind := by
      rw [FunctionDecl.methodKind, FunctionDecl.relabel_name]
      rfl
    have hd := FunctionDecl.moves hr d.methodKind d
    exact (hkind ▸ hd : Moves r (d.resolve d.methodKind)
      ((d.relabel r).resolve (d.relabel r).methodKind)).then_ (FunctionDecl.listMoves hr ds)

end

/-! ## Whole trees -/

/-- The table of a tree or its faults: the same, on the new lines and under the new
    numbers. -/
inductive Relabelling.Resolved (r : Relabelling) :
    Except (List Diagnostic) Table → Except (List Diagnostic) Table → Prop
  | ok {T T' : Table} : Table.Renumbered r T T' → Resolved r (.ok T) (.ok T')
  | error {ds : List Diagnostic} : Resolved r (.error ds) (.error (ds.map (Diagnostic.relabel r)))

theorem Walk.Moves.result {f f' : Walk → Walk} (h : Moves r f f') :
    r.Resolved (f .start).result (f' .start).result := by
  have hstart : Walk.Relabelled r .start .start :=
    ⟨⟨rfl, rfl, rfl⟩, ⟨fun _ => rfl, fun _ _ h => nomatch h⟩, by simp [Walk.start]⟩
  have hend := h.relabelled hstart
  unfold Walk.result
  rw [hend.faults, isEmpty_map, Array.toList_map]
  split
  · exact .ok hend.table
  · exact .error

theorem resolveProgram_relabel (hr : r.id.Injective) (program : List Stmt) :
    r.Resolved (resolveProgram program) (resolveProgram (Stmt.listRelabel r program)) :=
  (Stmt.listMoves hr program).result

theorem resolveExpression_relabel (hr : r.id.Injective) (e : Expr) :
    r.Resolved (resolveExpression e) (resolveExpression (e.relabel r)) :=
  (Expr.moves hr e).result

end Lox
