/-
  Lox.Proofs.Loops.Rule

  The rule for a `for`, and the tree that stands for one.

    * `ForLoop` — the parts of a `for`; `ForLoop.tree` is the tree that the parser makes
      of them;
    * `ForLoop.exec` — the rule: the initializer in a scope of its own, and inside it the
      rounds (`forRounds`) with the increment behind each body that ends normally;
    * `ForLoop.resolve`, `ForLoop.Scoped` — the distances that go with this one scope;
    * `ForLoop.tree_matches` — tree and rule do the same, though the tree has no scope for an
      initializer that is missing, and one more around body and increment;
    * `ForLoop.exists_scoped` — wherever the tree can stand, the rule can.
-/
import Lox.Proofs.Grammar.ExprComplete
import Lox.Proofs.Grammar.StmtSound
import Lox.Proofs.Loops.Executing
import Lox.Proofs.Loops.Spots
import Lox.Proofs.Scoping.Resolution
import Lox.Proofs.Scoping.Wording

namespace Lox

open RunM

/-! ## The parts of a `for` -/

/-- What stands in a `for`. -/
structure ForLoop where
  first : Option Stmt
  condition : Option Expr
  increment : Option Expr
  body : Stmt
  /-- The grammar has no declarations here. -/
  plain : body.Plain

/-! ## Parts that may be missing -/

/-- Whether a condition holds; one that is missing always does. -/
def Expr.optionHolds (call : Invoke) : Option Expr → RunM Bool
  | none => pure true
  | some e => do return (← e.eval call).isTruthy

namespace Stmt

/-- Executes a statement that may be missing. -/
def optionExec (call : Invoke) (bound : Nat) : Option Stmt → RunM Flow
  | none => pure .normal
  | some s => s.exec call bound

/-- Walks through a statement that may be missing. -/
def optionResolve : Option Stmt → Walk → Walk
  | none, w => w
  | some s, w => s.resolve w

def OptionProper : Option Stmt → Prop
  | none => True
  | some s => s.Proper

def OptionScoped (T : Table) (n : Nat) (scopes : List Scope) : Option Stmt → Prop
  | none => True
  | some s => s.Scoped T n scopes

/-- The scopes behind a statement that may be missing. -/
def optionAfter (scopes : List Scope) : Option Stmt → List Scope
  | none => scopes
  | some s => s.after scopes

variable {T : Table} {n : Nat}

theorem optionResolves (s : Option Stmt) (hs : OptionProper s) :
    Resolves T n Scope.Settled (optionResolve s) (s.elim [] Stmt.uses)
      (fun scopes => optionAfter scopes s) fun scopes => OptionScoped T n scopes s := by
  cases s with
  | none => exact .still
  | some s => exact s.resolves hs

theorem settled_optionAfter {s : Option Stmt} (hs : OptionProper s) {scopes : List Scope}
    {cls : ClassKind} (h : Scope.Settled scopes cls) :
    Scope.Settled (optionAfter scopes s) cls := by
  cases s with
  | none => exact h
  | some s => exact settled_after hs h

theorem tail_optionAfter (s : Option Stmt) (scopes : List Scope) :
    (optionAfter scopes s).tail = scopes.tail := by
  cases s with
  | none => rfl
  | some s => exact tail_listAfter [s] scopes

end Stmt

namespace ForLoop

/-! ## The tree -/

/-- A body with the increment behind it. -/
def round (l : ForLoop) : Stmt :=
  match l.increment with
  | none => l.body
  | some e => .block [l.body, .expression e]

/-- The rounds, without the initializer. -/
def loop (l : ForLoop) : Stmt := .while (l.condition.getD (.literal (.bool true))) l.round

/-- The tree that the parser makes. -/
def tree (l : ForLoop) : Stmt := Parser.forTree l.first l.condition l.increment l.body

theorem tree_eq (l : ForLoop) :
    l.tree = match l.first with | none => l.loop | some s => .block [s, l.loop] := rfl

theorem tree_plain (l : ForLoop) : l.tree.Plain := by
  rw [tree_eq]
  split <;> trivial

/-- Other numbers for its occurrences. -/
def renumber (l : ForLoop) (ν : Nat → Nat) : ForLoop where
  first := l.first.map (Stmt.relabel (.numbers ν))
  condition := l.condition.map (Expr.relabel (.numbers ν))
  increment := l.increment.map (Expr.relabel (.numbers ν))
  body := l.body.relabel (.numbers ν)
  plain := l.plain.relabel _

/-- The grammar makes such trees of what begins with the word `for`. -/
theorem of_derives {open_ : Bool} {s : Stmt} {word : Token} {rest : List Token}
    (h : (StmtPhrase.statement open_ s).Derives (word :: rest))
    (hword : word.kind = .keyword .forWord) : ∃ l : ForLoop, s = l.tree := by
  -- Every other statement begins with another word, or as an expression does.
  generalize hts : word :: rest = ts at h
  cases h with
  | «for» _ _ _ _ _ _ _ hbody => exact ⟨⟨_, _, _, _, hbody.plain⟩, rfl⟩
  | expression he _ =>
    obtain ⟨t, us, rfl, hbegins⟩ := he.begins
    cases hts
    rw [hword] at hbegins
    cases hbegins with
    | primary hprimary =>
      cases hprimary with
      | constant hconstant => cases hconstant
    | inFront hsign => cases hsign
  | _ =>
    cases hts
    simp_all

end ForLoop

/-! ## The rule -/

/-- Makes rounds while a condition holds.  Behind a body that ends normally the increment is
    evaluated, once, before the condition is asked again. -/
def forRounds (condition : RunM Bool) (body : RunM Flow) (increment : RunM Value) : Nat → RunM Flow
  | 0 => throw .outOfFuel
  | n + 1 => do
    if ← condition then
      match ← body with
      | .normal => do
        let _ ← increment
        forRounds condition body increment n
      | .broken => pure .normal
      | .returned v => pure (.returned v)
    else pure .normal

/-- The rounds are those of a loop whose body has the increment at its end. -/
theorem forRounds_eq (condition : RunM Bool) (body : RunM Flow) (increment : RunM Value) (n : Nat) :
    forRounds condition body increment n = whileLoop condition
      (do match ← body with
        | .normal => do
          let _ ← increment
          pure .normal
        | flow => pure flow) n := by
  induction n with
  | zero => rfl
  | succ n ih =>
    simp only [forRounds, whileLoop, bind_assoc, ih]
    congr 1
    funext holds
    cases holds with
    | false => rfl
    | true =>
      simp only [if_true]
      congr 1
      funext flow
      cases flow with
      | normal => simp only [bind_assoc, pure_bind]
      | broken => simp only [pure_bind]
      | returned v => simp only [pure_bind]

namespace ForLoop

section

variable (call : Invoke) (bound : Nat) (l : ForLoop)

/-- The rule for a `for`. -/
def exec : RunM Flow := RunM.inScope do
  match ← Stmt.optionExec call bound l.first with
  | .normal =>
    forRounds (Expr.optionHolds call l.condition) (l.body.exec call bound)
      (Expr.optionEval call l.increment) bound
  | flow => pure flow

/-- Walks through a `for`, with one scope around all of its parts. -/
def resolve (w : Walk) : Walk := w.inScope .empty fun inner =>
  Expr.optionResolve l.increment (l.body.resolve
    (Expr.optionResolve l.condition (Stmt.optionResolve l.first inner)))

/-- The scopes around condition, body and increment. -/
def inside (scopes : List Scope) : List Scope := Stmt.optionAfter (.empty :: scopes) l.first

end

theorem inside_renumber (l : ForLoop) (ν : Nat → Nat) (scopes : List Scope) :
    (l.renumber ν).inside scopes = l.inside scopes := by
  obtain ⟨first, condition, increment, body, plain⟩ := l
  cases first with
  | none => rfl
  | some s => exact s.after_relabel _ _

/-- The table is right for the rule inside the scopes. -/
structure Scoped (T : Table) (n : Nat) (scopes : List Scope) (l : ForLoop) : Prop where
  first : Stmt.OptionScoped T n (.empty :: scopes) l.first
  condition : Expr.OptionScoped T n (l.inside scopes) l.condition
  body : l.body.Scoped T n (l.inside scopes)
  increment : Expr.OptionScoped T n (l.inside scopes) l.increment

variable {T T' : Table} {n n' : Nat} {l : ForLoop}

/-! ## Its distances -/

/-- The parts of a proper tree. -/
theorem proper_parts (h : l.tree.Proper) :
    Stmt.OptionProper l.first ∧ Expr.OptionProper l.condition ∧ l.body.Proper ∧
      Expr.OptionProper l.increment := by
  obtain ⟨first, condition, increment, body, plain⟩ := l
  have hloop (h : Stmt.Proper (ForLoop.loop ⟨first, condition, increment, body, plain⟩)) :
      Expr.OptionProper condition ∧ body.Proper ∧ Expr.OptionProper increment := by
    have hcondition : Expr.OptionProper condition := by
      cases condition with
      | none => trivial
      | some e => exact h.1
    cases increment with
    | none => exact ⟨hcondition, h.2.1, trivial⟩
    | some e => exact ⟨hcondition, h.2.1.1, h.2.1.2.1⟩
  cases first with
  | none => exact ⟨trivial, hloop h⟩
  | some s => exact ⟨h.1, hloop h.2.1⟩

/-- A `for` without faults is scoped as the rule has it. -/
theorem resolves (h : l.tree.Proper) :
    Resolves T n Scope.Settled l.resolve l.tree.uses (fun scopes => scopes)
      fun scopes => l.Scoped T n scopes := by
  obtain ⟨hfirst, hcondition, hbody, hincrement⟩ := proper_parts h
  have hvalue (e : Option Expr) (he : Expr.OptionProper e) :
      Resolves T n Scope.Settled (Expr.optionResolve e) (Expr.optionUses e) (fun scopes => scopes)
        fun scopes => Expr.OptionScoped T n scopes e :=
    (Expr.optionResolves e he).mono (fun _ _ h => h.around) fun _ h => h
  have hasked := (Stmt.optionResolves l.first hfirst).then_
    (fun _ _ h => Stmt.settled_optionAfter hfirst h) (hvalue l.condition hcondition)
  have hround := (l.body.resolves hbody).then_ (fun _ _ h => Stmt.settled_after hbody h)
    (hvalue l.increment hincrement)
  have hparts := hasked.then_ (fun _ _ h => Stmt.settled_optionAfter hfirst h) hround
  simp only [l.plain.after] at hparts
  have hscope := hparts.inScope .empty (fun _ _ (h : Scope.Settled _ _) => h.push) fun scopes =>
    Stmt.tail_optionAfter l.first (.empty :: scopes)
  have huses : l.tree.uses = l.first.elim [] Stmt.uses ++ Expr.optionUses l.condition ++
      (l.body.uses ++ Expr.optionUses l.increment) :=
    (Parser.forTree_uses _ _ _ _).trans (List.append_assoc _ _ _).symm
  rw [huses]
  exact hscope.mono (fun _ _ h => h) fun scopes ⟨⟨hfirst, hcondition⟩, hbody, hincrement⟩ =>
    ⟨hfirst, hcondition, hbody, hincrement⟩

end ForLoop

/-! ## Tree and rule -/

theorem Stmt.listExec_single (call : Invoke) (bound : Nat) (s : Stmt) :
    Stmt.listExec call bound [s] = s.exec call bound := by
  rw [Stmt.listExec]
  convert bind_pure (s.exec call bound) using 2
  funext flow
  cases flow <;> rfl

variable {T T' : Table} {n n' : Nat} {ν : Nat → Nat} {links : List Link}
  {scopes scopes' : List Scope} {pairs : FramePairs} {m : Machine} {s' : Store} {f' : FrameId}
  {call : Invoke}

theorem Expr.optionHolds_matches (hcall : call.Matches T T') (condition : Option Expr)
    (hcondition : Expr.OptionPlaced T T' ν links condition)
    (h : m.Stands T T' pairs links s' f') :
    RunM.Accords T T' pairs
      (do return (← (condition.getD (.literal (.bool true))).eval call).isTruthy)
      (Expr.optionHolds call (condition.map (Expr.relabel (.numbers ν)))) m s' f'
      fun _ _ _ a a' => a' = a := by
  cases condition with
  | none => exact .congr (.pure h.toMatches rfl) rfl rfl
  | some e => exact Expr.holds_matches hcall e hcondition h

namespace ForLoop

variable {l : ForLoop}

/-- One round.  A missing increment adds nothing, and one that is there is evaluated in the
    block of the body. -/
theorem round_matches (hcall : call.Matches T T') (bound : Nat)
    (hround : l.round.Scoped T n scopes)
    (hbody : (l.renumber ν).body.Scoped T' n' scopes')
    (hincrement : Expr.OptionScoped T' n' scopes' (l.renumber ν).increment)
    (hbeside : Scope.Beside links scopes scopes') (h : m.Stands T T' pairs links s' f') :
    RunM.Accords T T' pairs (l.round.exec call bound)
      (do match ← (l.renumber ν).body.exec call bound with
        | .normal => do
          let _ ← Expr.optionEval call (l.renumber ν).increment
          pure .normal
        | flow => pure flow) m s' f' (Flow.Matches T T') := by
  obtain ⟨first, condition, increment, body, plain⟩ := l
  cases increment with
  | none =>
    have hplaced := Stmt.Scoped.placed body hround hbody hbeside (.inl plain)
    show RunM.Accords T T' pairs (body.exec call bound) _ m s' f' _
    rw [← bind_pure (body.exec call bound)]
    refine matches_behind (Stmt.matches hcall bound body hplaced h) ⟨rfl, rfl⟩
      (fun _ => ⟨rfl, rfl⟩) fun {pairs₁ m₁ s₁'} ho => ?_
    have hend : Flow.Matches T T' pairs₁ m₁.store s₁' .normal .normal := rfl
    exact .congr (.pure ho.matching hend) rfl rfl
  | some e =>
    -- The block around body and increment is a scope that only the tree has.
    obtain ⟨hfront, hback, -⟩ := hround
    rw [plain.after] at hback
    have hplaced := Stmt.Scoped.placed body hfront hbody (.left hbeside) (.inl plain)
    have hplaced' := Expr.Scoped.placed e hback hincrement (.left hbeside)
    refine RunM.Accords.leftScope h fun hinside =>
      matches_behind (Stmt.matches hcall bound body hplaced hinside) ⟨rfl, rfl⟩
        (fun _ => ⟨rfl, rfl⟩) fun {pairs₁ m₁ s₁'} ho => ?_
    show RunM.Accords T T' pairs₁ (Stmt.listExec call bound [.expression e]) _ m₁ s₁' f' _
    rw [Stmt.listExec_single]
    apply (Expr.matches hcall e hplaced' (hinside.step ho)).bind
    intro _ _ pairs₂ m₂ s₂' ho₂ _
    exact .pure ho₂.matching rfl

theorem loop_condition (h : l.loop.Scoped T n scopes) :
    Expr.OptionScoped T n scopes l.condition := by
  have hasked := h.1
  cases hl : l.condition with
  | none => trivial
  | some e => rwa [hl] at hasked

/-- The rounds, wherever they begin. -/
theorem loop_matches (hcall : call.Matches T T') (bound : Nat)
    (hloop : l.loop.Scoped T n scopes)
    (hcondition : Expr.OptionScoped T' n' scopes' (l.renumber ν).condition)
    (hbody : (l.renumber ν).body.Scoped T' n' scopes')
    (hincrement : Expr.OptionScoped T' n' scopes' (l.renumber ν).increment)
    (hbeside : Scope.Beside links scopes scopes') (h : m.Stands T T' pairs links s' f') :
    RunM.Accords T T' pairs (l.loop.exec call bound)
      (forRounds (Expr.optionHolds call (l.renumber ν).condition)
        ((l.renumber ν).body.exec call bound)
        (Expr.optionEval call (l.renumber ν).increment) bound) m s' f' (Flow.Matches T T') := by
  have hplaced := (loop_condition hloop).placed hcondition hbeside
  rw [forRounds_eq]
  exact matches_whileLoop (Expr.optionHolds_matches hcall l.condition hplaced)
    (round_matches hcall bound hloop.2.1 hbody hincrement hbeside) bound h

/-- Tree and rule do the same, wherever both can stand. -/
theorem tree_matches (hcall : call.Matches T T') (bound : Nat) (hl : l.tree.Scoped T n scopes)
    (hl' : (l.renumber ν).Scoped T' n' scopes') (hbeside : Scope.Beside links scopes scopes')
    (h : m.Stands T T' pairs links s' f') :
    RunM.Accords T T' pairs (l.tree.exec call bound) ((l.renumber ν).exec call bound) m s' f'
      (Flow.Matches T T') := by
  obtain ⟨hfirst, hcondition, hbody, hincrement⟩ := hl'
  rw [inside_renumber] at hcondition hbody hincrement
  obtain ⟨first, condition, increment, body, plain⟩ := l
  cases first with
  | none =>
    refine RunM.Accords.rightScope h fun hinside => ?_
    exact .congr (loop_matches hcall bound hl hcondition hbody hincrement (.right hbeside)
      hinside) rfl rfl
  | some s =>
    obtain ⟨hs, hloop, -⟩ := hl
    have hinner := Scope.Beside.both .empty hbeside
    have hplaced := Stmt.Scoped.placed s hs hfirst hinner (.inr trivial)
    refine RunM.Accords.inScope h fun hinside =>
      matches_behind (Stmt.matches hcall bound s hplaced hinside) ⟨rfl, rfl⟩
        (fun _ => ⟨rfl, rfl⟩) fun {pairs₁ m₁ s₁'} ho => ?_
    show RunM.Accords T T' pairs₁ (Stmt.listExec call bound [ForLoop.loop _]) _ m₁ s₁' _ _
    rw [Stmt.listExec_single]
    exact loop_matches hcall bound hloop hcondition hbody hincrement
      (hinner.after (.inr trivial)) (hinside.step ho)

/-! ## A table for the rule -/

/-- The occurrences in the parts, each with the scopes that are around it in the rule. -/
def spots (scopes : List Scope) (l : ForLoop) : List Spot :=
  l.first.elim [] (Stmt.spots (.empty :: scopes)) ++
    (spotsAt (l.inside scopes) (Expr.optionUses l.condition) ++
      (l.body.spots (l.inside scopes) ++
        spotsAt (l.inside scopes) (Expr.optionUses l.increment)))

theorem map_spots (l : ForLoop) (scopes : List Scope) :
    (l.spots scopes).map Prod.fst = l.tree.uses.map (·.occurrence) := by
  have hfirst : (l.first.elim [] (Stmt.spots (.empty :: scopes))).map Prod.fst =
      (l.first.elim [] Stmt.uses).map (·.occurrence) := by
    cases l.first with
    | none => rfl
    | some s => exact s.map_spots _
  rw [spots, tree, Parser.forTree_uses]
  simp only [List.map_append, hfirst, map_spotsAt, Stmt.map_spots]

/-- The rounds are moved into the rule, out of the block around body and increment. -/
theorem loop_move (hloop : l.loop.Scoped T n scopes)
    (hcondition : T'.PlacesAll n' ν (spotsAt scopes' (Expr.optionUses l.condition)))
    (hbody : T'.PlacesAll n' ν (l.body.spots scopes'))
    (hincrement : T'.PlacesAll n' ν (spotsAt scopes' (Expr.optionUses l.increment)))
    (hways : Scope.Abreast links scopes scopes') :
    Expr.OptionScoped T' n' scopes' (l.renumber ν).condition ∧
      (l.renumber ν).body.Scoped T' n' scopes' ∧
      Expr.OptionScoped T' n' scopes' (l.renumber ν).increment := by
  refine ⟨(loop_condition hloop).move hcondition hways, ?_⟩
  have hround := hloop.2.1
  obtain ⟨first, condition, increment, body, plain⟩ := l
  cases increment with
  | none => exact ⟨Stmt.Scoped.move body hround hbody hways (.inl plain), trivial⟩
  | some e =>
    obtain ⟨hfront, hback, -⟩ := hround
    rw [plain.after] at hback
    exact ⟨Stmt.Scoped.move body hfront hbody hways.left (.inl plain),
      Expr.Scoped.move e hback (Table.placesAll_spotsAt.mp hincrement) hways.left⟩

/-- Under a table that is right at the spots of the rule, the rule is scoped where the tree
    is. -/
theorem tree_move (hl : l.tree.Scoped T n scopes) (h' : T'.PlacesAll n' ν (l.spots scopes'))
    (hways : Scope.Abreast links scopes scopes') (hready : ∀ name, ¬Scope.Pends scopes name) :
    (l.renumber ν).Scoped T' n' scopes' := by
  obtain ⟨hfirst, hparts⟩ := Table.placesAll_append.mp h'
  obtain ⟨hcondition, hround⟩ := Table.placesAll_append.mp hparts
  obtain ⟨hbody, hincrement⟩ := Table.placesAll_append.mp hround
  have hinside := l.inside_renumber ν scopes'
  obtain ⟨first, condition, increment, body, plain⟩ := l
  cases first with
  | none =>
    -- The scope of the rule is one that the tree does not have.
    obtain ⟨hcondition', hbody', hincrement'⟩ :=
      loop_move hl hcondition hbody hincrement (hways.right hready)
    exact ⟨trivial, hcondition', hbody', hincrement'⟩
  | some s =>
    obtain ⟨hs, hloop, -⟩ := hl
    have hinner : Scope.Abreast (.both :: links) (.empty :: scopes) (.empty :: scopes') :=
      hways.push rfl
    obtain ⟨hcondition', hbody', hincrement'⟩ :=
      loop_move hloop hcondition hbody hincrement (hinner.after trivial hs)
    refine ⟨Stmt.Scoped.move s hs hfirst hinner (.inr trivial), ?_, ?_, ?_⟩
    · rw [hinside]
      exact hcondition'
    · rw [hinside]
      exact hbody'
    · rw [hinside]
      exact hincrement'

/-- Wherever the tree is scoped, there is a table under which the rule is scoped, too. -/
theorem exists_scoped (hl : l.tree.Scoped T n scopes)
    (hdistinct : (l.tree.uses.map (·.occurrence.id)).Nodup)
    (hready : ∀ name, ¬Scope.Pends scopes name) :
    ∃ T' n' ν, T.Extends T' n n' ∧ (l.renumber ν).Scoped T' n' scopes := by
  have hspots : (l.spots scopes).map (·.1.id) = l.tree.uses.map (·.occurrence.id) := by
    have hnumbers := congrArg (List.map Occurrence.id) (l.map_spots scopes)
    rwa [List.map_map, List.map_map] at hnumbers
  rw [← hspots] at hdistinct
  obtain ⟨T', n', hT, hplaces⟩ := T.exists_placesAll n hdistinct
  exact ⟨T', n', _, hT, tree_move hl hplaces (.refl scopes) hready⟩

end ForLoop

end Lox
