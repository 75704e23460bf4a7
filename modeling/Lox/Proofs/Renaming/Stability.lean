/-
  Lox.Proofs.Renaming.Stability

  Renaming a local variable changes nothing that can be observed.

    * `exists_renamed` — a renamed program has a source text, which is accepted;
    * `mirrors_start` — a new machine mirrors itself;
    * `runSource_renamed` — two texts, one of the tree and one of the renamed tree, do
      the same;
    * `renaming_stable` — all of it together.
-/
import Lox.Mode
import Lox.Proofs.Grammar.Oblivious
import Lox.Proofs.Grammar.Respelling
import Lox.Proofs.Renaming.Executing
import Lox.Proofs.Renaming.Locals
import Lox.Proofs.Renaming.Resolving
import Lox.Proofs.Renaming.Rewording
import Lox.Proofs.Scoping.Agreement

namespace Lox

/-! ## Texts -/

/-- A text that is accepted has no faults, and a tree with a table. -/
theorem Mode.check_eq_ok {α β : Type} {parse : List Token → Nat → Parser.Parsed α}
    {resolve : α → Except (List Diagnostic) β} {source : String} {tree : α} {b : β} :
    Mode.check parse resolve source = .ok (tree, b) ↔
      faultsOf (scan source) = [] ∧ (parse (tokensOf (scan source)) 0).result = .ok tree ∧
        resolve tree = .ok b := by
  unfold Mode.check
  dsimp only
  cases hparsed : (parse (tokensOf (scan source)) 0).result with
  | error more => cases hfaults : faultsOf (scan source) <;> simp
  | ok read =>
    cases hfaults : faultsOf (scan source) with
    | cons fault faults => simp
    | nil =>
      simp only [true_and, Except.ok.injEq]
      cases hresolved : resolve read with
      | error faults =>
        constructor
        · exact nofun
        · rintro ⟨rfl, h⟩
          rw [hresolved] at h
          cases h
      | ok found =>
        constructor
        · rintro ⟨⟩
          exact ⟨rfl, hresolved⟩
        · rintro ⟨rfl, h⟩
          rw [hresolved] at h
          cases h
          rfl

variable {r : Renaming} {source : String} {program : List Stmt} {A : Table}

/-- For every renamed tree of a text there is a text, in which the names alone are
    others. -/
theorem exists_renamed {nextId : Nat} (hnew : Piece.IsName r.new.toList)
    (hclean : faultsOf (scan source) = [])
    (hparsed : (parseProgram (tokensOf (scan source)) nextId).result = .ok program)
    (chosen : Path → Bool) :
    ∃ source', faultsOf (scan source') = [] ∧
      List.Forall₂ (Token.Alike r.Respells) (tokensOf (scan source)) (tokensOf (scan source')) ∧
      (parseProgram (tokensOf (scan source')) nextId).result =
        .ok (Stmt.listRename r chosen 0 [] program) := by
  obtain ⟨before, ending, htokens, hbefore⟩ := tokensOf_scan source
  have hkinds : ∀ t ∈ before, t.kind ≠ .eof := fun t ht => (hbefore t ht).1
  rw [htokens] at hparsed ⊢
  -- The tree is that of the tokens, so the renamed one is that of renamed tokens.
  obtain ⟨read, s, _, hsplit, hread, hrest⟩ :=
    Parser.read_of_runOn hkinds rfl Parser.reads_program hparsed
  dsimp only at hrest hread
  rw [hrest, List.append_nil] at hsplit
  subst hsplit
  have halike := Stmt.listRename_alike r chosen 0 [] program
  obtain ⟨before', hspelled, hderives⟩ := hread.derives.respell (.declarations halike)
  have hrespelled : ∀ a b, r.Respells a b → b = a ∨ Piece.IsName b.toList := by
    rintro a b (hsame | ⟨_, rfl⟩)
    · exact .inl hsame
    · exact .inr hnew
  obtain ⟨source', hclean', htokens'⟩ := exists_reworded hrespelled hclean htokens hspelled
  refine ⟨source', hclean', ?_, ?_⟩
  · rw [htokens']
    exact List.rel_append hspelled (.cons (.of_fixed nofun) .nil)
  · -- It is read with the numbers of the tree, as the parser does not look at names.
    rw [htokens']
    obtain ⟨program', hparsed', halike'⟩ := parseProgram_alike hspelled hkinds rfl hparsed
    have hkinds' := Token.forall_ne_eof_of_alike hspelled hkinds
    have hsame := (parser_exact hkinds' rfl nextId).2.1 program' _ hparsed' hderives
    rw [hparsed', Stmt.list_eq_of_unnumbered program halike' halike hsame]

/-! ## Runs -/

/-- A new machine mirrors itself, as all that it has is the clock. -/
theorem mirrors_start {n : Nat} (out : Sink) (clock : Nat → Option Float) :
    Machine.Abreast r n [false] [] [] { Machine.start out clock with table := r.table }
      (Machine.start out clock).store := by
  have hextends : Table.Extends ∅ r.table 0 n :=
    ⟨Nat.zero_le n, fun id hid => absurd hid (Nat.not_lt_zero id)⟩
  have hfits := (Session.fits_start out clock).machine.extend hextends
  have hmark (f : FrameId) : [false].getD f false = false := by
    cases f with
    | zero => rfl
    | succ f => rfl
  refine ⟨⟨hfits, ?_⟩, rfl, rfl⟩
  refine ⟨rfl, rfl, rfl, rfl, fun _ => rfl, fun f name => ?_, rfl, fun _ => rfl, fun i name => ?_,
    fun i name => ?_, rfl⟩
  · rw [hmark f, Renaming.swap_false]
    cases hown : (Machine.start out clock).store.own? f name with
    | none => exact .none
    | some v =>
      rw [Machine.own?_start hown]
      exact .some rfl
  · exact .none
  · exact .none

/-- A program and a renamed one are interpreted in the same way, apart from the store. -/
theorem interpret_renamed {n : Nat} (hr : r.Ordinary) {chosen : Path → Bool}
    (hscoped : Stmt.ListScoped r.table n [] program)
    (hrenamable : Stmt.ListRenamable r chosen 0 false program) (out : Sink)
    (clock : Nat → Option Float) (fuel : Nat) :
    RunM.Mirrors r n [false] (interpret fuel program)
      (interpret fuel (Stmt.listRename r chosen 0 [] program))
      { Machine.start out clock with table := r.table } (Machine.start out clock).store
      fun _ _ _ _ => True :=
  (Stmt.listMirrors hr (invoke_mirrors hr fuel) fuel program hscoped hrenamable
    (mirrors_start out clock)).bind fun _ _ _ _ _ ho _ => .pure ho.mirrors trivial

/-- What is written to the sinks, and how it ends, is the same. -/
theorem onMachine_renamed {n : Nat} (hr : r.Ordinary) {chosen : Path → Bool}
    (hscoped : Stmt.ListScoped r.table n [] program)
    (hrenamable : Stmt.ListRenamable r chosen 0 false program) (limits : Limits) :
    Mode.onMachine limits r.table (interpret limits.fuel (Stmt.listRename r chosen 0 [] program)) =
      Mode.onMachine limits r.table (interpret limits.fuel program) := by
  funext c
  have hmirrors := interpret_renamed hr hscoped hrenamable c.out limits.clock limits.fuel
  unfold Mode.onMachine
  dsimp only
  cases hrun : interpret limits.fuel program
      { Machine.start c.out limits.clock with table := r.table } with
  | ok u m =>
    obtain ⟨_, _, s', hrun', _⟩ := hmirrors.ok hrun
    rw [show interpret limits.fuel (Stmt.listRename r chosen 0 [] program)
      { Machine.start c.out limits.clock with table := r.table } = _ from hrun']
  | error halt m =>
    obtain ⟨_, s', hrun', _⟩ := hmirrors.error hrun
    rw [show interpret limits.fuel (Stmt.listRename r chosen 0 [] program)
      { Machine.start c.out limits.clock with table := r.table } = _ from hrun']
    cases halt <;> rfl

/-! ## Main statement -/

/-- Take a program that is accepted, a parameter or `var` of one of its scopes, and a
    name that does not stand in its text.  With the new name for the variable, where it
    is declared and where the table says that it is meant, the program has a text again,
    which differs in names only; and every text of the new program is accepted with the
    same table, and does the same when it is run. -/
theorem renaming_stable
    (haccepted : Mode.check parseProgram resolveProgram source = .ok (program, A))
    {old new : String} {path : Path} (hlocal : Stmt.ListHasLocal old 0 path program)
    (hname : Piece.IsName new.toList) (hnowhere : ∀ t ∈ tokensOf (scan source), t.lexeme ≠ new) :
    let renamed := Stmt.listRename ⟨A, old, new⟩ (· = path) 0 [] program
    (∃ source', faultsOf (scan source') = [] ∧
      List.Forall₂ (Token.Alike (Renaming.Respells ⟨A, old, new⟩)) (tokensOf (scan source))
        (tokensOf (scan source')) ∧
      (parseProgram (tokensOf (scan source')) 0).result = .ok renamed) ∧
    ∀ source', faultsOf (scan source') = [] →
      (parseProgram (tokensOf (scan source')) 0).result = .ok renamed →
      Mode.check parseProgram resolveProgram source' = .ok (renamed, A) ∧
        ∀ limits, Mode.runSource limits source' = Mode.runSource limits source := by
  intro renamed
  obtain ⟨hclean, hparsed, hresolved⟩ := Mode.check_eq_ok.mp haccepted
  obtain ⟨hproper, hfresh⟩ := parseProgram_fresh hparsed
  have hscoped : Stmt.ListScoped A _ [] program :=
    (Stmt.listResolves program hproper).of_result Scope.settled_nil hresolved hfresh fun _ _ => rfl
  -- The new name is not reserved, nor is the old one.
  have hr : Renaming.Ordinary ⟨A, old, new⟩ := by
    have hfree := hname.free
    rw [String.ofList_toList] at hfree
    refine ⟨Stmt.ListHasLocal.ordinary program hlocal hproper, ?_, ?_⟩
    · rintro rfl
      exact absurd hfree (by decide)
    · rintro rfl
      exact absurd hfree (by decide)
  have havoids : Stmt.ListAvoids new program := by
    obtain ⟨before, ending, htokens, hbefore⟩ := tokensOf_scan source
    rw [htokens] at hparsed hnowhere
    obtain ⟨read, s, _, hsplit, hread, _⟩ := Parser.read_of_runOn (fun t ht => (hbefore t ht).1) rfl
      Parser.reads_program hparsed
    refine StmtPhrase.Derives.avoids hread.derives fun t ht => hnowhere t ?_
    rw [hsplit]
    exact List.mem_append_left _ (List.mem_append_left _ ht)
  have hrenamable : Stmt.ListRenamable ⟨A, old, new⟩ (· = path) 0 false program := by
    refine Stmt.listRenamable program hscoped havoids (fun i rest _ hchosen => ?_) nofun
    rw [of_decide_eq_true hchosen]
    exact hlocal
  have hresolved' : resolveProgram renamed = .ok A :=
    resolveProgram_rename hr hproper hscoped hrenamable hresolved
  refine ⟨exists_renamed hname hclean hparsed _, fun source' hclean' hparsed' => ?_⟩
  have haccepted' := Mode.check_eq_ok.mpr ⟨hclean', hparsed', hresolved'⟩
  refine ⟨haccepted', fun limits => ?_⟩
  unfold Mode.runSource
  rw [haccepted, haccepted']
  dsimp only
  rw [onMachine_renamed hr hscoped hrenamable limits]

/-- The variable of a block, with the name `b` instead of `a`. -/
theorem renaming_stable_block : ∃ A : Table,
    Mode.check parseProgram resolveProgram "\x7bvar a;print a;\x7d" =
        .ok ([.block [.var ⟨"a", 1⟩ none, .print (.name ⟨0, ⟨"a", 1⟩⟩)]], A) ∧
      ∀ source', faultsOf (scan source') = [] →
        (parseProgram (tokensOf (scan source')) 0).result =
          .ok [.block [.var ⟨"b", 1⟩ none, .print (.name ⟨0, ⟨"b", 1⟩⟩)]] →
        ∀ limits, Mode.runSource limits source' =
          Mode.runSource limits "\x7bvar a;print a;\x7d" := by
  have haccepted : ∃ A : Table, Mode.check parseProgram resolveProgram "\x7bvar a;print a;\x7d" =
      .ok ([.block [.var ⟨"a", 1⟩ none, .print (.name ⟨0, ⟨"a", 1⟩⟩)]], A) ∧ A[0]? = some 0 :=
    ⟨_, Mode.check_eq_ok.mpr ⟨by cbv, by cbv, rfl⟩, by cbv⟩
  obtain ⟨A, haccepted, hA⟩ := haccepted
  have hlocal : Stmt.ListHasLocal "a" 0 [0]
      [.block [.var ⟨"a", 1⟩ none, .print (.name ⟨0, ⟨"a", 1⟩⟩)]] :=
    .inl ⟨[], rfl, .inl ⟨rfl, ⟨"a", 1⟩, none, .head _, rfl⟩⟩
  have hname : Piece.IsName "b".toList :=
    ⟨by decide, List.forall_mem_singleton.mpr (by decide), by cbv⟩
  have htexts : (tokensOf (scan "\x7bvar a;print a;\x7d")).map (·.lexeme) =
      ["\x7b", "var", "a", ";", "print", "a", ";", "\x7d", ""] := by cbv
  have hnowhere : ∀ t ∈ tokensOf (scan "\x7bvar a;print a;\x7d"), t.lexeme ≠ "b" := by
    intro t ht hb
    have hmem := List.mem_map_of_mem (f := (·.lexeme)) ht
    rw [htexts, hb] at hmem
    exact absurd hmem (by decide)
  refine ⟨A, haccepted, fun source' hclean hparsed =>
    ((renaming_stable haccepted hlocal hname hnowhere).2 source' hclean ?_).2⟩
  rw [hparsed]
  simp [Stmt.listRename, Stmt.rename, Expr.rename, inside, flagAt, Renaming.declared,
    Renaming.spell, Renaming.occurrence, hA]

end Lox
