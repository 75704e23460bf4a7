/-
  Lox.Proofs.Occurrences.Apart

  Numbers of occurrences never collide, whatever is parsed one after another.

    * `ParseJob`, `treesOf` — parses in a row, each from the number on at which the last one
      stopped, whether or not it succeeded, and the trees that they yield;
    * `fresh_treesOf` — the occurrences of all these trees have numbers of their own;
    * `Tree.entries` — what the resolver enters for a tree, one entry after another;
    * `Table.Apart`, `tablesOf` — so the tables of the trees have no number in common, and
      a machine can be given them in any order;
    * `occurrences_apart` — all of this, and that it makes no difference from which number
      on a text is parsed.
-/
import Lox.Proofs.Occurrences.Counting

namespace Lox

/-! ## Parses in a row -/

/-- What parsing can yield. -/
inductive Tree where
  | program (statements : List Stmt)
  | expression (e : Expr)

/-- Something to parse. -/
inductive ParseJob where
  | program (tokens : List Token)
  | expression (tokens : List Token)

namespace Tree

def uses : Tree → List Use
  | program statements => Stmt.listUses statements
  | expression e => e.uses

/-- The numbers in a tree. -/
def numbers (tree : Tree) : List Nat := tree.uses.map (·.occurrence.id)

def resolve : Tree → Walk → Walk
  | program statements => Stmt.listResolve statements
  | expression e => e.resolve

/-- The table of a tree, or its faults. -/
def table (tree : Tree) : Except (List Diagnostic) Table := (tree.resolve .start).result

/-- What resolving a tree enters into its table, in this order. -/
def entries : Tree → List (Nat × Nat)
  | program statements => Stmt.listEntries statements .start
  | expression e => e.entries .start

end Tree

/-- Parses from a number on. -/
def ParseJob.run : ParseJob → Nat → Parser.Parsed Tree
  | program tokens, n =>
    ⟨(parseProgram tokens n).result.map .program, (parseProgram tokens n).nextId⟩
  | expression tokens, n =>
    ⟨(parseExpression tokens n).result.map .expression, (parseExpression tokens n).nextId⟩

/-- The trees of the parses that succeed. -/
def treesOf : List ParseJob → Nat → List Tree
  | [], _ => []
  | job :: jobs, n =>
    let parsed := job.run n
    match parsed.result with
    | .ok tree => tree :: treesOf jobs parsed.nextId
    | .error _ => treesOf jobs parsed.nextId

theorem ParseJob.drawn (job : ParseJob) (n : Nat) :
    n ≤ (job.run n).nextId ∧ ∀ tree, (job.run n).result = .ok tree →
      Fresh tree.uses n (job.run n).nextId := by
  have of_map {α : Type} {found : Except (List Diagnostic) α} {make : α → Tree} {tree : Tree}
      (h : found.map make = .ok tree) : ∃ a, found = .ok a ∧ make a = tree := by
    cases found with
    | error ds => cases h
    | ok a => exact ⟨a, rfl, Except.ok.inj h⟩
  cases job with
  | program tokens =>
    obtain ⟨hle, hfresh⟩ := Parser.runOn_drawn Parser.draws_program tokens n
    refine ⟨hle, fun tree htree => ?_⟩
    obtain ⟨statements, hparsed, rfl⟩ := of_map htree
    exact hfresh statements hparsed
  | expression tokens =>
    obtain ⟨hle, hfresh⟩ := Parser.runOn_drawn Parser.draws_expression tokens n
    refine ⟨hle, fun tree htree => ?_⟩
    obtain ⟨e, hparsed, rfl⟩ := of_map htree
    exact hfresh e hparsed

/-- The occurrences of all trees together have numbers of their own. -/
theorem fresh_treesOf (jobs : List ParseJob) (n : Nat) :
    ∃ last, Fresh ((treesOf jobs n).flatMap Tree.uses) n last := by
  induction jobs generalizing n with
  | nil => exact ⟨n, .nil (Nat.le_refl n)⟩
  | cons job jobs ih =>
    obtain ⟨hle, hfresh⟩ := job.drawn n
    obtain ⟨last, hrest⟩ := ih (job.run n).nextId
    refine ⟨last, ?_⟩
    unfold treesOf
    dsimp only
    cases htree : (job.run n).result with
    -- The numbers of a parse that failed are used up.
    | error ds => exact hrest.widen hle (Nat.le_refl last)
    | ok tree =>
      rw [List.flatMap_cons]
      exact (hfresh tree htree).append hrest

/-! ## Tables -/

theorem Tree.enters (tree : Tree) :
    (tree.resolve .start).table = Table.enter ∅ tree.entries ∧
      (tree.entries.map Prod.fst).Subperm tree.numbers := by
  cases tree with
  | program statements =>
    exact ⟨(Stmt.listEnters statements).table .start, (Stmt.listEnters statements).own .start⟩
  | expression e => exact ⟨e.enters.table .start, e.enters.own .start⟩

/-- A table has numbers of its tree only. -/
theorem Tree.unused {tree : Tree} {T : Table} (hT : tree.table = .ok T) {id : Nat}
    (hid : id ∉ tree.numbers) : T[id]? = none := by
  have hother : ∀ use ∈ tree.uses, use.occurrence.id ≠ id := fun use huse heq =>
    hid (List.mem_map.mpr ⟨use, huse, heq⟩)
  cases tree with
  | program statements => exact (Stmt.listEnters statements).unused hT hother
  | expression e => exact e.enters.unused hT hother

/-- No number is in both tables. -/
def Table.Apart (T T' : Table) : Prop := ∀ id : Nat, T[id]? = none ∨ T'[id]? = none

theorem Table.Apart.symm {T T' : Table} (h : T.Apart T') : T'.Apart T := fun id => (h id).symm

/-- The tables of the trees in which the resolver finds no fault. -/
def tablesOf (trees : List Tree) : List Table := trees.filterMap (·.table.toOption)

theorem mem_tablesOf {trees : List Tree} {T : Table} :
    T ∈ tablesOf trees ↔ ∃ tree ∈ trees, tree.table = .ok T := by
  refine List.mem_filterMap.trans (exists_congr fun tree => and_congr_right fun _ => ?_)
  cases tree.table with
  | error ds => exact ⟨nofun, nofun⟩
  | ok T' => simp [Except.toOption]

/-- Trees with numbers of their own have tables with numbers of their own. -/
theorem apart_tablesOf {trees : List Tree} (h : ((trees.flatMap Tree.uses).map
    (·.occurrence.id)).Nodup) : (tablesOf trees).Pairwise Table.Apart := by
  induction trees with
  | nil => exact .nil
  | cons tree trees ih =>
    rw [List.flatMap_cons, List.map_append, List.nodup_append] at h
    obtain ⟨-, hrest, hother⟩ := h
    cases htable : tree.table with
    | error ds =>
      have hnone : tablesOf (tree :: trees) = tablesOf trees :=
        List.filterMap_cons_none (by rw [htable]; rfl)
      rw [hnone]
      exact ih hrest
    | ok T =>
      have hsome : tablesOf (tree :: trees) = T :: tablesOf trees :=
        List.filterMap_cons_some (by rw [htable]; rfl)
      rw [hsome, List.pairwise_cons]
      refine ⟨fun T' hT' id => ?_, ih hrest⟩
      obtain ⟨tree', htree', htable'⟩ := mem_tablesOf.mp hT'
      by_cases hid : id ∈ tree.numbers
      · refine .inr (Tree.unused htable' fun hid' => hother id hid id ?_ rfl)
        obtain ⟨use, huse, heq⟩ := List.mem_map.mp hid'
        exact List.mem_map.mpr ⟨use, List.mem_flatMap.mpr ⟨tree', htree', huse⟩, heq⟩
      · exact .inl (Tree.unused htable hid)

/-! ## Machines that are given tables -/

/-- The machines that were given tables, in this order, and that ran trees in between. -/
inductive Machine.Given : List Table → Machine → Prop
  | start (out : Sink) (clock : Nat → Option Float) : Given [] (.start out clock)
  | addTable {added : List Table} {m : Machine} (T : Table) :
      Given added m → Given (added ++ [T]) ((addTable T).after m)
  | interpret {added : List Table} {m : Machine} (fuel : Nat) (program : List Stmt) :
      Given added m → Given added ((interpret fuel program).after m)
  | execute {added : List Table} {m : Machine} (fuel : Nat) (s : Stmt) :
      Given added m → Given added ((execute fuel s).after m)
  | evaluate {added : List Table} {m : Machine} (fuel : Nat) (e : Expr) :
      Given added m → Given added ((evaluate fuel e).after m)

/-- A table has the entries of others, and no more. -/
def Table.Joins (table : Table) (added : List Table) : Prop :=
  ∀ id d : Nat, table[id]? = some d ↔ ∃ T ∈ added, T[id]? = some d

theorem Table.Joins.apart {table T : Table} {added : List Table} (h : table.Joins added)
    (hapart : ∀ T' ∈ added, T'.Apart T) : table.Apart T := by
  intro id
  cases hold : table[id]? with
  | none => exact .inl rfl
  | some d =>
    obtain ⟨T', hT', hsome⟩ := (h id d).mp hold
    obtain hnone | hnone := hapart T' hT' id
    · rw [hsome] at hnone
      cases hnone
    · exact .inr hnone

/-- Where no entry is overwritten, merging adds entries. -/
theorem Table.Joins.merge {table T : Table} {added : List Table} (h : table.Joins added)
    (hapart : table.Apart T) : (table.merge T).Joins (added ++ [T]) := by
  intro id d
  simp only [List.mem_append, List.mem_singleton, or_and_right, exists_or, exists_eq_left, ← h id d]
  rw [Table.getElem?_merge]
  obtain hnone | hnone := hapart id <;> simp [hnone]

/-- A machine has the entries of its tables if these are apart. -/
theorem Machine.Given.joins {added : List Table} {m : Machine} (h : Given added m)
    (hapart : added.Pairwise Table.Apart) : m.table.Joins added := by
  -- Runs leave the table as it is, so it is made by the merges alone.
  have ev := evolution_restored
  induction h with
  | start out clock => exact fun id d => by simp [Machine.start]
  | addTable T _ ih =>
    obtain ⟨hfront, -, hlast⟩ := List.pairwise_append.mp hapart
    exact (ih hfront).merge ((ih hfront).apart fun T' hT' => hlast T' hT' T (.head _))
  | @interpret _ m fuel program _ ih =>
    exact (ev.interpret fuel program m).table.symm ▸ ih hapart
  | @execute _ m fuel s _ ih => exact (ev.exec (ev.invoke fuel) fuel s m).table.symm ▸ ih hapart
  | @evaluate _ m fuel e _ ih => exact (ev.eval (ev.invoke fuel) e m).table.symm ▸ ih hapart

/-! ## Occurrences never collide -/

/-- Whatever is parsed one after another, no two occurrences in the trees have the same
    number.  The resolver enters each occurrence of its tree at most once, and no others;
    so a machine that is given tables of these trees, in any order and between any runs,
    never loses an entry by that, and has just the entries that they have.  From whatever
    number on a text is parsed that was not drawn before, it does the same. -/
theorem occurrences_apart (jobs : List ParseJob) (n : Nat) :
    (((treesOf jobs n).flatMap Tree.uses).map (·.occurrence.id)).Nodup ∧
    (∀ tree ∈ treesOf jobs n,
      (tree.resolve .start).table = Table.enter ∅ tree.entries ∧
      (tree.entries.map Prod.fst).Nodup ∧ ∀ id ∈ tree.entries.map Prod.fst, id ∈ tree.numbers) ∧
    (∀ added m, Machine.Given added m →
      (∀ T, (T :: added).Subperm (tablesOf (treesOf jobs n)) → m.table.Apart T) ∧
      (added.Subperm (tablesOf (treesOf jobs n)) → m.table.Joins added)) ∧
    ∀ s : Session, s.Interleaved → ∀ n n', s.nextId ≤ n → s.nextId ≤ n' →
      ∀ input, ∃ numbers : Nat → Nat, numbers.Injective ∧ (∀ id, id < s.nextId → numbers id = id) ∧
        ∀ fuel, (Session.step fuel input ⟨s.machine, n'⟩).1 =
            (Session.step fuel input ⟨s.machine, n⟩).1.relabel (.numbers numbers) ∧
          (Session.step fuel input ⟨s.machine, n⟩).2.machine.Relabelled (.numbers numbers)
            (Session.step fuel input ⟨s.machine, n'⟩).2.machine := by
  obtain ⟨last, hfresh⟩ := fresh_treesOf jobs n
  -- To be apart is symmetric, so tables of these trees are so in any order.
  have hapart {added : List Table} (hsub : added.Subperm (tablesOf (treesOf jobs n))) :
      added.Pairwise Table.Apart := by
    obtain ⟨tables, hperm, hsublist⟩ := hsub
    have htables := (apart_tablesOf hfresh.distinct).sublist hsublist
    exact (hperm.pairwise_iff fun h => h.symm).mp htables
  refine ⟨hfresh.distinct, fun tree htree => ?_, fun added m hgiven => ⟨fun T hsub => ?_,
    fun hsub => hgiven.joins (hapart hsub)⟩, fun s hs n n' hn hn' input =>
      Session.step_recounted hs hn hn' input⟩
  · obtain ⟨htable, hown⟩ := tree.enters
    refine ⟨htable, ?_, fun id hid => hown.subset hid⟩
    obtain ⟨ids, hperm, hsublist⟩ := hown
    have huses : tree.uses.Sublist ((treesOf jobs n).flatMap Tree.uses) := by
      have hone := (List.singleton_sublist.mpr htree).flatMap Tree.uses
      rwa [List.flatMap_singleton] at hone
    exact hperm.nodup_iff.mp ((hfresh.distinct.sublist (huses.map _)).sublist hsublist)
  · obtain ⟨hT, hadded⟩ := List.pairwise_cons.mp (hapart hsub)
    exact (hgiven.joins hadded).apart fun T' hT' => (hT T' hT').symm

/-- Two programs, and between them an expression that does not parse but uses up a number.
    A machine is given both tables; and on a machine that was given none, the last program
    has the same answer whether it was numbered from 8 or from 0 on. -/
theorem occurrences_apart_two_programs :
    let jobs : List ParseJob := [.program (tokensOf (scan "\x7b var a; a = a; \x7d")),
      .expression (tokensOf (scan "a + ")), .program (tokensOf (scan "\x7b var b; b; \x7d"))]
    let input : SessionInput := ⟨"\x7b var b; b; \x7d", .interpret, true, 0⟩
    let s : Session := ⟨.start .unlimited fun _ => none, 0⟩
    (treesOf jobs 5).map Tree.numbers = [[7, 6], [9]] ∧
    (∀ tree ∈ treesOf jobs 5, (tree.entries.map Prod.fst).Nodup) ∧
    (∃ T U : Table, tablesOf (treesOf jobs 5) = [T, U] ∧
      ((addTable T).after s.machine).table.Apart U ∧
      ((addTable U).after ((addTable T).after s.machine)).table.Joins [T, U]) ∧
    ∃ numbers : Nat → Nat, ∀ fuel, (Session.step fuel input ⟨s.machine, 8⟩).1 =
      (Session.step fuel input s).1.relabel (.numbers numbers) := by
  intro jobs input s
  obtain ⟨-, hentries, htables, hsteps⟩ := occurrences_apart jobs 5
  have hlength : (tablesOf (treesOf jobs 5)).length = 2 := by cbv
  refine ⟨by cbv, fun tree htree => (hentries tree htree).2.1, ?_, ?_⟩
  · obtain ⟨T, U, htwo⟩ := List.length_eq_two.mp hlength
    rw [htwo] at htables
    have hempty : Machine.Given [] s.machine := .start _ _
    have hone := hempty.addTable T
    exact ⟨T, U, htwo, (htables _ _ hone).1 U (List.Perm.swap T U []).subperm,
      (htables _ _ (hone.addTable U)).2 (.refl _)⟩
  · obtain ⟨numbers, -, -, hstep⟩ :=
      hsteps s (.start _ _ 0) 0 8 (Nat.zero_le 0) (Nat.zero_le 8) input
    exact ⟨numbers, fun fuel => (hstep fuel).1⟩

end Lox
