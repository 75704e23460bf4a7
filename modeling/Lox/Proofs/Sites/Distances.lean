/-
  Lox.Proofs.Sites.Distances

  The distances in a table are those of the position in the text.

    * `Walk.Notes.getElem?_table` — what the table of a finished walk has for the use at a
      site;
    * `nearest?_eq_some_iff` — the innermost scope with a name, as a split of the scopes
      around a position;
    * `distances_by_position` — when a program resolves, the table has for each use the
      number of scopes inside the innermost one that declares the name before the use.
-/
import Lox.Proofs.Scoping.Agreement
import Lox.Proofs.Sites.Violations

namespace Lox

/-! ## The innermost scope with a name -/

section

variable {before : List Site} {around : List Opening} {name : String}

theorem isSome_nearest?_iff :
    (nearest? before around name).isSome = true ↔ ∃ o ∈ around, o.Declares before name := by
  unfold nearest?
  rw [List.findIdx?_isSome, List.any_eq_true]
  simp only [decide_eq_true_eq]

theorem nearest?_eq_some {inner outer : List Opening} {o : Opening}
    (haround : around = inner ++ o :: outer) (ho : o.Declares before name)
    (hinner : ∀ p ∈ inner, ¬p.Declares before name) :
    nearest? before around name = some inner.length := by
  have hnone : inner.findIdx? (fun p => decide (p.Declares before name)) = none :=
    List.findIdx?_eq_none_iff.mpr fun p hp => decide_eq_false (hinner p hp)
  unfold nearest?
  rw [haround, List.findIdx?_append, hnone, List.findIdx?_cons]
  simp [ho]

end

/-! ## Entries of a table -/

theorem entry?_fst {before : List Site} {site : Site} {entry : Nat × Nat}
    (h : site.entry? before = some entry) : site.use?.map (·.occurrence.id) = some entry.1 := by
  obtain ⟨around, initializing, event⟩ := site
  cases event with
  | use use =>
    simp only [Site.entry?, Option.ite_none_left_eq_some, Option.map_eq_some_iff] at h
    obtain ⟨_, d, _, rfl⟩ := h
    rfl
  | declaration name => cases h
  | «return» keyword hasValue => cases h
  | inheritance name parent => cases h

/-- The numbers of the uses at some sites. -/
def usedIds (sites : List Site) : List Nat := (sites.filterMap Site.use?).map (·.occurrence.id)

/-- Entries come from the uses, in their order. -/
theorem sublist_usedIds (before sites : List Site) :
    ((collect Site.entry? before sites).map Prod.fst).Sublist (usedIds sites) := by
  induction sites generalizing before with
  | nil => exact List.Sublist.slnil
  | cons site sites ih =>
    have hrest := ih (before ++ [site])
    rw [collect, List.map_append]
    have hids : usedIds (site :: sites) =
        (site.use?.map (·.occurrence.id)).toList ++ usedIds sites := by
      unfold usedIds
      rw [List.filterMap_cons]
      cases site.use? <;> rfl
    rw [hids]
    refine List.Sublist.append ?_ hrest
    cases hentry : site.entry? before with
    | none => exact List.nil_sublist _
    | some entry =>
      rw [entry?_fst hentry]
      exact List.Sublist.refl _

/-- An entry is found again when no other one has its number. -/
theorem getElem?_insertMany_of_mem {T : Table} {entries : List (Nat × Nat)}
    (hkeys : (entries.map Prod.fst).Nodup) {id d : Nat} (h : (id, d) ∈ entries) :
    (T.insertMany entries)[id]? = some d := by
  refine Std.TreeMap.getElem?_insertMany_list_of_mem Std.ReflCmp.compare_self ?_ h
  refine (List.pairwise_map.mp hkeys).imp fun hne heq => hne ?_
  exact Std.LawfulEqCmp.eq_of_compare heq

/-- Entries for other numbers do not matter. -/
theorem getElem?_insertMany_of_not_mem {T : Table} {entries : List (Nat × Nat)} {id : Nat}
    (h : id ∉ entries.map Prod.fst) : (T.insertMany entries)[id]? = T[id]? :=
  Std.TreeMap.getElem?_insertMany_list_of_contains_eq_false
    (Bool.eq_false_iff.mpr fun hcontains => h (List.contains_iff_mem.mp hcontains))

/-- What the table has for the use at a site, when all uses have numbers of their own. -/
theorem Walk.Notes.getElem?_table {v : Walk} {before after : List Site} {site : Site} {use : Use}
    (h : Walk.start.Notes v [] (before ++ site :: after))
    (hdistinct : (usedIds (before ++ site :: after)).Nodup) (huse : site.event = .use use) :
    v.table[use.occurrence.id]? = (site.entry? before).map Prod.snd := by
  obtain ⟨-, entries, hentries, htable⟩ := h
  have hkeys : (entries.map Prod.fst).Nodup :=
    (hentries.map Prod.fst).nodup_iff.mpr ((sublist_usedIds [] _).nodup hdistinct)
  have hsplit : collect Site.entry? [] (before ++ site :: after) =
      collect Site.entry? [] before ++ (site.entry? before).toList ++
        collect Site.entry? (before ++ [site]) after := by
    rw [collect_append, collect, List.nil_append, List.append_assoc]
  have hsite : site.use? = some use := by
    unfold Site.use?
    rw [huse]
  rw [htable]
  cases hentry : site.entry? before with
  | some entry =>
    have hid : entry.1 = use.occurrence.id := by
      have hfst := entry?_fst hentry
      rw [hsite] at hfst
      exact (Option.some.inj hfst).symm
    have hmem : entry ∈ entries := by
      rw [hentries.mem_iff, hsplit, hentry]
      simp
    rw [← hid]
    exact getElem?_insertMany_of_mem hkeys hmem
  | none =>
    -- The entries come from the other uses, and these have other numbers.
    have hids : usedIds (before ++ site :: after) =
        usedIds before ++ use.occurrence.id :: usedIds after := by
      unfold usedIds
      rw [List.filterMap_append, List.filterMap_cons, hsite, List.map_append]
      rfl
    rw [hids] at hdistinct
    have hnot := (List.nodup_cons.mp (List.nodup_middle.mp hdistinct)).1
    refine getElem?_insertMany_of_not_mem fun hin => hnot (List.mem_append.mpr ?_)
    rw [(hentries.map Prod.fst).mem_iff, hsplit, hentry, Option.toList_none, List.append_nil,
      List.map_append] at hin
    exact (List.mem_append.mp hin).imp (fun hmem => (sublist_usedIds [] before).subset hmem)
      fun hmem => (sublist_usedIds _ after).subset hmem

/-! ## Programs -/

section

variable {source : String} {nextId : Nat} {program : List Stmt} {T : Table}

/-- A use in a program that resolves is looked up: a `this` stands inside a class. -/
theorem entry?_of_no_faults {before after : List Site} {site : Site} {use : Use}
    (hfaults : collect Site.fault? [] (before ++ site :: after) = [])
    (huse : site.event = .use use) :
    site.entry? before =
      (nearest? before site.around use.occurrence.name.text).map (use.occurrence.id, ·) := by
  have hnone : site.fault? before = none := by
    rw [collect_append, List.nil_append, collect] at hfaults
    have hsite := (List.append_eq_nil_iff.mp (List.append_eq_nil_iff.mp hfaults).2).1
    exact Option.toList_eq_nil_iff.mp hsite
  have hinside : ¬(use.kind = .this ∧ classAround site.around = .outside) := by
    rintro ⟨hkind, houtside⟩
    simp [Site.fault?, Site.useFault?, huse, hkind, houtside] at hnone
  unfold Site.entry?
  rw [huse]
  exact if_neg hinside

/-- The table of an accepted program has for a use what its position says. -/
theorem getElem?_of_resolved
    (hparsed : (parseProgram (tokensOf (scan source)) nextId).result = .ok program)
    (hresolved : resolveProgram program = .ok T) {before after : List Site} {site : Site}
    {use : Use} (hsites : programSites program = before ++ site :: after)
    (huse : site.event = .use use) :
    T[use.occurrence.id]? = nearest? before site.around use.occurrence.name.text := by
  obtain ⟨hnofaults, rfl⟩ := Resolves.result_eq_ok hresolved
  have hnotes := (program_walks program).notes
  have hdistinct : (usedIds (programSites program)).Nodup := by
    unfold usedIds
    rw [programSites, Stmt.filterMap_use?_listSites]
    exact (parseProgram_fresh hparsed).2.distinct
  have hfaults : collect Site.fault? [] (programSites program) = [] := by
    have hperm := hnotes.faults
    rw [hnofaults] at hperm
    exact List.map_eq_nil_iff.mp (List.append_eq_nil_iff.mp hperm.symm.eq_nil).2
  rw [hsites] at hnotes hdistinct hfaults
  rw [hnotes.getElem?_table hdistinct huse, entry?_of_no_faults hfaults huse, Option.map_map]
  exact Option.map_id'

end

/-- When a program resolves, its table is static scoping.  Each use has its site, and
    there is an entry for it just when a scope around the site declares the name before
    the site.  The entry is the number of scopes inside the innermost one that does.  What
    is written behind the site does not matter: another program that goes on in another way
    has the same entry. -/
theorem distances_by_position {source : String} {nextId : Nat} {program : List Stmt} {T : Table}
    (hparsed : (parseProgram (tokensOf (scan source)) nextId).result = .ok program)
    (hresolved : resolveProgram program = .ok T) :
    (programSites program).filterMap Site.use? = Stmt.listUses program ∧
      ∀ before site after use, programSites program = before ++ site :: after →
        site.event = .use use →
        (T[use.occurrence.id]?.isSome = true ↔
          ∃ o ∈ site.around, o.Declares before use.occurrence.name.text) ∧
        (∀ inner o outer, site.around = inner ++ o :: outer →
          o.Declares before use.occurrence.name.text →
          (∀ p ∈ inner, ¬p.Declares before use.occurrence.name.text) →
          T[use.occurrence.id]? = some inner.length) ∧
        ∀ source' nextId' program' T' after',
          (parseProgram (tokensOf (scan source')) nextId').result = .ok program' →
          resolveProgram program' = .ok T' →
          programSites program' = before ++ site :: after' →
          T'[use.occurrence.id]? = T[use.occurrence.id]? := by
  refine ⟨Stmt.filterMap_use?_listSites [] [] 0 program, ?_⟩
  intro before site after use hsites huse
  have hentry := getElem?_of_resolved hparsed hresolved hsites huse
  refine ⟨?_, fun inner o outer haround ho hinner => ?_, ?_⟩
  · rw [hentry]
    exact isSome_nearest?_iff
  · rw [hentry]
    exact nearest?_eq_some haround ho hinner
  · intro source' nextId' program' T' after' hparsed' hresolved' hsites'
    rw [hentry, getElem?_of_resolved hparsed' hresolved' hsites' huse]

/-- Between a block and a use in a function in a further block lie two scopes. -/
theorem distances_by_position_nested : ∃ program T,
    (parseProgram (tokensOf (scan "\x7bvar a;\x7bfun f()\x7bprint a;\x7d\x7d\x7d")) 0).result =
        .ok program ∧
      resolveProgram program = .ok T ∧ T[0]? = some 2 := by
  have hparsed :
      (parseProgram (tokensOf (scan "\x7bvar a;\x7bfun f()\x7bprint a;\x7d\x7d\x7d")) 0).result =
        .ok [.block [.var ⟨"a", 1⟩ none, .block [.function ⟨⟨"f", 1⟩, [],
          [.print (.name ⟨0, ⟨"a", 1⟩⟩)]⟩]]] := by cbv
  refine ⟨_, _, hparsed, rfl, ?_⟩
  have hentry := ((distances_by_position hparsed rfl).2
    [⟨[⟨.block, [0]⟩], none, .declaration ⟨"a", 1⟩⟩,
      ⟨[⟨.block, [1, 0]⟩, ⟨.block, [0]⟩], none, .declaration ⟨"f", 1⟩⟩]
    ⟨[⟨.function, [0, 1, 0]⟩, ⟨.block, [1, 0]⟩, ⟨.block, [0]⟩], none,
      .use ⟨.read, ⟨0, ⟨"a", 1⟩⟩⟩⟩ [] _ rfl rfl).2.1
  exact hentry [⟨.function, [0, 1, 0]⟩, ⟨.block, [1, 0]⟩] ⟨.block, [0]⟩ [] rfl (by decide)
    (by decide)

end Lox
