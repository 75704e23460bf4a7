/-
  Lox.Proofs.Scoping.Tables

  Tables that are put together.

    * `Table.getElem?_merge` — what a merged table has;
    * `Table.Extends` — a table with more numbers behind those of another one;
    * `Machine.Fits.extend` — what fits a table fits every extension, so that trees
      of earlier texts stay scoped when the table of a later one is added.
-/
import Lox.Proofs.Scoping.Frames
import Lox.Proofs.Scoping.Resolution
import Lox.Proofs.Scoping.Soundness

namespace Lox

namespace Table

/-! ## Merging -/

theorem merge_eq (table added : Table) : table.merge added = table.insertMany added.toList := by
  unfold merge
  rw [Std.TreeMap.foldl_eq_foldl_toList]
  generalize added.toList = entries
  induction entries generalizing table with
  | nil => rfl
  | cons entry entries ih =>
    rw [Std.TreeMap.insertMany_cons]
    exact ih (table.insert entry.1 entry.2)

/-- A merged table has the distances of the added table, and else the old ones. -/
theorem getElem?_merge (table added : Table) (id : Nat) :
    (table.merge added)[id]? = added[id]?.or table[id]? := by
  rw [merge_eq]
  cases hadded : added[id]? with
  | some d =>
    exact Std.TreeMap.getElem?_insertMany_list_of_mem Std.ReflCmp.compare_self
      Std.TreeMap.distinct_keys_toList (Std.TreeMap.mem_toList_iff_getElem?_eq_some.mpr hadded)
  | none =>
    refine Std.TreeMap.getElem?_insertMany_list_of_contains_eq_false ?_
    refine Bool.eq_false_iff.mpr fun hcontains => ?_
    obtain ⟨⟨key, d⟩, hmem, rfl⟩ := List.mem_map.mp (List.contains_iff_mem.mp hcontains)
    rw [Std.TreeMap.mem_toList_iff_getElem?_eq_some] at hmem
    simp [hadded] at hmem

/-- Without an amount to add, a table keeps its distances. -/
theorem getElem?_shift_zero (table : Table) (id : Nat) : (table.shift 0)[id]? = table[id]? := by
  unfold shift
  rw [Std.TreeMap.getElem?_map]
  simp

/-! ## Extensions -/

/-- The second table has the distances of the first one for the numbers below `n`. -/
structure Extends (T T' : Table) (n n' : Nat) : Prop where
  le : n ≤ n'
  same : ∀ id, id < n → T'[id]? = T[id]?

end Table

variable {T T' : Table} {n n' : Nat}

theorem Table.Places.extend (hT : T.Extends T' n n') {scopes : List Scope} {use : Occurrence}
    (h : T.Places n scopes use) : T'.Places n' scopes use :=
  ⟨Nat.lt_of_lt_of_le h.1 hT.le, (hT.same _ h.1).trans h.2⟩

theorem Table.Readable.extend (hT : T.Extends T' n n') {scopes : List Scope} {use : Occurrence}
    (h : T.Readable n scopes use) : T'.Readable n' scopes use := by
  refine ⟨h.1.extend hT, fun d scope hd hscope => h.2 d scope ?_ hscope⟩
  rw [← hT.same _ h.1.1]
  exact hd

theorem Table.Writable.extend (hT : T.Extends T' n n') {scopes : List Scope} {use : Occurrence}
    (h : T.Writable n scopes use) : T'.Writable n' scopes use := by
  refine ⟨h.1.extend hT, fun d scope hd hscope => h.2 d scope ?_ hscope⟩
  rw [← hT.same _ h.1.1]
  exact hd

theorem Table.Inherits.extend (hT : T.Extends T' n n') {scopes : List Scope} {use : Occurrence}
    (h : T.Inherits n scopes use) : T'.Inherits n' scopes use := by
  obtain ⟨hplaces, d, receiver, parent, hd, hrest⟩ := h
  exact ⟨hplaces.extend hT, d, receiver, parent, (hT.same _ hplaces.1).trans hd, hrest⟩

mutual

theorem Expr.Scoped.extend (hT : T.Extends T' n n') {scopes : List Scope} (e : Expr)
    (h : e.Scoped T n scopes) : e.Scoped T' n' scopes := by
  cases e with
  | literal value => trivial
  | grouping inner => exact Expr.Scoped.extend hT inner h
  | unary op sign operand => exact ⟨h.1, Expr.Scoped.extend hT operand h.2⟩
  | binary op sign left right =>
    exact ⟨h.1, Expr.Scoped.extend hT left h.2.1, Expr.Scoped.extend hT right h.2.2⟩
  | logical op sign left right =>
    exact ⟨Expr.Scoped.extend hT left h.1, Expr.Scoped.extend hT right h.2⟩
  | name use => exact Table.Readable.extend hT h
  | assign target value => exact ⟨h.1.extend hT, h.2.1, Expr.Scoped.extend hT value h.2.2⟩
  | call callee paren arguments =>
    exact ⟨Expr.Scoped.extend hT callee h.1, Expr.ListScoped.extend hT arguments h.2⟩
  | get object property => exact Expr.Scoped.extend hT object h
  | set object property value =>
    exact ⟨Expr.Scoped.extend hT object h.1, Expr.Scoped.extend hT value h.2⟩
  | this keyword => exact ⟨h.1, h.2.extend hT⟩
  | super keyword method => exact Table.Inherits.extend hT h

theorem Expr.ListScoped.extend (hT : T.Extends T' n n') {scopes : List Scope} (es : List Expr)
    (h : Expr.ListScoped T n scopes es) : Expr.ListScoped T' n' scopes es := by
  cases es with
  | nil => trivial
  | cons e es => exact ⟨Expr.Scoped.extend hT e h.1, Expr.ListScoped.extend hT es h.2⟩

end

theorem Expr.OptionScoped.extend (hT : T.Extends T' n n') {scopes : List Scope} {e : Option Expr}
    (h : Expr.OptionScoped T n scopes e) : Expr.OptionScoped T' n' scopes e := by
  cases e with
  | none => trivial
  | some e => exact Expr.Scoped.extend hT e h

mutual

theorem Stmt.Scoped.extend (hT : T.Extends T' n n') {scopes : List Scope} (s : Stmt)
    (h : s.Scoped T n scopes) : s.Scoped T' n' scopes := by
  match s with
  | .expression value => exact Expr.Scoped.extend hT value h
  | .print value => exact Expr.Scoped.extend hT value h
  | .var name initializer => exact ⟨h.1, Expr.OptionScoped.extend hT h.2⟩
  | .block body => exact Stmt.ListScoped.extend hT body h
  | .ifElse condition yes none =>
    exact ⟨Expr.Scoped.extend hT condition h.1, Stmt.Scoped.extend hT yes h.2.1, h.2.2⟩
  | .ifElse condition yes (some no) =>
    obtain ⟨hcondition, hyes, hplain, hno, hplain'⟩ := h
    exact ⟨Expr.Scoped.extend hT condition hcondition, Stmt.Scoped.extend hT yes hyes, hplain,
      Stmt.Scoped.extend hT no hno, hplain'⟩
  | .while condition body =>
    exact ⟨Expr.Scoped.extend hT condition h.1, Stmt.Scoped.extend hT body h.2.1, h.2.2⟩
  | .break _ => trivial
  | .function decl => exact ⟨h.1, FunctionDecl.Scoped.extend hT decl h.2⟩
  | .return _ value => exact Expr.OptionScoped.extend hT h
  | .class name none methods => exact ⟨h.1, FunctionDecl.ListScoped.extend hT methods h.2⟩
  | .class name (some parent) methods =>
    exact ⟨h.1, h.2.1.extend hT, FunctionDecl.ListScoped.extend hT methods h.2.2⟩

theorem Stmt.ListScoped.extend (hT : T.Extends T' n n') {scopes : List Scope} (ss : List Stmt)
    (h : Stmt.ListScoped T n scopes ss) : Stmt.ListScoped T' n' scopes ss := by
  match ss with
  | [] => trivial
  | s :: ss => exact ⟨Stmt.Scoped.extend hT s h.1, Stmt.ListScoped.extend hT ss h.2⟩

theorem FunctionDecl.Scoped.extend (hT : T.Extends T' n n') {scopes : List Scope}
    (d : FunctionDecl) (h : d.Scoped T n scopes) : d.Scoped T' n' scopes := by
  match d with
  | ⟨_, parameters, body⟩ => exact ⟨h.1, Stmt.ListScoped.extend hT body h.2⟩

theorem FunctionDecl.ListScoped.extend (hT : T.Extends T' n n') {scopes : List Scope}
    (ds : List FunctionDecl) (h : FunctionDecl.ListScoped T n scopes ds) :
    FunctionDecl.ListScoped T' n' scopes ds := by
  match ds with
  | [] => trivial
  | d :: ds => exact ⟨FunctionDecl.Scoped.extend hT d h.1, FunctionDecl.ListScoped.extend hT ds h.2⟩

end

/-! ## Machines -/

variable {s : Store}

theorem Closure.FitsMethod.extend (hT : T.Extends T' n n') {c : Closure}
    (h : c.FitsMethod T n s) : c.FitsMethod T' n' s :=
  h.imp fun _ h => ⟨h.1, FunctionDecl.Scoped.extend hT _ h.2⟩

theorem Value.Fits.extend (hT : T.Extends T' n n') {v : Value} (h : v.Fits T n s) :
    v.Fits T' n' s := by
  cases v with
  | function closure stamp =>
    exact Exists.imp (fun _ h => ⟨h.1, FunctionDecl.Scoped.extend hT _ h.2⟩) h
  | «class» cls => exact fun name method hmethod => (h name method hmethod).extend hT
  | _ => trivial

/-- A machine that is given an extension of its table goes on to fit. -/
theorem Machine.Fits.extend (hT : T.Extends T' n n') {m : Machine} (h : m.Fits T n) :
    Machine.Fits T' n' { m with table := T' } := by
  refine ⟨rfl, fun f name v hv => ?_, fun i name v hv => (h.store.fields i name v hv).extend hT,
    fun i name method hmethod => (h.store.methods i name method hmethod).extend hT⟩
  obtain ⟨hfits, hsuits⟩ := h.store.vars f name v hv
  exact ⟨hfits.extend hT, hsuits⟩

end Lox
