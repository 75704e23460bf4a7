/-
  Lox.Bindings

  Finite maps from names, as lists of pairs in the order in which the names were
  first bound.  `get?_insert_self` and `get?_insert_of_ne` say what reading sees
  after a write, and `insert_insert` that of two writes the second one counts.
-/

namespace Lox

/-- A finite map from names. -/
structure Bindings (α : Type) where
  entries : List (String × α)

namespace Bindings

variable {α : Type}

/-- The map without names. -/
def empty : Bindings α := ⟨[]⟩

/-- What a list of pairs has for a name. -/
def find? (name : String) : List (String × α) → Option α
  | [] => none
  | (key, value) :: rest => if key = name then some value else find? name rest

/-- Puts a value in the place of the first one for a name, or at the end. -/
def put (name : String) (value : α) : List (String × α) → List (String × α)
  | [] => [(name, value)]
  | (key, old) :: rest =>
    if key = name then (key, value) :: rest else (key, old) :: put name value rest

/-- The value bound to a name. -/
def get? (b : Bindings α) (name : String) : Option α := find? name b.entries

/-- Whether a name is bound. -/
def contains (b : Bindings α) (name : String) : Bool := (b.get? name).isSome

/-- Binds a name, in place of what it was bound to. -/
def insert (b : Bindings α) (name : String) (value : α) : Bindings α :=
  ⟨put name value b.entries⟩

/-- The map with a single name. -/
def single (name : String) (value : α) : Bindings α := ⟨[(name, value)]⟩

/-! ## Reading after writing -/

@[simp] theorem get?_empty (name : String) : (empty : Bindings α).get? name = none := rfl

theorem find?_put_self (name : String) (value : α) (entries : List (String × α)) :
    find? name (put name value entries) = some value := by
  induction entries with
  | nil => simp [put, find?]
  | cons entry rest ih => by_cases h : entry.1 = name <;> simp [put, find?, h, ih]

theorem find?_put_of_ne {name other : String} (h : other ≠ name) (value : α)
    (entries : List (String × α)) :
    find? other (put name value entries) = find? other entries := by
  induction entries with
  | nil => simp [put, find?, Ne.symm h]
  | cons entry rest ih =>
    by_cases hk : entry.1 = name
    · simp [put, find?, hk, Ne.symm h]
    · simp [put, find?, hk, ih]

@[simp] theorem get?_insert_self (b : Bindings α) (name : String) (value : α) :
    (b.insert name value).get? name = some value :=
  find?_put_self name value b.entries

theorem get?_insert_of_ne (b : Bindings α) {name other : String} (h : other ≠ name)
    (value : α) : (b.insert name value).get? other = b.get? other :=
  find?_put_of_ne h value b.entries

/-! ## Writing twice -/

theorem put_put (name : String) (x y : α) (entries : List (String × α)) :
    put name y (put name x entries) = put name y entries := by
  induction entries with
  | nil => simp [put]
  | cons entry rest ih => by_cases h : entry.1 = name <;> simp [put, h, ih]

theorem insert_insert (b : Bindings α) (name : String) (x y : α) :
    (b.insert name x).insert name y = b.insert name y :=
  congrArg Bindings.mk (put_put name x y b.entries)

end Bindings

end Lox
