/-!
  Tables: finite maps from names to entries, kept as a list.

  A frame of variables, the fields of an instance, the methods of a class and a scope of the resolver are all
  tables.  `get?` reads and `insert` writes; a name that is present keeps its place, a new one goes to the
  end.  So the order of the entries is that in which the names were first written, and no name is there
  twice unless it was at the start.

  The lemmas say what `get?` sees after an `insert` (`get?_insert`), for the same name and for another.
  Nothing else is ever needed of a table: in what order its entries stand makes no difference to a program.
-/

namespace Lox

/-- A finite map from names to entries. -/
structure Table (α : Type) where
  /-- The entries, the first one of a name being the one that counts. -/
  entries : List (String × α)

namespace Table

variable {α : Type}

/-- The table without entries. -/
def empty : Table α := ⟨[]⟩

instance : Inhabited (Table α) := ⟨empty⟩

/-- The entry of a name, if it has one. -/
def get? (t : Table α) (name : String) : Option α :=
  find t.entries
where
  /-- The first entry of `name` in a list. -/
  find : List (String × α) → Option α
    | [] => none
    | (key, a) :: rest => if key = name then some a else find rest

/-- Whether the name has an entry. -/
def contains (t : Table α) (name : String) : Bool := (t.get? name).isSome

/-- Gives the name the entry `a`, whatever it had before. -/
def insert (t : Table α) (name : String) (a : α) : Table α :=
  ⟨put t.entries⟩
where
  /-- Replaces the first entry of `name`, or adds one at the end. -/
  put : List (String × α) → List (String × α)
    | [] => [(name, a)]
    | (key, b) :: rest => if key = name then (key, a) :: rest else (key, b) :: put rest

/-- The names that have an entry. -/
def names (t : Table α) : List String := t.entries.map Prod.fst

/-! ## What a table answers -/

@[simp] theorem get?_empty (name : String) : (empty : Table α).get? name = none := rfl

theorem find_put (name other : String) (a : α) (l : List (String × α)) :
    get?.find other (insert.put name a l) =
      if name = other then some a else get?.find other l := by
  induction l with
  | nil => rfl
  | cons e rest ih =>
    obtain ⟨key, b⟩ := e
    by_cases hk : key = name
    · by_cases h : name = other
      · simp [insert.put, get?.find, hk, h]
      · simp [insert.put, get?.find, hk, h]
    · by_cases h : name = other
      · subst h
        simp [insert.put, get?.find, hk, ih]
      · simp [insert.put, get?.find, hk, ih, h]

/-- After an `insert` the name has the new entry and all others have theirs. -/
theorem get?_insert (t : Table α) (name other : String) (a : α) :
    (t.insert name a).get? other = if name = other then some a else t.get? other :=
  find_put name other a t.entries

@[simp] theorem get?_insert_self (t : Table α) (name : String) (a : α) :
    (t.insert name a).get? name = some a := by
  simp [get?_insert]

theorem get?_insert_of_ne (t : Table α) {name other : String} (a : α) (h : name ≠ other) :
    (t.insert name a).get? other = t.get? other := by
  simp [get?_insert, h]

end Table

end Lox
