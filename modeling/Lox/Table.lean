import Lox.Text

/-!
# Tables

A table holds at most one value for each name. Scopes, fields and methods are tables.
-/

namespace Lox

/-- Values under names. -/
structure Table (α : Type) where
  entries : List (Text × α)
  deriving Repr

namespace Table

variable {α : Type}

def empty : Table α := ⟨[]⟩

/-- The value under a name in a list of entries: the first one. -/
def find? (name : Text) : List (Text × α) → Option α
  | [] => none
  | (n, v) :: rest => if n = name then some v else find? name rest

/-- The entries with a value put under a name, in the place of the one that was there. -/
def put (name : Text) (value : α) : List (Text × α) → List (Text × α)
  | [] => [(name, value)]
  | (n, v) :: rest => if n = name then (name, value) :: rest else (n, v) :: put name value rest

def get? (t : Table α) (name : Text) : Option α := find? name t.entries

def has (t : Table α) (name : Text) : Bool := (t.get? name).isSome

/-- Puts a value under a name, in the place of the one that was there. -/
def insert (t : Table α) (name : Text) (value : α) : Table α := ⟨put name value t.entries⟩

def erase (t : Table α) (name : Text) : Table α := ⟨t.entries.filter fun e => e.1 ≠ name⟩

/-- The table with the entries of a list put in, in order. -/
def ofList (entries : List (Text × α)) : Table α :=
  entries.foldl (fun t (name, value) => t.insert name value) empty

/-- The entries in the order of the bytes of their names. -/
def sorted (t : Table α) : List (Text × α) := t.entries.mergeSort fun a b => a.1 ≤ b.1

@[simp]
theorem get?_empty (name : Text) : (empty : Table α).get? name = none := rfl

/-- Putting a value in changes what is under its name and nothing else. -/
theorem get?_insert (t : Table α) (name other : Text) (value : α) :
    (t.insert name value).get? other = if other = name then some value else t.get? other := by
  obtain ⟨entries⟩ := t
  unfold get? insert
  induction entries with
  | nil => simp [put, find?, eq_comm]
  | cons e rest ih =>
    obtain ⟨n, v⟩ := e
    simp only at ih
    by_cases hn : n = name
    · by_cases ho : n = other <;> simp_all [put, find?, eq_comm]
    · by_cases ho : n = other
      · subst ho
        simp [put, find?, hn]
      · simp [put, find?, hn, ho, ih]

/-- Taking a name out leaves nothing under it and changes nothing else. -/
theorem get?_erase (t : Table α) (name other : Text) :
    (t.erase name).get? other = if other = name then none else t.get? other := by
  obtain ⟨entries⟩ := t
  unfold get? erase
  induction entries with
  | nil => simp [find?]
  | cons e rest ih =>
    obtain ⟨n, v⟩ := e
    simp only at ih
    by_cases hn : n = name
    · subst hn
      by_cases ho : other = n <;> simp_all [find?, eq_comm]
    · by_cases ho : n = other
      · subst ho
        simp [find?, hn]
      · simp_all [find?]

end Table

end Lox
