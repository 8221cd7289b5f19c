/-!
# Tables

Values kept under names, in the order in which the names came up first. A table
is known by its look-ups: a name finds what was put under it last
(`get?_insert_self`), and no other name is touched (`get?_insert_of_ne`).
-/

namespace Dialogue

structure Table (α : Type) where
  entries : List (String × α) := []
deriving DecidableEq

namespace Table

variable {α : Type}

def get? (t : Table α) (name : String) : Option α := t.entries.lookup name

def contains (t : Table α) (name : String) : Bool := (t.get? name).isSome

/-- The entries with `value` under `name`; the place of a name does not change. -/
def insertEntry (name : String) (value : α) : List (String × α) → List (String × α)
  | [] => [(name, value)]
  | (other, old) :: rest =>
    if other = name then (name, value) :: rest else (other, old) :: insertEntry name value rest

/-- Puts a value under a name, in place of what was there. -/
def insert (t : Table α) (name : String) (value : α) : Table α :=
  ⟨insertEntry name value t.entries⟩

def erase (t : Table α) (name : String) : Table α :=
  ⟨t.entries.filter fun entry => entry.1 ≠ name⟩

def names (t : Table α) : List String := t.entries.map Prod.fst

def size (t : Table α) : Nat := t.entries.length

def ofList (entries : List (String × α)) : Table α :=
  entries.foldl (fun t entry => t.insert entry.1 entry.2) {}

def sortedNames (t : Table α) : List String := t.names.mergeSort fun a b => decide (a ≤ b)

@[simp] theorem get?_insert_self (t : Table α) (name : String) (value : α) :
    (t.insert name value).get? name = some value := by
  unfold insert get?
  induction t.entries with
  | nil => simp [insertEntry]
  | cons entry rest ih =>
    obtain ⟨other, old⟩ := entry
    by_cases h : other = name
    · simp [insertEntry, h]
    · have hb : (name == other) = false := by simpa using Ne.symm h
      simpa [insertEntry, h, List.lookup_cons, hb] using ih

theorem get?_insert_of_ne (t : Table α) (name other : String) (value : α) (h : other ≠ name) :
    (t.insert name value).get? other = t.get? other := by
  unfold insert get?
  induction t.entries with
  | nil =>
    have hb : (other == name) = false := by simpa using h
    simp [insertEntry, List.lookup_cons, hb]
  | cons entry rest ih =>
    obtain ⟨key, old⟩ := entry
    by_cases hk : key = name
    · have hb : (other == name) = false := by simpa using h
      simp [insertEntry, hk, List.lookup_cons, hb]
    · by_cases ho : other = key
      · simp [insertEntry, hk, ho]
      · have hb : (other == key) = false := by simpa using ho
        simpa [insertEntry, hk, List.lookup_cons, hb] using ih

end Table

end Dialogue
