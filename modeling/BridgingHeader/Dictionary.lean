/-!
# Insertion-ordered dictionaries

A dictionary lists its entries in the order in which their keys were first inserted. Inserting an
existing key replaces the value where it stands.
-/

namespace BridgingHeader

/-- Entries in insertion order. -/
structure Dictionary (α : Type) where
  entries : List (String × α) := []
  deriving DecidableEq, Repr, Inhabited

namespace Dictionary

variable {α : Type}

/-- The dictionary without entries. -/
def empty : Dictionary α := ⟨[]⟩

/-- The number of entries. -/
def size (d : Dictionary α) : Nat := d.entries.length

/-- The keys in order. -/
def keys (d : Dictionary α) : List String := d.entries.map Prod.fst

/-- The value of the first entry with a key. -/
def get? (d : Dictionary α) (key : String) : Option α := d.entries.lookup key

/-- A key is present if some entry has it. -/
def contains (d : Dictionary α) (key : String) : Bool := d.entries.any (·.1 == key)

/-- Entries after an insertion: the first entry with the key takes the value, and without one the
entry goes to the end. -/
def insertEntry (key : String) (value : α) : List (String × α) → List (String × α)
  | [] => [(key, value)]
  | entry :: rest =>
    if entry.1 = key then (key, value) :: rest else entry :: insertEntry key value rest

/-- Sets the value of a key, in place if the key is present. -/
def insert (d : Dictionary α) (key : String) (value : α) : Dictionary α :=
  ⟨insertEntry key value d.entries⟩

/-- Entries with the value of the first entry under a key changed. -/
def modifyEntry (key : String) (change : α → α) : List (String × α) → List (String × α)
  | [] => []
  | entry :: rest =>
    if entry.1 = key then (entry.1, change entry.2) :: rest
    else entry :: modifyEntry key change rest

/-- Changes the value of a key where it stands; without the key nothing changes. -/
def modify (d : Dictionary α) (key : String) (change : α → α) : Dictionary α :=
  ⟨modifyEntry key change d.entries⟩

/-- Inserts pairs one after the other, starting from nothing. -/
def ofList (pairs : List (String × α)) : Dictionary α :=
  pairs.foldl (fun d pair => d.insert pair.1 pair.2) empty

@[simp] theorem get?_empty (key : String) : (empty : Dictionary α).get? key = none := rfl

/-- After an insertion the inserted key has the new value and all others keep theirs. -/
theorem get?_insert (d : Dictionary α) (key other : String) (value : α) :
    (d.insert key value).get? other = if other = key then some value else d.get? other := by
  obtain ⟨entries⟩ := d
  simp only [get?, insert]
  induction entries with
  | nil =>
    by_cases h : other = key
    · simp [insertEntry, h]
    · simp [insertEntry, List.lookup_cons, beq_false_of_ne h, h]
  | cons entry rest ih =>
    by_cases hk : entry.1 = key
    · by_cases h : other = key
      · simp [insertEntry, hk, h]
      · have hb : (other == entry.1) = false := beq_false_of_ne fun e => h (e.trans hk)
        rw [insertEntry, if_pos hk, List.lookup_cons, List.lookup_cons, hb, beq_false_of_ne h,
          if_neg h]
    · rw [insertEntry, if_neg hk, List.lookup_cons, ih, List.lookup_cons]
      by_cases h : other = entry.1
      · simp [h, hk]
      · simp [beq_false_of_ne h]

/-- A key is present exactly when it has a value. -/
theorem contains_eq_isSome (d : Dictionary α) (key : String) :
    d.contains key = (d.get? key).isSome := by
  obtain ⟨entries⟩ := d
  simp only [contains, get?]
  induction entries with
  | nil => simp
  | cons entry rest ih =>
    obtain ⟨k, value⟩ := entry
    by_cases h : k = key
    · simp [h]
    · rw [List.lookup_cons, beq_false_of_ne (Ne.symm h), List.any_cons, beq_false_of_ne h, ih]
      rfl

end Dictionary

end BridgingHeader
