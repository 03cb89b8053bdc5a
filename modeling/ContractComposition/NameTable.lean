/-!
# Tables keyed by names

A `NameTable α` gives each of finitely many names one entry. The entries are kept in strictly
ascending order of their names, so a table is determined by what it maps to what, and listing it
does not depend on the history of insertions.

`find?_insert` is the law that determines look-up: an insertion is seen under its own name and
nowhere else, and a later insertion under a name replaces an earlier one.
-/

namespace ContractComposition

/-- A finite map from names to values of type `α`, listed in ascending order of the names. -/
structure NameTable (α : Type) where
  /-- The entries, by ascending name. -/
  entries : List (String × α)
  /-- No name comes twice, and the names ascend. -/
  ascending : entries.Pairwise (fun a b => a.1 < b.1)

namespace NameTable

variable {α : Type}

/-- The table without entries. -/
def empty : NameTable α := ⟨[], List.Pairwise.nil⟩

instance : EmptyCollection (NameTable α) := ⟨empty⟩

instance : Inhabited (NameTable α) := ⟨empty⟩

/-- Puts an entry in its place in an ascending list, over an entry of the same name. -/
def insertEntry (name : String) (value : α) : List (String × α) → List (String × α)
  | [] => [(name, value)]
  | entry :: rest =>
    if entry.1 < name then entry :: insertEntry name value rest
    else if name = entry.1 then (name, value) :: rest
    else (name, value) :: entry :: rest

theorem mem_insertEntry {name : String} {value : α} {entries : List (String × α)}
    {entry : String × α} (h : entry ∈ insertEntry name value entries) :
    entry = (name, value) ∨ entry ∈ entries := by
  induction entries with
  | nil => simpa [insertEntry] using h
  | cons first rest ih =>
    unfold insertEntry at h
    split at h
    · rcases List.mem_cons.1 h with h | h
      · exact .inr (h ▸ List.mem_cons_self)
      · exact (ih h).imp id (List.mem_cons_of_mem _)
    · split at h
      · rcases List.mem_cons.1 h with h | h
        · exact .inl h
        · exact .inr (List.mem_cons_of_mem _ h)
      · simpa using h

theorem pairwise_insertEntry (name : String) (value : α) {entries : List (String × α)}
    (h : entries.Pairwise (fun a b => a.1 < b.1)) :
    (insertEntry name value entries).Pairwise (fun a b => a.1 < b.1) := by
  induction entries with
  | nil => simp [insertEntry]
  | cons first rest ih =>
    have hrest := List.pairwise_cons.1 h
    unfold insertEntry
    split
    · rename_i hlt
      refine List.pairwise_cons.2 ⟨fun entry hentry => ?_, ih hrest.2⟩
      rcases mem_insertEntry hentry with rfl | hentry
      · exact hlt
      · exact hrest.1 entry hentry
    · split
      · rename_i heq
        exact List.pairwise_cons.2 ⟨fun entry hentry => heq ▸ hrest.1 entry hentry, hrest.2⟩
      · rename_i hle hne
        have hlt : name < first.1 := by
          rcases Decidable.em (name < first.1) with hlt | hge
          · exact hlt
          · exact absurd (String.le_antisymm (String.not_lt.1 hle) (String.not_lt.1 hge)) hne
        refine List.pairwise_cons.2 ⟨fun entry hentry => ?_, h⟩
        rcases List.mem_cons.1 hentry with rfl | hentry
        · exact hlt
        · exact String.lt_trans hlt (hrest.1 entry hentry)

/-- Enters `value` under `name`; an earlier entry under that name is replaced. -/
def insert (table : NameTable α) (name : String) (value : α) : NameTable α :=
  ⟨insertEntry name value table.entries, pairwise_insertEntry name value table.ascending⟩

/-- The table that results from inserting the pairs of a list one after another. -/
def ofList (pairs : List (String × α)) : NameTable α :=
  pairs.foldl (fun table pair => table.insert pair.1 pair.2) empty

/-- The value entered under `name`, if there is one. -/
def find? (table : NameTable α) (name : String) : Option α :=
  table.entries.lookup name

/-- Whether there is an entry under `name`. -/
def contains (table : NameTable α) (name : String) : Bool :=
  (table.find? name).isSome

/-- The number of entries. -/
def size (table : NameTable α) : Nat :=
  table.entries.length

/-- Whether there are no entries. -/
def isEmpty (table : NameTable α) : Bool :=
  table.entries.isEmpty

/-- The names that have an entry, ascending. -/
def names (table : NameTable α) : List String :=
  table.entries.map Prod.fst

@[ext]
theorem ext {a b : NameTable α} (h : a.entries = b.entries) : a = b := by
  cases a; cases b; simpa using h

theorem lookup_cons_eq_ite (name : String) (entry : String × α) (rest : List (String × α)) :
    (entry :: rest).lookup name = if name = entry.1 then some entry.2 else rest.lookup name := by
  obtain ⟨key, value⟩ := entry
  rw [List.lookup_cons]
  by_cases h : name = key
  · rw [if_pos h, beq_iff_eq.2 h]
  · rw [if_neg h, beq_eq_false_iff_ne.2 h]

theorem lookup_insertEntry (name other : String) (value : α) (entries : List (String × α)) :
    (insertEntry name value entries).lookup other =
      if other = name then some value else entries.lookup other := by
  induction entries with
  | nil => simp [insertEntry, lookup_cons_eq_ite]
  | cons first rest ih =>
    unfold insertEntry
    split
    · rename_i hlt
      simp only [lookup_cons_eq_ite, ih]
      rcases Decidable.em (other = first.1) with h | h
      · have h' : ¬ first.1 = name := fun hn => String.lt_irrefl name (hn ▸ hlt)
        simp [h, h']
      · simp [h]
    · split
      · rename_i heq
        simp only [lookup_cons_eq_ite, ← heq]
        split <;> rfl
      · simp [lookup_cons_eq_ite]

/-- An insertion is seen under its own name and nowhere else. -/
@[simp]
theorem find?_insert (table : NameTable α) (name other : String) (value : α) :
    (table.insert name value).find? other =
      if other = name then some value else table.find? other :=
  lookup_insertEntry name other value table.entries

@[simp]
theorem find?_empty (name : String) : (empty : NameTable α).find? name = none := rfl

end NameTable

end ContractComposition
