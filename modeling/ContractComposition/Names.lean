/-!
# Sets of names

A set of names is kept as a list in strictly ascending order, so that two sets with the same
members are the same list and every listing of one comes out in the same order. Names are
ordered by their characters' code points.
-/

namespace ContractComposition

namespace Names

/-- Adds one name to an ascending list of names; a name that is there already is not repeated. -/
def insert (name : String) : List String → List String
  | [] => [name]
  | other :: rest =>
    if name < other then name :: other :: rest
    else if name = other then other :: rest
    else other :: insert name rest

/-- The names of a list in ascending order, each once. -/
def ofList (names : List String) : List String :=
  names.foldr insert []

@[simp]
theorem mem_insert {x name : String} {names : List String} :
    x ∈ insert name names ↔ x = name ∨ x ∈ names := by
  induction names with
  | nil => simp [insert]
  | cons other rest ih =>
    unfold insert
    split
    · simp
    · split
      · rename_i h; simp [h]
      · simp only [List.mem_cons, ih]
        constructor
        · rintro (h | h | h) <;> simp [h]
        · rintro (h | h | h) <;> simp [h]

@[simp]
theorem mem_ofList {x : String} {names : List String} : x ∈ ofList names ↔ x ∈ names := by
  induction names with
  | nil => simp [ofList]
  | cons name rest ih =>
    have h : ofList (name :: rest) = insert name (ofList rest) := rfl
    simp [h, ih]

/-- Inserting keeps a list of names ascending. -/
theorem pairwise_insert (name : String) {names : List String}
    (h : names.Pairwise (· < ·)) : (insert name names).Pairwise (· < ·) := by
  induction names with
  | nil => simp [insert]
  | cons other rest ih =>
    have hrest := List.pairwise_cons.1 h
    unfold insert
    split
    · rename_i hlt
      refine List.pairwise_cons.2 ⟨fun x hx => ?_, h⟩
      rcases List.mem_cons.1 hx with rfl | hx
      · exact hlt
      · exact String.lt_trans hlt (hrest.1 x hx)
    · split
      · exact h
      · rename_i hlt hne
        refine List.pairwise_cons.2 ⟨fun x hx => ?_, ih hrest.2⟩
        rcases mem_insert.1 hx with rfl | hx
        · rcases Decidable.em (other < x) with hgt | hle
          · exact hgt
          · exact absurd (String.le_antisymm (String.not_lt.1 hle) (String.not_lt.1 hlt)) hne
        · exact hrest.1 x hx

/-- The names of a list come out strictly ascending. -/
theorem pairwise_ofList (names : List String) : (ofList names).Pairwise (· < ·) := by
  induction names with
  | nil => simp [ofList]
  | cons name rest ih => exact pairwise_insert name ih

end Names

end ContractComposition
