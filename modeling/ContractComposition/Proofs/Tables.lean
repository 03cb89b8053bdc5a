import Mathlib.Data.List.Sort
import ContractComposition.Bindings.Basic

/-!
# Look-up in tables of bindings

A table of bindings is determined by what it binds to what, so everything below is stated through
`NameTable.find?`. One table is `ExtendedBy` another one if every binding of the first is a binding
of the second; the second is then at least as large, and if it is not larger it is the same table.

Joining tables keeps the first table and adds what it does not bind yet (`Bindings.find?_join?`).
Tables can be joined if they agree on the variables that both of them bind
(`Bindings.exists_join?_of_agree`).
-/

namespace ContractComposition

namespace NameTable

variable {α : Type}

/-- Looking up a name in an ascending list of entries finds exactly the entries of the list. -/
lemma lookup_eq_some_iff {entries : List (String × α)}
    (h : entries.Pairwise (fun a b => a.1 < b.1)) {name : String} {value : α} :
    entries.lookup name = some value ↔ (name, value) ∈ entries := by
  induction entries with
  | nil => simp
  | cons entry rest ih =>
    obtain ⟨hfirst, hrest⟩ := List.pairwise_cons.1 h
    rw [lookup_cons_eq_ite]
    by_cases hname : name = entry.1
    · rw [if_pos hname]
      constructor
      · rintro hvalue
        obtain rfl := Option.some.inj hvalue
        exact List.mem_cons.2 (.inl (Prod.ext hname rfl))
      · intro hmem
        rcases List.mem_cons.1 hmem with hmem | hmem
        · rw [← hmem]
        · have hlt : entry.1 < name := hfirst _ hmem
          exact absurd (hname ▸ hlt) (String.lt_irrefl _)
    · rw [if_neg hname, ih hrest]
      constructor
      · exact List.mem_cons_of_mem _
      · intro hmem
        rcases List.mem_cons.1 hmem with hmem | hmem
        · exact absurd (congrArg Prod.fst hmem) hname
        · exact hmem

/-- A table gives a name a value exactly if it lists the two together. -/
lemma find?_eq_some_iff {table : NameTable α} {name : String} {value : α} :
    table.find? name = some value ↔ (name, value) ∈ table.entries :=
  lookup_eq_some_iff table.ascending

/-- A table contains a name exactly if it gives it a value. -/
lemma contains_iff {table : NameTable α} {name : String} :
    table.contains name = true ↔ ∃ value, table.find? name = some value := by
  rw [contains, Option.isSome_iff_exists]

/-- A table does not contain a name exactly if look-up finds nothing. -/
lemma contains_eq_false_iff {table : NameTable α} {name : String} :
    table.contains name = false ↔ table.find? name = none := by
  rw [contains, Option.isSome_eq_false_iff, Option.isNone_iff_eq_none]

/-- The names of a table are those that it contains. -/
lemma mem_names_iff {table : NameTable α} {name : String} :
    name ∈ table.names ↔ table.contains name = true := by
  simp only [names, List.mem_map, contains_iff, find?_eq_some_iff, Prod.exists, exists_and_right,
    exists_eq_right]

/-- What holds of every entry holds of every value that is found. -/
lemma forall_find?_iff {table : NameTable α} {p : String → α → Prop} :
    (∀ name value, table.find? name = some value → p name value) ↔
      ∀ entry ∈ table.entries, p entry.1 entry.2 := by
  simp only [find?_eq_some_iff, Prod.forall]

@[simp]
lemma find?_emptyCollection (name : String) : (∅ : NameTable α).find? name = none := rfl

/-- No entry is listed twice. -/
lemma entries_nodup (table : NameTable α) : table.entries.Nodup := by
  refine List.Pairwise.imp (fun {a b} (hlt : a.1 < b.1) => ?_) table.ascending
  rintro rfl
  exact String.lt_irrefl _ hlt

/-- What is found after inserting some pairs is one of them or was there before. -/
lemma mem_or_find?_of_foldl_insert {pairs : List (String × α)} {table : NameTable α}
    {name : String} {value : α}
    (h : (pairs.foldl (fun table pair => table.insert pair.1 pair.2) table).find? name =
      some value) : (name, value) ∈ pairs ∨ table.find? name = some value := by
  induction pairs generalizing table with
  | nil => exact .inr h
  | cons pair pairs ih =>
    rcases ih h with hmem | hfind
    · exact .inl (List.mem_cons_of_mem _ hmem)
    · rw [find?_insert] at hfind
      split at hfind
      · rename_i hname
        cases hfind
        exact .inl (hname ▸ List.mem_cons_self)
      · exact .inr hfind

lemma mem_of_find?_ofList {pairs : List (String × α)} {name : String} {value : α}
    (h : (ofList pairs).find? name = some value) : (name, value) ∈ pairs := by
  rcases mem_or_find?_of_foldl_insert h with hmem | hempty
  · exact hmem
  · simp at hempty

/-- What holds of every pair of a list holds of every value that the table made of it gives. -/
lemma forall_find?_ofList {pairs : List (String × α)} {p : String → α → Prop}
    (h : ∀ pair ∈ pairs, p pair.1 pair.2) (name : String) (value : α)
    (hfind : (ofList pairs).find? name = some value) : p name value :=
  h (name, value) (mem_of_find?_ofList hfind)

/-- Insertions under other names do not remove an entry. -/
lemma exists_find?_foldl_insert {pairs : List (String × α)} {table : NameTable α} {name : String}
    {value : α} (h : (name, value) ∈ pairs ∨ table.find? name = some value) :
    ∃ found, (pairs.foldl (fun table pair => table.insert pair.1 pair.2) table).find? name =
      some found := by
  induction pairs generalizing table value with
  | nil => exact ⟨value, h.resolve_left List.not_mem_nil⟩
  | cons pair pairs ih =>
    rw [List.foldl_cons]
    by_cases hname : name = pair.1
    · have hfound : (table.insert pair.1 pair.2).find? name = some pair.2 := by
        rw [find?_insert, if_pos hname]
      exact ih (.inr hfound)
    · have hkept : (name, value) ∈ pairs ∨
          (table.insert pair.1 pair.2).find? name = some value := by
        rw [find?_insert, if_neg hname]
        refine h.imp_left fun hmem => (List.mem_cons.1 hmem).resolve_left ?_
        rintro rfl
        exact hname rfl
      exact ih hkept

/-- Every name of a list of pairs is found in the table made of the list. -/
lemma exists_find?_ofList {pairs : List (String × α)} {name : String} {value : α}
    (h : (name, value) ∈ pairs) : ∃ found, (ofList pairs).find? name = some found :=
  exists_find?_foldl_insert (.inl h)

end NameTable

namespace Bindings

/-- Every binding of the one table is a binding of the other. -/
def ExtendedBy (b b' : Bindings) : Prop :=
  ∀ x t, b.find? x = some t → b'.find? x = some t

namespace ExtendedBy

lemma refl (b : Bindings) : b.ExtendedBy b := fun _ _ h => h

lemma trans {a b c : Bindings} (hab : a.ExtendedBy b) (hbc : b.ExtendedBy c) : a.ExtendedBy c := by
  intro x t h
  exact hbc x t (hab x t h)

lemma subset {b b' : Bindings} (h : b.ExtendedBy b') : b.entries ⊆ b'.entries := by
  intro entry hentry
  exact NameTable.find?_eq_some_iff.1 (h _ _ (NameTable.find?_eq_some_iff.2 hentry))

/-- A table that is extended without growing is not changed. -/
lemma eq_of_size_le {b b' : Bindings} (h : b.ExtendedBy b') (hsize : b'.size ≤ b.size) :
    b' = b := by
  have hsub : b.entries.Subperm b'.entries := List.subperm_of_subset b.entries_nodup h.subset
  have hperm : b.entries.Perm b'.entries := hsub.perm_of_length_le hsize
  -- Both lists ascend, so a permutation between them leaves every entry in its place.
  refine NameTable.ext (hperm.symm.eq_of_pairwise ?_ b'.ascending b.ascending)
  intro a c _ _ hac hca
  exact absurd (String.lt_trans hac hca) (String.lt_irrefl _)

/-- Tables that extend each other are the same. -/
lemma antisymm {b b' : Bindings} (h : b.ExtendedBy b') (h' : b'.ExtendedBy b) : b = b' :=
  (h.eq_of_size_le (List.subperm_of_subset b'.entries_nodup h'.subset).length_le).symm

end ExtendedBy

/-- A variable is bound after a join as it was before, or else as in the entries that are added. -/
lemma find?_joinEntries {b joined : Bindings} {entries : List (String × Ty)}
    (h : joinEntries b entries = some joined) (x : String) :
    joined.find? x = (b.find? x).or (entries.lookup x) := by
  induction entries generalizing b with
  | nil =>
    obtain rfl := Option.some.inj h
    simp
  | cons entry rest ih =>
    obtain ⟨y, t⟩ := entry
    rw [joinEntries] at h
    rw [NameTable.lookup_cons_eq_ite]
    split at h
    · rename_i hnone
      rw [ih h, bind, NameTable.find?_insert]
      by_cases hx : x = y
      · subst hx
        simp [hnone]
      · simp [hx]
    · rename_i u hsome
      split at h
      · rw [ih h]
        by_cases hx : x = y
        · subst hx
          simp [hsome]
        · simp [hx]
      · exact absurd h (by simp)

/-- A joined table binds a variable as the first table does, or else as the second one does. -/
lemma find?_join? {b other joined : Bindings} (h : b.join? other = some joined) (x : String) :
    joined.find? x = (b.find? x).or (other.find? x) :=
  find?_joinEntries h x

/-- Joining keeps the bindings of the first table. -/
lemma extendedBy_of_join? {b other joined : Bindings} (h : b.join? other = some joined) :
    b.ExtendedBy joined := by
  intro x t hx
  rw [find?_join? h, hx, Option.some_or]

/-- A binding of a joined table comes from one of the two tables. -/
lemma find?_of_join? {b other joined : Bindings} (h : b.join? other = some joined) {x : String}
    {t : Ty} (hx : joined.find? x = some t) : b.find? x = some t ∨ other.find? x = some t := by
  rw [find?_join? h, Option.or_eq_some_iff] at hx
  exact hx.imp id And.right

/-- Entries that can be added agree with what is bound already, up to normal form. -/
lemma beq_of_joinEntries {b joined : Bindings} {entries : List (String × Ty)}
    (h : joinEntries b entries = some joined) {x : String} {t u : Ty} (ht : b.find? x = some t)
    (hu : (x, u) ∈ entries) : (t.normalize == u.normalize) = true := by
  induction entries generalizing b with
  | nil => cases hu
  | cons entry rest ih =>
    obtain ⟨y, s⟩ := entry
    rw [joinEntries] at h
    split at h
    · rename_i hnone
      have hne : x ≠ y := by
        rintro rfl
        rw [ht] at hnone
        cases hnone
      refine ih h ?_ ((List.mem_cons.1 hu).resolve_left fun heq => hne (congrArg Prod.fst heq))
      rw [bind, NameTable.find?_insert, if_neg hne, ht]
    · rename_i v hv
      split at h
      · rename_i hagree
        rcases List.mem_cons.1 hu with heq | hmem
        · obtain ⟨rfl, rfl⟩ := Prod.mk.inj heq
          rw [ht] at hv
          rwa [Option.some.inj hv]
        · exact ih h ht hmem
      · cases h

/-- A table that can be joined to another one agrees with it, up to normal form. -/
lemma beq_of_join? {b other joined : Bindings} (h : b.join? other = some joined) {x : String}
    {t u : Ty} (ht : b.find? x = some t) (hu : other.find? x = some u) :
    (t.normalize == u.normalize) = true :=
  beq_of_joinEntries h ht (NameTable.find?_eq_some_iff.1 hu)

/-- Entries for different variables can be added if they agree with what is bound already, up to
normal form. -/
lemma exists_joinEntries_of_agree {b : Bindings} {entries : List (String × Ty)}
    (hentries : entries.Pairwise (fun a b => a.1 < b.1))
    (h : ∀ entry ∈ entries, ∀ t, b.find? entry.1 = some t →
      (t.normalize == entry.2.normalize) = true) :
    ∃ joined, joinEntries b entries = some joined := by
  induction entries generalizing b with
  | nil => exact ⟨b, rfl⟩
  | cons entry rest ih =>
    obtain ⟨x, u⟩ := entry
    obtain ⟨hfirst, hrest⟩ := List.pairwise_cons.1 hentries
    obtain ⟨hx, hothers⟩ := List.forall_mem_cons.1 h
    rw [joinEntries]
    cases hfind : b.find? x with
    | none =>
      refine ih hrest fun entry hentry t ht => hothers entry hentry t ?_
      have hne : entry.1 ≠ x := fun heq => String.lt_irrefl x (heq ▸ hfirst entry hentry)
      rwa [bind, NameTable.find?_insert, if_neg hne] at ht
    | some t =>
      dsimp only
      rw [if_pos (hx t hfind)]
      exact ih hrest hothers

/-- Tables can be joined if they agree, up to normal form, on the variables that both of them
bind. -/
lemma exists_join?_of_agree {b other : Bindings}
    (h : ∀ x t u, b.find? x = some t → other.find? x = some u →
      (t.normalize == u.normalize) = true) : ∃ joined, b.join? other = some joined :=
  exists_joinEntries_of_agree other.ascending fun entry hentry t ht =>
    h entry.1 t entry.2 ht (NameTable.find?_eq_some_iff.2 hentry)

/-- Tables that bind no common variable can be joined. -/
lemma exists_join?_of_disjoint {b other : Bindings}
    (h : ∀ x t, other.find? x = some t → b.find? x = none) :
    ∃ joined, b.join? other = some joined := by
  refine exists_join?_of_agree fun x t u ht hu => ?_
  rw [h x u hu] at ht
  cases ht

end Bindings

end ContractComposition
