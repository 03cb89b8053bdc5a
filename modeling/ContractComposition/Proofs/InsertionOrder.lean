import Mathlib.Data.List.Induction
import Mathlib.Data.List.Nodup
import ContractComposition.Catalog

/-!
# Catalogs as insertion-ordered maps

A catalog comes about by inserting operations one after another. One insertion does two things: a
name that is new is written behind the others, while a known one keeps its place
(`Catalog.names_insert`), and the name leads to the inserted operation from then on
(`Catalog.find?_insert`). So after a history of insertions the names stand in the order in which
they were first inserted, each once, and each leads to the last operation inserted under it.

The names and where they lead are all that composing uses of a catalog. It goes through the names in
the order of the catalog and keeps those that are of interest (`Catalog.select_eq_filterMap`), so it
does not matter in which order or how often names of interest are listed
(`catalog_acts_as_insertion_ordered_map`).
-/

namespace ContractComposition

namespace Catalog

variable {catalog : Catalog} {inserted operations : List Generator} {operation : Generator}
  {name : String}

/-! ### One insertion -/

lemma insertOperation_of_notMem (h : operation.name ∉ operations.map Generator.name) :
    insertOperation operation operations = operations ++ [operation] := by
  induction operations with
  | nil => rfl
  | cons first rest ih =>
    rw [List.map_cons, List.mem_cons, not_or] at h
    rw [insertOperation, if_neg (Ne.symm h.1), ih h.2]
    rfl

lemma map_name_insertOperation_of_mem (h : operation.name ∈ operations.map Generator.name) :
    (insertOperation operation operations).map Generator.name = operations.map Generator.name := by
  induction operations with
  | nil => simp at h
  | cons first rest ih =>
    unfold insertOperation
    by_cases hname : first.name = operation.name
    · simp [hname]
    · have hrest : operation.name ∈ rest.map Generator.name :=
        (List.mem_cons.1 h).resolve_left (Ne.symm hname)
      simp [hname, ih hrest]

/-- A new name is written behind the others, and a known one keeps its place. -/
lemma names_insert (catalog : Catalog) (operation : Generator) :
    (catalog.insert operation).names =
      if operation.name ∈ catalog.names then catalog.names
      else catalog.names ++ [operation.name] := by
  unfold insert names
  by_cases hknown : operation.name ∈ catalog.operations.map Generator.name
  · simp [hknown, map_name_insertOperation_of_mem]
  · rw [if_neg hknown, insertOperation_of_notMem hknown, List.map_append]
    rfl

/-- The name of an inserted operation leads to it, and all other names lead where they led. -/
lemma find?_insert (catalog : Catalog) (operation : Generator) (name : String) :
    (catalog.insert operation).find? name =
      if operation.name = name then some operation else catalog.find? name := by
  unfold insert find?
  dsimp only
  induction catalog.operations with
  | nil => by_cases hname : operation.name = name <;> simp [insertOperation, hname]
  | cons first rest ih =>
    unfold insertOperation
    by_cases hfirst : first.name = operation.name
    · by_cases hname : operation.name = name <;> simp [hfirst, hname]
    · rw [if_neg hfirst, List.find?_cons, List.find?_cons, ih]
      -- If the first operation is looked up, the inserted one has another name.
      by_cases hname : first.name = name
      · have hother : operation.name ≠ name := fun h => hfirst (hname.trans h.symm)
        simp [hname, hother]
      · rw [beq_false_of_ne hname]

/-! ### A history of insertions -/

lemma ofList_concat (inserted : List Generator) (operation : Generator) :
    ofList (inserted ++ [operation]) = (ofList inserted).insert operation :=
  List.foldl_concat ..

lemma mem_names_ofList :
    name ∈ (ofList inserted).names ↔ name ∈ inserted.map Generator.name := by
  induction inserted using List.reverseRecOn with
  | nil => exact Iff.rfl
  | append_singleton inserted operation ih =>
    rw [ofList_concat, names_insert, List.map_append, List.mem_append, ← ih]
    split
    · rename_i hknown
      constructor
      · exact .inl
      · rintro (hmem | hmem)
        · exact hmem
        · rwa [List.mem_singleton.1 hmem]
    · exact List.mem_append

/-- The first operation of one name was inserted before the first one of another name. -/
def InsertedBefore (inserted : List Generator) (earlier later : String) : Prop :=
  (inserted.map Generator.name).idxOf earlier < (inserted.map Generator.name).idxOf later

lemma InsertedBefore.ne {earlier later : String} (h : InsertedBefore inserted earlier later) :
    earlier ≠ later := by
  rintro rfl
  exact Nat.lt_irrefl _ h

/-- A later insertion does not change when known names were first inserted. -/
lemma InsertedBefore.concat {earlier later : String} (h : InsertedBefore inserted earlier later)
    (hearlier : earlier ∈ inserted.map Generator.name)
    (hlater : later ∈ inserted.map Generator.name) (operation : Generator) :
    InsertedBefore (inserted ++ [operation]) earlier later := by
  unfold InsertedBefore
  rwa [List.map_append, List.idxOf_append_of_mem hearlier, List.idxOf_append_of_mem hlater]

lemma insertedBefore_concat {known : String} (hknown : known ∈ inserted.map Generator.name)
    (hnew : operation.name ∉ inserted.map Generator.name) :
    InsertedBefore (inserted ++ [operation]) known operation.name := by
  unfold InsertedBefore
  rw [List.map_append, List.idxOf_append_of_mem hknown, List.idxOf_append_of_notMem hnew]
  exact Nat.lt_add_right _ (List.idxOf_lt_length_of_mem hknown)

/-- The names stand in the order in which they were first inserted. -/
lemma pairwise_names_ofList (inserted : List Generator) :
    (ofList inserted).names.Pairwise (InsertedBefore inserted) := by
  induction inserted using List.reverseRecOn with
  | nil => exact .nil
  | append_singleton inserted operation ih =>
    have hkept : (ofList inserted).names.Pairwise (InsertedBefore (inserted ++ [operation])) :=
      ih.imp_of_mem fun hearlier hlater hbefore =>
        hbefore.concat (mem_names_ofList.1 hearlier) (mem_names_ofList.1 hlater) operation
    rw [ofList_concat, names_insert]
    split
    · exact hkept
    · rename_i hnew
      refine List.pairwise_append.2 ⟨hkept, List.pairwise_singleton .., ?_⟩
      intro known hknown name hname
      rw [List.mem_singleton.1 hname]
      rw [mem_names_ofList] at hknown hnew
      exact insertedBefore_concat hknown hnew

/-- No two operations of a catalog have the same name. -/
theorem nodup_names_ofList (inserted : List Generator) : (ofList inserted).names.Nodup :=
  (pairwise_names_ofList inserted).imp InsertedBefore.ne

/-- A name leads to the last operation that was inserted under it. -/
lemma find?_ofList (inserted : List Generator) (name : String) :
    (ofList inserted).find? name =
      inserted.findRev? fun operation => operation.name == name := by
  rw [List.findRev?_eq_find?_reverse]
  induction inserted using List.reverseRecOn with
  | nil => rfl
  | append_singleton inserted operation ih =>
    rw [ofList_concat, find?_insert, ih]
    by_cases hname : operation.name = name <;> simp [hname]

/-- Operations with different names are entered one behind another. -/
lemma operations_ofList (h : (operations.map Generator.name).Nodup) :
    (ofList operations).operations = operations := by
  induction operations using List.reverseRecOn with
  | nil => rfl
  | append_singleton operations operation ih =>
    rw [List.map_append, List.nodup_append] at h
    obtain ⟨hnodup, -, hdisjoint⟩ := h
    have hnew : operation.name ∉ operations.map Generator.name :=
      fun hmem => hdisjoint _ hmem _ (List.mem_singleton.2 rfl) rfl
    rw [ofList_concat, insert, ih hnodup]
    exact insertOperation_of_notMem hnew

/-! ### Choosing operations by their names -/

lemma find?_isSome_iff : (catalog.find? name).isSome = true ↔ name ∈ catalog.names := by
  simp [find?, names]

lemma mem_and_name_eq_of_find? (h : catalog.find? name = some operation) :
    operation ∈ catalog.operations ∧ operation.name = name :=
  ⟨List.mem_of_find?_eq_some h, by simpa using List.find?_some h⟩

lemma find?_name_of_mem (hnodup : catalog.names.Nodup) (hmem : operation ∈ catalog.operations) :
    catalog.find? operation.name = some operation := by
  obtain ⟨found, hfound⟩ :=
    Option.isSome_iff_exists.1 (find?_isSome_iff.2 (List.mem_map_of_mem hmem))
  obtain ⟨hfoundMem, hname⟩ := mem_and_name_eq_of_find? hfound
  rw [hfound, List.inj_on_of_nodup_map hnodup hfoundMem hmem hname]

/-- The operations with some names are found by going through the names of the catalog. -/
lemma select_eq_filterMap (hnodup : catalog.names.Nodup) (chosen : List String) :
    catalog.select chosen =
      (catalog.names.filter (· ∈ chosen)).filterMap catalog.find? := by
  have hfind : ∀ operation ∈ catalog.operations.filter fun operation => operation.name ∈ chosen,
      catalog.find? operation.name = some operation :=
    fun operation hmem => find?_name_of_mem hnodup (List.mem_of_mem_filter hmem)
  unfold select names
  rw [List.filter_map, List.filterMap_map]
  simp only [List.contains_eq_mem]
  exact ((List.filterMap_congr hfind).trans List.filterMap_some).symm

lemma nodup_select (h : catalog.names.Nodup) (names : List String) :
    ((catalog.select names).map Generator.name).Nodup :=
  h.sublist (List.filter_sublist.map Generator.name)

/-- Where all of some names are known, there are operations for them. -/
lemma select_ne_nil {names : List String} (hnames : names ≠ [])
    (hknown : ∀ name ∈ names, (catalog.find? name).isSome = true) : catalog.select names ≠ [] := by
  obtain ⟨name, hname⟩ := List.exists_mem_of_ne_nil names hnames
  obtain ⟨operation, hfound⟩ := Option.isSome_iff_exists.1 (hknown name hname)
  obtain ⟨hmem, rfl⟩ := mem_and_name_eq_of_find? hfound
  exact List.ne_nil_of_mem (List.mem_filter.2 ⟨hmem, List.contains_iff_mem.2 hname⟩)

/-! ### Composing by name -/

variable {interested lowPriority : List String}

lemma find?_isNone_eq_none_iff {names : List String} :
    (names.find? fun name => (catalog.find? name).isNone) = none ↔
      ∀ name ∈ names, (catalog.find? name).isSome = true := by
  rw [List.find?_eq_none]
  refine forall₂_congr fun name _ => ?_
  rw [Bool.not_eq_true, Option.isNone_eq_false_iff]

/-- If all names are known, the starter is composed with the operations of low priority. -/
lemma compose_of_known
    (hknown : ∀ name ∈ interested ++ lowPriority, (catalog.find? name).isSome = true)
    (options : Options) :
    catalog.compose options interested lowPriority =
      solve options (starter (catalog.select interested) :: lowPriority.filterMap catalog.find?)
        (bindingsOf (catalog.select interested)) := by
  rw [compose, find?_isNone_eq_none_iff.2 hknown]

/-- A catalog is composed by composing the starter with the operations of low priority, provided
that all names are known. -/
lemma compose_eq_ok_iff {options : Options} {s : Solution} :
    catalog.compose options interested lowPriority = .ok s ↔
      (∀ name ∈ interested ++ lowPriority, (catalog.find? name).isSome = true) ∧
        solve options (starter (catalog.select interested) :: lowPriority.filterMap catalog.find?)
          (bindingsOf (catalog.select interested)) = .ok s := by
  rw [compose]
  split
  · rename_i name hunknown
    constructor
    · intro h
      cases h
    · rintro ⟨hknown, -⟩
      rw [find?_isNone_eq_none_iff.2 hknown] at hunknown
      cases hunknown
  · rename_i hknown
    exact (and_iff_right (find?_isNone_eq_none_iff.1 hknown)).symm

/-- All operations of a catalog are composed in their order. -/
lemma compose_names (catalog : Catalog) (options : Options) :
    catalog.compose options catalog.names [] =
      solve options [starter catalog.operations] (bindingsOf catalog.operations) := by
  have hknown : ∀ name ∈ catalog.names ++ [], (catalog.find? name).isSome = true := by
    rw [List.append_nil]
    exact fun name => find?_isSome_iff.2
  have hselect : catalog.select catalog.names = catalog.operations :=
    List.filter_eq_self.2 fun operation hmem =>
      List.contains_iff_mem.2 (List.mem_map_of_mem hmem)
  rw [compose_of_known hknown, hselect, List.filterMap_nil]

end Catalog

/-- A catalog acts as a map that keeps the order of insertion. After every history of insertions its
names are those of the inserted operations, each once, in the order in which they were first
inserted, and each leads to the last operation that was inserted under it. Composing goes through
the names in this order and takes the operations that they lead to; of the names of interest it uses
only which they are, not their order or how often they are listed. -/
theorem catalog_acts_as_insertion_ordered_map (inserted : List Generator) :
    let catalog := Catalog.ofList inserted
    catalog.names.Nodup ∧
      (∀ name, name ∈ catalog.names ↔ ∃ operation ∈ inserted, operation.name = name) ∧
      catalog.names.Pairwise (Catalog.InsertedBefore inserted) ∧
      (∀ name, catalog.find? name = inserted.findRev? fun operation => operation.name == name) ∧
      ∀ (options : Options) (interested interested' lowPriority : List String),
        (∀ name ∈ interested, name ∈ catalog.names) →
        (∀ name ∈ lowPriority, name ∈ catalog.names) →
        (∀ name, name ∈ interested ↔ name ∈ interested') →
        let chosen := (catalog.names.filter (· ∈ interested)).filterMap catalog.find?
        catalog.compose options interested lowPriority =
            catalog.compose options interested' lowPriority ∧
          catalog.compose options interested lowPriority =
            solve options (Catalog.starter chosen :: lowPriority.filterMap catalog.find?)
              (Catalog.bindingsOf chosen) := by
  intro catalog
  have hnodup : catalog.names.Nodup := Catalog.nodup_names_ofList inserted
  refine ⟨hnodup, fun name => Catalog.mem_names_ofList.trans List.mem_map,
    Catalog.pairwise_names_ofList inserted, Catalog.find?_ofList inserted, ?_⟩
  intro options interested interested' lowPriority hinterested hlowPriority hsame chosen
  have hchosen : catalog.select interested = chosen :=
    Catalog.select_eq_filterMap hnodup interested
  have hchosen' : catalog.select interested' = chosen := by
    rw [Catalog.select_eq_filterMap hnodup]
    simp only [chosen, hsame]
  have hknown : ∀ name ∈ interested ++ lowPriority, (catalog.find? name).isSome = true := by
    intro name hname
    rw [Catalog.find?_isSome_iff]
    exact (List.mem_append.1 hname).elim (hinterested name) (hlowPriority name)
  have hknown' : ∀ name ∈ interested' ++ lowPriority, (catalog.find? name).isSome = true := by
    intro name hname
    rw [List.mem_append, ← hsame, ← List.mem_append] at hname
    exact hknown name hname
  rw [Catalog.compose_of_known hknown, Catalog.compose_of_known hknown', hchosen, hchosen']
  exact ⟨rfl, rfl⟩

/-- The operation that makes something is replaced late, but keeps its place before the one that
uses what is made. One list of names turns the two around, and one repeats a name. -/
theorem catalog_acts_as_insertion_ordered_map_replacing :
    let inserted : List Generator :=
      [⟨"make", Contract.of .void (.const "C"), false⟩,
        ⟨"use", Contract.of (.const "A") (.const "B"), false⟩,
        ⟨"log", Contract.of (.const "B") (.const "D"), false⟩,
        ⟨"make", Contract.of .void (.const "A"), false⟩]
    let catalog := Catalog.ofList inserted
    catalog.names = ["make", "use", "log"] ∧
      (∀ name ∈ ["use", "make"], name ∈ catalog.names) ∧
      (∀ name ∈ ["log"], name ∈ catalog.names) ∧
      (∀ name, name ∈ ["use", "make"] ↔ name ∈ ["make", "use", "use"]) ∧
      catalog.compose {} ["use", "make"] ["log"] =
        catalog.compose {} ["make", "use", "use"] ["log"] ∧
      (catalog.compose {} ["use", "make"] ["log"]).toOption.map
        (fun s => (s.contract.text, s.trace.filterMap Event.generator)) =
          some ("[Void; D]",
            ["make", "use", "use", "start", "(make, use)", "(make, use)", "log", "log"]) := by
  intro inserted catalog
  have hinterested : ∀ name ∈ ["use", "make"], name ∈ catalog.names := by decide +kernel
  have hlowPriority : ∀ name ∈ ["log"], name ∈ catalog.names := by decide +kernel
  have hsame : ∀ name, name ∈ ["use", "make"] ↔ name ∈ ["make", "use", "use"] := by
    intro name
    simp [or_comm]
  obtain ⟨-, -, -, -, hcompose⟩ := catalog_acts_as_insertion_ordered_map inserted
  have hequal := (hcompose {} _ _ _ hinterested hlowPriority hsame).1
  exact ⟨by decide +kernel, hinterested, hlowPriority, hsame, hequal, by decide +kernel⟩

end ContractComposition
