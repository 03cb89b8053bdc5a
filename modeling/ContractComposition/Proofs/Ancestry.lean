import Mathlib.Data.Finset.Card
import Mathlib.Logic.Relation
import ContractComposition.Hierarchy
import ContractComposition.Proofs.Tables

/-!
# Ancestry

A class is below another one exactly if the other one is reached by links to direct superclasses
(`isSubclass_iff_reachable`). The walk that decides this is cut off after one class more than the
table has entries, since a table may well contain circles. Nothing is lost by this. On a shortest
way up no class comes twice, and all classes on it but the last one have an entry; so it is not
longer than the table has entries (`Hierarchy.exists_climb?_le_size`).
-/

namespace ContractComposition

namespace Hierarchy

variable {h : Hierarchy} {cls ancestor : String}

/-- `parent` is the direct superclass of `cls`. -/
def Extends (h : Hierarchy) (cls parent : String) : Prop :=
  h.superclass? cls = some parent

/-- The class that `n` links lead to on the way up from `cls`, if the way is that long. -/
def climb? (h : Hierarchy) : Nat → String → Option String
  | 0, cls => some cls
  | n + 1, cls => (h.superclass? cls).bind (climb? h n)

/-- A way up can be walked in two stages. -/
lemma climb?_add (m n : Nat) (cls : String) :
    h.climb? (m + n) cls = (h.climb? m cls).bind (h.climb? n) := by
  induction m generalizing cls with
  | zero => rw [Nat.zero_add, climb?, Option.bind_some]
  | succ m ih =>
    rw [Nat.succ_add, climb?, climb?, Option.bind_assoc]
    exact congrArg _ (funext ih)

/-- The bounded walk finds what fewer links lead to than the bound says. -/
lemma reachesWithin_iff {n : Nat} :
    h.reachesWithin ancestor n cls = true ↔ ∃ k < n, h.climb? k cls = some ancestor := by
  induction n generalizing cls with
  | zero => simp [reachesWithin]
  | succ n ih =>
    rw [reachesWithin, Bool.or_eq_true, beq_iff_eq, Nat.exists_lt_succ_left, climb?,
      Option.some.injEq]
    refine or_congr_right ?_
    simp only [climb?]
    cases h.superclass? cls with
    | none => simp
    | some parent => exact ih

/-- What links lead to is what some number of links leads to. -/
lemma reflTransGen_extends_iff :
    Relation.ReflTransGen h.Extends cls ancestor ↔ ∃ k, h.climb? k cls = some ancestor := by
  constructor
  · intro hreach
    induction hreach using Relation.ReflTransGen.head_induction_on with
    | refl => exact ⟨0, rfl⟩
    | head hlink _ ih =>
      obtain ⟨k, hk⟩ := ih
      refine ⟨k + 1, ?_⟩
      rw [climb?, hlink, Option.bind_some, hk]
  · rintro ⟨k, hk⟩
    induction k generalizing cls with
    | zero => exact Option.some.inj hk ▸ .refl
    | succ k ih =>
      obtain ⟨parent, hlink, hrest⟩ := Option.bind_eq_some_iff.1 hk
      exact .head hlink (ih hrest)

/-- On the way up there is a class after any smaller number of links, from which the rest of the way
goes on. -/
lemma exists_climb?_of_le {i m : Nat} (hi : i ≤ m) (hm : h.climb? m cls = some ancestor) :
    ∃ c, h.climb? i cls = some c ∧ h.climb? (m - i) c = some ancestor := by
  rw [← Nat.add_sub_of_le hi, climb?_add] at hm
  exact Option.bind_eq_some_iff.1 hm

/-- All classes on the way up but the last one have an entry. -/
lemma exists_mem_names_of_lt {i m : Nat} (hi : i < m) (hm : h.climb? m cls = some ancestor) :
    ∃ c ∈ h.names, h.climb? i cls = some c := by
  obtain ⟨c, hc, hrest⟩ := exists_climb?_of_le (Nat.le_of_lt hi) hm
  obtain ⟨j, hj⟩ := Nat.exists_eq_add_of_lt hi
  have hleft : m - i = j + 1 := by omega
  rw [hleft] at hrest
  obtain ⟨parent, hlink, -⟩ := Option.bind_eq_some_iff.1 hrest
  exact ⟨c, NameTable.mem_names_iff.2 (NameTable.contains_iff.2 ⟨parent, hlink⟩), hc⟩

/-- On a shortest way up no class comes twice: the part of the way in between could be left out. -/
lemma injOn_climb? {m : Nat} (hm : h.climb? m cls = some ancestor)
    (hleast : ∀ j < m, h.climb? j cls ≠ some ancestor) :
    Set.InjOn (fun i => h.climb? i cls) (Finset.range m) := by
  have hshortcut : ∀ i j, i < j → j < m → h.climb? i cls ≠ h.climb? j cls := by
    intro i j hij hjm heq
    obtain ⟨c, hc, hrest⟩ := exists_climb?_of_le (Nat.le_of_lt hjm) hm
    refine hleast (i + (m - j)) (by omega) ?_
    rw [climb?_add, heq, hc, Option.bind_some, hrest]
  intro i hi j hj heq
  rw [Finset.coe_range, Set.mem_Iio] at hi hj
  rcases Nat.lt_trichotomy i j with hlt | rfl | hlt
  · exact absurd heq (hshortcut i j hlt hj)
  · rfl
  · exact absurd heq.symm (hshortcut j i hlt hi)

/-- Some number of links that leads from a class to an ancestor is not greater than the table. -/
lemma exists_climb?_le_size {k : Nat} (hk : h.climb? k cls = some ancestor) :
    ∃ m ≤ h.size, h.climb? m cls = some ancestor := by
  classical
  have hexists : ∃ m, h.climb? m cls = some ancestor := ⟨k, hk⟩
  obtain ⟨m, hm, hleast⟩ : ∃ m, h.climb? m cls = some ancestor ∧
      ∀ j < m, h.climb? j cls ≠ some ancestor :=
    ⟨Nat.find hexists, Nat.find_spec hexists, fun j => Nat.find_min hexists⟩
  have hentry : ∀ i ∈ Finset.range m, h.climb? i cls ∈ h.names.toFinset.image some := by
    intro i hi
    obtain ⟨c, hmem, hc⟩ := exists_mem_names_of_lt (Finset.mem_range.1 hi) hm
    rw [hc]
    exact Finset.mem_image_of_mem some (List.mem_toFinset.2 hmem)
  refine ⟨m, ?_, hm⟩
  calc m = (Finset.range m).card := (Finset.card_range m).symm
    _ ≤ (h.names.toFinset.image some).card :=
      Finset.card_le_card_of_injOn _ hentry (injOn_climb? hm hleast)
    _ ≤ h.names.toFinset.card := Finset.card_image_le
    _ ≤ h.names.length := h.names.toFinset_card_le
    _ = h.size := List.length_map ..

/-- A class is below another one exactly if some number of links leads to the other one. -/
lemma isSubclass_iff : h.isSubclass cls ancestor = true ↔ ∃ k, h.climb? k cls = some ancestor := by
  rw [isSubclass, reachesWithin_iff]
  constructor
  · rintro ⟨k, -, hk⟩
    exact ⟨k, hk⟩
  · rintro ⟨k, hk⟩
    obtain ⟨m, hm, hclimb⟩ := exists_climb?_le_size hk
    exact ⟨m, Nat.lt_succ_of_le hm, hclimb⟩

end Hierarchy

/-- Being a subclass is reachability, for every table, be there circles or not: a class is below
another one exactly if links to direct superclasses lead from the one to the other. So every class
is below itself, what is below a class is below all that the class is below, and a walk with a
larger bound finds no further ancestor. -/
theorem isSubclass_iff_reachable (h : Hierarchy) :
    (∀ cls ancestor, h.isSubclass cls ancestor = true ↔
        Relation.ReflTransGen h.Extends cls ancestor) ∧
      (∀ cls, h.isSubclass cls cls = true) ∧
      (∀ cls middle ancestor, h.isSubclass cls middle = true →
        h.isSubclass middle ancestor = true → h.isSubclass cls ancestor = true) ∧
      ∀ cls ancestor bound, h.reachesWithin ancestor bound cls = true →
        h.isSubclass cls ancestor = true := by
  have hreach : ∀ cls ancestor, h.isSubclass cls ancestor = true ↔
      Relation.ReflTransGen h.Extends cls ancestor :=
    fun _ _ => Hierarchy.isSubclass_iff.trans Hierarchy.reflTransGen_extends_iff.symm
  refine ⟨hreach, fun cls => (hreach cls cls).2 .refl, ?_, ?_⟩
  · intro cls middle ancestor hlower hupper
    exact (hreach _ _).2 (((hreach _ _).1 hlower).trans ((hreach _ _).1 hupper))
  · intro cls ancestor bound hfound
    obtain ⟨k, -, hk⟩ := Hierarchy.reachesWithin_iff.1 hfound
    exact Hierarchy.isSubclass_iff.2 ⟨k, hk⟩

-- The bound is as low as it can be: one class less, and the last ancestor of a chain is missed.
example :
    let h : Hierarchy := NameTable.ofList [("A", "B"), ("B", "C"), ("C", "D")]
    h.isSubclass "A" "D" = true ∧ h.reachesWithin "D" h.size "A" = false := by
  decide +kernel

end ContractComposition
