import ContractComposition.Proofs.Equality
import ContractComposition.Proofs.Matching

/-!
# Joining tables of bindings

Joining tables is biased: where both of them bind a variable, the value of the first one stays, and
it is enough that the values have equal normal forms. Still neither the grouping nor the order of the
tables decides whether they can be joined (`joining_ignores_grouping_and_order`). Tables can be
joined exactly if they `Agree`, which is symmetric, and three tables can be joined in either grouping
exactly if each two of them agree (`Bindings.exists_join?_join?_iff`). So the grouping does not
matter at all, and the order decides only which of two equal values stays.

The reason is that values with equal normal forms are the same up to `Ty.core`, so that a value that
agrees with the one that stays agrees with the one that is left out, too.
-/

namespace ContractComposition

namespace Bindings

variable {a b c joined : Bindings}

/-- The tables give the same values to the variables that both of them bind, up to normal form and
annotations. -/
def Agree (a b : Bindings) : Prop :=
  ∀ x t u, a.find? x = some t → b.find? x = some u → t.core = u.core

lemma Agree.symm (h : a.Agree b) : b.Agree a :=
  fun x t u ht hu => (h x u t hu ht).symm

lemma agree_comm : a.Agree b ↔ b.Agree a :=
  ⟨Agree.symm, Agree.symm⟩

lemma agree_of_join? (h : a.join? b = some joined) : a.Agree b :=
  fun _ _ _ ht hu => Ty.beq_normalize_iff.1 (beq_of_join? h ht hu)

/-- Tables can be joined if they agree. -/
lemma Agree.exists_join? (h : a.Agree b) : ∃ joined, a.join? b = some joined :=
  exists_join?_of_agree fun x t u ht hu => Ty.beq_normalize_iff.2 (h x t u ht hu)

/-- A table is the join of two others exactly if these agree and it binds each variable as the first
one does, or else as the second one does. -/
lemma join?_eq_some_iff : a.join? b = some joined ↔
    a.Agree b ∧ ∀ x, joined.find? x = (a.find? x).or (b.find? x) := by
  refine ⟨fun h => ⟨agree_of_join? h, find?_join? h⟩, fun ⟨hagree, hfind⟩ => ?_⟩
  obtain ⟨other, hother⟩ := hagree.exists_join?
  have hsame : ∀ x, other.find? x = joined.find? x := fun x => by rw [find?_join? hother, hfind]
  rw [hother]
  refine congrArg some (ExtendedBy.antisymm (fun x t ht => ?_) fun x t ht => ?_)
  · rw [← hsame, ht]
  · rw [hsame, ht]

/-- Tables cannot be joined exactly if they disagree about a variable. -/
lemma join?_eq_none_iff : a.join? b = none ↔ ¬a.Agree b := by
  constructor
  · intro hnone hagree
    obtain ⟨joined, hjoined⟩ := hagree.exists_join?
    rw [hnone] at hjoined
    cases hjoined
  · intro hdisagree
    exact Option.eq_none_iff_forall_ne_some.2 fun joined hjoined =>
      hdisagree (agree_of_join? hjoined)

/-- What agrees with a joined table agrees with both of its parts. Where the value of the first
table has stayed, the one that was left out has the same core. -/
lemma agree_join?_left (h : a.join? b = some joined) :
    joined.Agree c ↔ a.Agree c ∧ b.Agree c := by
  constructor
  · intro hjoined
    refine ⟨fun x t u ht hu => ?_, fun x t u ht hu => ?_⟩
    · exact hjoined x t u (extendedBy_of_join? h x t ht) hu
    · cases hx : a.find? x with
      | none =>
        refine hjoined x t u ?_ hu
        rw [find?_join? h, hx, Option.none_or, ht]
      | some s =>
        calc t.core = s.core := (agree_of_join? h x s t hx ht).symm
          _ = u.core := hjoined x s u (extendedBy_of_join? h x s hx) hu
  · rintro ⟨ha, hb⟩ x t u ht hu
    exact (find?_of_join? h ht).elim (ha x t u · hu) (hb x t u · hu)

lemma agree_join?_right (h : a.join? b = some joined) :
    c.Agree joined ↔ c.Agree a ∧ c.Agree b := by
  rw [agree_comm, agree_join?_left h, agree_comm, @agree_comm b]

/-- Three tables can be joined from the left exactly if each two of them agree. A variable is bound
as in the first table that binds it. -/
lemma exists_join?_join?_iff : (∃ ab, a.join? b = some ab ∧ ab.join? c = some joined) ↔
    (a.Agree b ∧ a.Agree c ∧ b.Agree c) ∧
      ∀ x, joined.find? x = (a.find? x).or ((b.find? x).or (c.find? x)) := by
  constructor
  · rintro ⟨ab, hab, hjoined⟩
    obtain ⟨hagree, hfind⟩ := join?_eq_some_iff.1 hjoined
    refine ⟨⟨agree_of_join? hab, (agree_join?_left hab).1 hagree⟩, fun x => ?_⟩
    rw [hfind, find?_join? hab, Option.or_assoc]
  · rintro ⟨⟨hab, hagree⟩, hfind⟩
    obtain ⟨ab, hjoin⟩ := hab.exists_join?
    refine ⟨ab, hjoin, join?_eq_some_iff.2 ⟨(agree_join?_left hjoin).2 hagree, fun x => ?_⟩⟩
    rw [hfind, find?_join? hjoin, Option.or_assoc]

/-- Three tables can be joined from the right in the same cases, with the same result. -/
lemma exists_join?_join?_right_iff : (∃ bc, b.join? c = some bc ∧ a.join? bc = some joined) ↔
    (a.Agree b ∧ a.Agree c ∧ b.Agree c) ∧
      ∀ x, joined.find? x = (a.find? x).or ((b.find? x).or (c.find? x)) := by
  constructor
  · rintro ⟨bc, hbc, hjoined⟩
    obtain ⟨hagree, hfind⟩ := join?_eq_some_iff.1 hjoined
    obtain ⟨hab, hac⟩ := (agree_join?_right hbc).1 hagree
    refine ⟨⟨hab, hac, agree_of_join? hbc⟩, fun x => ?_⟩
    rw [hfind, find?_join? hbc]
  · rintro ⟨⟨hab, hac, hbc⟩, hfind⟩
    obtain ⟨bc, hjoin⟩ := hbc.exists_join?
    refine ⟨bc, hjoin, join?_eq_some_iff.2 ⟨(agree_join?_right hjoin).2 ⟨hab, hac⟩, fun x => ?_⟩⟩
    rw [hfind, find?_join? hjoin]

/-- Joining is associative. -/
theorem join?_assoc (a b c : Bindings) :
    (a.join? b).bind (·.join? c) = (b.join? c).bind (a.join? ·) := by
  refine Option.ext fun joined => ?_
  rw [Option.bind_eq_some_iff, Option.bind_eq_some_iff, exists_join?_join?_iff,
    exists_join?_join?_right_iff]

/-- Both orders give values to the variables that are equal up to normal form. -/
lemma agree_join?_join? {ab ba : Bindings} (hab : a.join? b = some ab) (hba : b.join? a = some ba) :
    ab.Agree ba := by
  have hagree : a.Agree b := agree_of_join? hab
  have hself : ∀ c : Bindings, c.Agree c := by
    intro c x t u ht hu
    rw [Option.some.inj (ht.symm.trans hu)]
  exact (agree_join?_left hab).2
    ⟨(agree_join?_right hba).2 ⟨hagree, hself a⟩, (agree_join?_right hba).2 ⟨hself b, hagree.symm⟩⟩

end Bindings

/-- Joining bindings depends neither on grouping nor on order. Joining three tables from the left is
joining them from the right: the one is defined exactly if the other is, with the same table as a
result. One order of two tables is defined exactly if the other is, and then both bind the same
variables, to values with equal normal forms. And two tables cannot be joined exactly if some
variable is bound in both of them to values with different normal forms. -/
theorem joining_ignores_grouping_and_order (a b c : Bindings) :
    (a.join? b).bind (·.join? c) = (b.join? c).bind (a.join? ·) ∧
      ((a.join? b).isSome = true ↔ (b.join? a).isSome = true) ∧
      (∀ ab ba, a.join? b = some ab → b.join? a = some ba →
        (∀ x, ab.contains x = ba.contains x) ∧ ∀ x t u, ab.find? x = some t →
          ba.find? x = some u → (t.normalize == u.normalize) = true) ∧
      (a.join? b = none ↔ ∃ x t u, a.find? x = some t ∧ b.find? x = some u ∧
        (t.normalize == u.normalize) = false) := by
  refine ⟨a.join?_assoc b c, ?_, fun ab ba hab hba => ⟨fun x => ?_, fun x t u ht hu => ?_⟩, ?_⟩
  · rw [Option.isSome_iff_exists, Option.isSome_iff_exists]
    exact ⟨fun ⟨_, h⟩ => (Bindings.agree_of_join? h).symm.exists_join?,
      fun ⟨_, h⟩ => (Bindings.agree_of_join? h).symm.exists_join?⟩
  · rw [Bool.eq_iff_iff, Bindings.contains_join? hab, Bindings.contains_join? hba, or_comm]
  · exact Ty.beq_normalize_iff.2 (Bindings.agree_join?_join? hab hba x t u ht hu)
  · simp only [Bindings.join?_eq_none_iff, Bindings.Agree, ← Ty.beq_normalize_iff, not_forall,
      exists_prop, Bool.not_eq_true]

end ContractComposition
