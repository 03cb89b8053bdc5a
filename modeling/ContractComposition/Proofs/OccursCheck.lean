import ContractComposition.Proofs.Acyclicity

/-!
# What the occurs check achieves

A variable is not matched with a value in which it occurs. This is to keep bindings from running in
a circle, but it goes only half the way: the check looks at the sides of contracts, while
substitution also goes into their conditions and exclusions.

If the offered value has no variables on the sides of its contracts, then neither has any value that
a match binds. So a circle can only come about through constraints, and there is none if the
constraints in the offered value do not mention the variables of the pattern
(`bindings_of_match_are_acyclic`). In this case what comes in for a variable is not replaced any
further. Otherwise a variable may be bound to a contract whose constraints mention it, and replacing
it never comes to an end (`Ty.exists_circle_of_mentions`).
-/

namespace ContractComposition

namespace Ty

/-- What a value mentions is what its parts and the constraints of its contracts mention. -/
lemma hereditary_mentions (p : String → Prop) :
    Hereditary (fun t => ∀ x ∈ t.mentions, p x) fun body =>
      (∀ condition ∈ body.condition, ∀ x ∈ condition.occurrences, p x) ∧
        ∀ e ∈ body.forbidden, e.Forall fun t => ∀ x ∈ t.mentions, p x where
  void := List.forall_mem_nil _
  int _ := List.forall_mem_nil _
  star := List.forall_mem_nil _
  seq := forall_mentions_seq
  tuple := forall_mentions_tuple
  list := forall_mentions_list
  func := forall_mentions_func
  contract := by
    intro body
    rw [forall_mentions_contract]
    constructor
    · rintro ⟨hr, hy, hconstraints⟩
      exact ⟨hconstraints, hr, hy⟩
    · rintro ⟨hconstraints, hr, hy⟩
      exact ⟨hr, hy, hconstraints⟩
  annotated _ _ h := h

/-- The occurs check does not see constraints: a variable is bound to a value that mentions it
nowhere else, and then it leads back to itself. -/
theorem exists_circle_of_mentions {x : String} {offered : Ty} (hground : offered.isGround = true)
    (hx : x ∈ offered.mentions) :
    ∃ found, (Ty.var x).matching? offered = some found ∧ found.Mentions x x ∧ ¬found.Acyclic := by
  have hfree : x ∉ offered.occurrences := by
    rw [List.isEmpty_iff.1 hground]
    exact List.not_mem_nil
  have hne : ¬(offered == .var x) = true := by
    intro heq
    rw [eq_var_of_beq heq] at hfree
    exact hfree List.mem_cons_self
  have hcircle : (Bindings.bind ∅ x offered).Mentions x x := by
    refine ⟨offered, ?_, hx⟩
    rw [Bindings.bind, NameTable.find?_insert, if_pos rfl]
  refine ⟨Bindings.bind ∅ x offered, ?_, hcircle, fun hacyclic => hacyclic x (.single hcircle)⟩
  rw [Ty.matching?, if_neg hne, if_neg hfree]

end Ty

namespace Bindings

/-- The values of the table mention none of the bound variables. -/
def IsResolved (b : Bindings) : Prop :=
  ∀ x t, b.find? x = some t → ∀ y ∈ t.mentions, b.find? y = none

namespace IsResolved

variable {b : Bindings}

lemma acyclic (h : b.IsResolved) : b.Acyclic := by
  refine acyclic_of_rank (fun x => if (b.find? x).isSome then 1 else 0) fun x t hx y hy => ?_
  rw [hx, h x t hx y hy]
  exact Nat.zero_lt_one

/-- One replacement in a row is enough for a variable, so a larger bound makes no difference. -/
lemma lookWithin_eq (h : b.IsResolved) (bound : Nat) (x : String) :
    b.lookWithin (bound + 1) 0 x = b.lookWithin 1 0 x := by
  rw [lookWithin, lookWithin]
  cases hx : b.find? x with
  | none => rfl
  | some t =>
    dsimp only
    rw [if_neg (Nat.not_lt_zero _), if_neg (Nat.not_lt_zero _)]
    refine congrArg (Ty.withSource x) (Ty.expand_congr fun y hy => ?_)
    have hy' : b.find? y = none := h x t hx y hy
    rw [lookWithin_of_find?_eq_none hy', lookWithin_of_find?_eq_none hy',
      lookWithin_of_find?_eq_none hy', lookWithin_of_find?_eq_none hy']
    exact ⟨rfl, rfl⟩

/-- Substituting such bindings makes one replacement in a row, and never more. -/
lemma normalize_expand_eq_subst (h : b.IsResolved) (bound : Nat) (t : Ty) :
    (t.expand (b.lookWithin (bound + 1)) 0).normalize = t.subst b := by
  obtain ⟨n, hn⟩ := b.chainBound_eq_succ
  refine congrArg Ty.normalize (Ty.expand_congr fun x _ => ?_)
  rw [look, hn, h.lookWithin_eq bound, h.lookWithin_eq n]
  exact ⟨rfl, rfl⟩

end IsResolved

end Bindings

/-- Bindings that come from matching a value without variables do not run in a circle, unless they
do so through constraints. Whatever is bound has no variables on the sides of its contracts, and it
mentions nothing in conditions and exclusions that the offered value does not mention. So if no
variable of the pattern is mentioned there, then no bound variable is mentioned anywhere in a value
that is bound, the bindings are without circles, and substituting them makes one replacement in a
row at most. -/
theorem bindings_of_match_are_acyclic {pattern offered : Ty} {found : Bindings}
    (hground : offered.isGround = true) (h : pattern.matching? offered = some found) :
    (∀ x t, found.find? x = some t →
        t.isGround = true ∧ ∀ y ∈ t.mentions, y ∈ offered.mentions) ∧
      ((∀ x ∈ pattern.freeVars, x ∉ offered.mentions) →
        (∀ x t, found.find? x = some t → ∀ y, found.contains y = true → y ∉ t.mentions) ∧
          found.Acyclic ∧
          ∀ (bound : Nat) (t : Ty),
            (t.expand (found.lookWithin (bound + 1)) 0).normalize = t.subst found) := by
  have hnone : offered.occurrences = [] := List.isEmpty_iff.1 hground
  have hmentions : ∀ x t, found.find? x = some t → ∀ y ∈ t.mentions, y ∈ offered.mentions :=
    (Ty.hereditary_mentions (· ∈ offered.mentions)).of_matching? (fun _ hx => hx) h
  have hplain : found.Within (Parts.vars fun _ => False).ground :=
    Ty.within_matching? (Ty.within_vars_of_isGround hground) h
  refine ⟨fun x t hx => ⟨(hplain x t hx).isGround, hmentions x t hx⟩, fun hconstraints => ?_⟩
  have hbound : ∀ y, found.contains y = true ↔ y ∈ pattern.occurrences :=
    Ty.contains_matching?_iff (fun y _ => by rw [hnone]; exact List.not_mem_nil) h
  have hresolved : found.IsResolved := by
    intro x t hx y hy
    rw [← NameTable.contains_eq_false_iff, Bool.eq_false_iff]
    intro hcontains
    exact hconstraints y (Ty.mem_freeVars.2 ((hbound y).1 hcontains)) (hmentions x t hx y hy)
  refine ⟨fun x t hx y hy hmem => ?_, hresolved.acyclic, hresolved.normalize_expand_eq_subst⟩
  rw [NameTable.contains_eq_false_iff.2 (hresolved x t hx y hmem)] at hy
  cases hy

/-- A contract that is under a condition and an exclusion comes in for a variable. They mention
other variables than those of the pattern, so nothing runs in a circle. -/
theorem bindings_of_match_are_acyclic_guarded :
    ∃ found, (Ty.tuple [.var "x", .var "y"]).matching? (.tuple
        [.contract
          { receives := .const "A"
            yields := .const "B"
            condition := some (.inherits "z" "C")
            forbidden := [⟨[.var "w"], [[.const "B"]]⟩] },
          .const "A"]) = some found ∧
      found.names = ["x", "y"] ∧ found.Mentions "x" "z" ∧ found.Mentions "x" "w" ∧
      found.Acyclic := by
  have hconstraints : ∀ x ∈ (Ty.tuple [.var "x", .var "y"]).freeVars, x ∉ (Ty.tuple
      [.contract
        { receives := .const "A"
          yields := .const "B"
          condition := some (.inherits "z" "C")
          forbidden := [⟨[.var "w"], [[.const "B"]]⟩] },
        .const "A"]).mentions := by decide
  refine ⟨_, rfl, rfl, ⟨_, rfl, by decide⟩, ⟨_, rfl, by decide⟩, ?_⟩
  obtain ⟨-, hacyclic, -⟩ :=
    (@bindings_of_match_are_acyclic (.tuple [.var "x", .var "y"]) _ _ rfl rfl).2 hconstraints
  exact hacyclic

-- With an exclusion that mentions the variable itself, the match goes through all the same.
example : ((Ty.var "x").matching? (.contract
    { receives := .void, yields := .const "A", forbidden := [⟨[.var "x"], [[.const "Z"]]⟩] })).map
      Bindings.text = some "\x7bx := [Void; A] where (x) not in \x7b(Z)\x7d\x7d" := by
  decide +kernel

end ContractComposition
