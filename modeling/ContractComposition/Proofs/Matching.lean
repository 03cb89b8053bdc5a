import ContractComposition.Proofs.Parts

/-!
# What a match binds

A match binds no variables but those of the pattern. If the pattern and the offered value have no
variable in common, it binds all of them (`Ty.contains_matching?_iff`). This is the case in
particular whenever the offered value has no variables.
-/

namespace ContractComposition

namespace Bindings

/-- A joined table binds the variables that one of the two tables binds. -/
lemma contains_join? {b other joined : Bindings} (h : b.join? other = some joined) (x : String) :
    joined.contains x = true ↔ b.contains x = true ∨ other.contains x = true := by
  rw [NameTable.contains, find?_join? h, NameTable.contains, NameTable.contains, Option.isSome_or,
    Bool.or_eq_true]

end Bindings

namespace Ty

lemma eq_var_of_beq {t : Ty} {x : String} (h : (t == .var x) = true) : t = .var x := by
  cases t with
  | var y => exact congrArg Ty.var (beq_iff_eq.1 h)
  | _ => cases h

/-- Matching the values of a list one by one binds the variables of the patterns, if each match
does so. -/
lemma contains_matchingAll? {x : String} {patterns values : List Ty}
    (ih : ∀ p ∈ patterns, ∀ {offered : Ty} {found : Bindings},
      (∀ y ∈ p.occurrences, y ∉ offered.occurrences) → p.matching? offered = some found →
        x ∈ p.occurrences → found.contains x = true)
    {found result : Bindings}
    (hdisjoint : ∀ p ∈ patterns, ∀ v ∈ values, ∀ y ∈ p.occurrences, y ∉ v.occurrences)
    (h : matchingAll? found patterns values = some result)
    (hx : found.contains x = true ∨ ∃ p ∈ patterns, x ∈ p.occurrences) :
    result.contains x = true := by
  induction patterns generalizing values found with
  | nil =>
    obtain ⟨-, rfl⟩ := matchingAll?_nil_eq_some_iff.1 h
    exact hx.resolve_right (by simp)
  | cons p ps ihps =>
    obtain ⟨v, vs, more, joined, rfl, hmore, hjoined, h⟩ := matchingAll?_cons_eq_some_iff.1 h
    obtain ⟨hp, hps⟩ := List.forall_mem_cons.1 ih
    obtain ⟨hfirst, hrest⟩ := List.forall_mem_cons.1 hdisjoint
    refine ihps hps (fun q hq u hu => hrest q hq u (List.mem_cons_of_mem _ hu)) h ?_
    rw [List.exists_mem_cons_iff, ← or_assoc] at hx
    refine hx.imp_left fun hx => (Bindings.contains_join? hjoined x).2 (hx.imp_right ?_)
    exact hp (hfirst v List.mem_cons_self) hmore

/-- A match with a value that shares no variable with the pattern binds the variables of the
pattern and no others. -/
theorem contains_matching?_iff {pattern offered : Ty} {found : Bindings}
    (hdisjoint : ∀ y ∈ pattern.occurrences, y ∉ offered.occurrences)
    (h : pattern.matching? offered = some found) (x : String) :
    found.contains x = true ↔ x ∈ pattern.occurrences := by
  refine ⟨fun hx => ?_, fun hx => ?_⟩
  · obtain ⟨t, ht⟩ := NameTable.contains_iff.1 hx
    exact mem_occurrences_of_matching? h x t ht
  induction pattern generalizing offered found with
  | var y =>
    obtain rfl := List.mem_singleton.1 hx
    have hfree : x ∉ offered.occurrences := hdisjoint x List.mem_cons_self
    have hne : ¬(offered == .var x) = true := by
      intro heq
      rw [eq_var_of_beq heq] at hfree
      exact hfree List.mem_cons_self
    rw [Ty.matching?, if_neg hne, if_neg hfree] at h
    rw [← Option.some.inj h, NameTable.contains, Bindings.bind, NameTable.find?_insert, if_pos rfl,
      Option.isSome_some]
  | void | star | const | int => cases hx
  | seq patterns ih | tuple patterns ih | func fn patterns ih =>
    cases offered <;> try cases h
    rw [Ty.matching?] at h
    try (split at h; swap; cases h)
    simp only [occurrences, occurrencesAll_eq_flatMap, List.mem_flatMap] at hdisjoint hx
    exact contains_matchingAll? (fun p hp {_ _} hd hm => ih p hp hd hm)
      (fun p hp v hv y hy hyv => hdisjoint y ⟨p, hp, hy⟩ ⟨v, hv, hyv⟩) h (.inr hx)
  | list element length ihe ihl =>
    obtain ⟨_, _, found₁, found₂, rfl, h₁, h₂, hjoin⟩ := matching?_list_eq_some_iff.1 h
    simp only [occurrences, List.mem_append] at hdisjoint hx
    exact (Bindings.contains_join? hjoin x).2
      (hx.imp (ihe (fun y hy hy' => hdisjoint y (.inl hy) (.inl hy')) h₁)
        (ihl (fun y hy hy' => hdisjoint y (.inr hy) (.inr hy')) h₂))
  | contract body ihr ihy =>
    obtain ⟨_, found₁, found₂, rfl, h₁, h₂, hjoin⟩ := matching?_contract_eq_some_iff.1 h
    simp only [occurrences_contract, List.mem_append] at hdisjoint hx
    exact (Bindings.contains_join? hjoin x).2
      (hx.imp (ihr (fun y hy hy' => hdisjoint y (.inl hy) (.inl hy')) h₁)
        (ihy (fun y hy hy' => hdisjoint y (.inr hy) (.inr hy')) h₂))

end Ty

end ContractComposition
