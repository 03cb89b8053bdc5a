import ContractComposition.Proofs.Equality
import ContractComposition.Proofs.Matching

/-!
# Matches are instances

If an offered value matches a pattern, then the pattern becomes the offered value once the bindings
that were found are substituted (`Ty.subst_beq_of_matching?`). This takes a pattern without unknown
lengths, which match everything and stand for nothing, no common variables, and contracts without
constraints. The two are the same up to normal form and annotations only: the bindings are
normalized when they come in, a variable that occurs twice keeps the first of two values with the
same normal form, and contracts learn the variable that they came in for.

The induction is on the pattern. It cannot go through the bindings that one part of the pattern
finds, since the whole pattern is expanded under the joined bindings. What it goes through is a
meaning of variables that `Realizes` all bindings at once; such a meaning realizes joined tables
exactly if it realizes both of them.
-/

namespace ContractComposition

namespace Ty

/-- No unknown length occurs in the value. -/
inductive Starless : Ty → Prop
  | void : Starless .void
  | const (name : String) : Starless (.const name)
  | var (name : String) : Starless (.var name)
  | int (n : Int64) : Starless (.int n)
  | seq {items : List Ty} (h : ∀ t ∈ items, Starless t) : Starless (.seq items)
  | tuple {items : List Ty} (h : ∀ t ∈ items, Starless t) : Starless (.tuple items)
  | list {element length : Ty} (he : Starless element) (hl : Starless length) :
    Starless (.list element length)
  | func (fn : LengthFn) {args : List Ty} (h : ∀ t ∈ args, Starless t) : Starless (.func fn args)
  | contract {body : Contract} (hr : Starless body.receives) (hy : Starless body.yields) :
    Starless (.contract body)

/-! ### Meanings that realize bindings -/

/-- Under the meaning `look`, every bound variable stands for its value, up to normal form and
annotations. -/
def Realizes (look : Nat → String → Ty) (b : Bindings) : Prop :=
  ∀ x t, b.find? x = some t → (look 0 x).core = t.core

variable {look : Nat → String → Ty}

lemma Realizes.of_extendedBy {b b' : Bindings} (h : Realizes look b') (hbb' : b.ExtendedBy b') :
    Realizes look b := by
  intro x t hx
  exact h x t (hbb' x t hx)

/-- A meaning that realizes joined tables realizes both of them: where both tables bind a variable,
they agree. -/
lemma Realizes.of_join? {b other joined : Bindings} (h : Realizes look joined)
    (hjoin : b.join? other = some joined) : Realizes look b ∧ Realizes look other := by
  have hb : Realizes look b := h.of_extendedBy (Bindings.extendedBy_of_join? hjoin)
  refine ⟨hb, fun x t hx => ?_⟩
  cases hbx : b.find? x with
  | none =>
    refine h x t ?_
    rw [Bindings.find?_join? hjoin, hbx, Option.none_or, hx]
  | some u =>
    rw [hb x u hbx]
    exact beq_normalize_iff.1 (Bindings.beq_of_join? hjoin hbx hx)

/-- Under the meaning `look`, the pattern becomes every value that it matches and that has no
variable in common with it, provided that the meaning realizes what the match finds. -/
def Reproduces (look : Nat → String → Ty) (pattern : Ty) : Prop :=
  ∀ {offered : Ty} {found : Bindings}, (∀ x ∈ pattern.occurrences, x ∉ offered.occurrences) →
    pattern.matching? offered = some found → Realizes look found →
      (pattern.expand look 0).core = offered.core

/-- Matching values one by one: patterns that are reproduced become the values. -/
lemma map_core_of_matchingAll? {patterns values : List Ty}
    (hpatterns : ∀ p ∈ patterns, Reproduces look p)
    (hdisjoint : ∀ x ∈ occurrencesAll patterns, x ∉ occurrencesAll values)
    {found result : Bindings} (h : matchingAll? found patterns values = some result)
    (hresult : Realizes look result) :
    Realizes look found ∧ (expandAll look 0 patterns).map core = values.map core := by
  induction patterns generalizing values found with
  | nil =>
    obtain ⟨rfl, rfl⟩ := matchingAll?_nil_eq_some_iff.1 h
    exact ⟨hresult, rfl⟩
  | cons p ps ih =>
    obtain ⟨v, vs, more, joined, rfl, hmore, hjoined, h⟩ := matchingAll?_cons_eq_some_iff.1 h
    obtain ⟨hp, hps⟩ := List.forall_mem_cons.1 hpatterns
    simp only [occurrencesAll, List.mem_append] at hdisjoint
    -- What is realized in the end is realized on the way, from the last pattern to the first.
    obtain ⟨hjoinedLook, hrest⟩ := ih hps (fun x hx hx' => hdisjoint x (.inr hx) (.inr hx')) h
    obtain ⟨hfoundLook, hmoreLook⟩ := hjoinedLook.of_join? hjoined
    have hfirst : (p.expand look 0).core = v.core :=
      hp (fun x hx hx' => hdisjoint x (.inl hx) (.inl hx')) hmore hmoreLook
    exact ⟨hfoundLook, by rw [expandAll, List.map_cons, List.map_cons, hfirst, hrest]⟩

/-- Every meaning reproduces the patterns without unknown lengths whose contracts carry no
constraints. -/
theorem Starless.reproduces {pattern : Ty} (hstar : pattern.Starless)
    (hpattern : pattern.Within .unconstrained) : Reproduces look pattern := by
  intro offered found hdisjoint h hlook
  induction pattern generalizing offered found with
  | star => cases hstar
  | var x =>
    have hx : x ∉ offered.occurrences := hdisjoint x List.mem_cons_self
    have hne : ¬(offered == .var x) = true := by
      intro heq
      rw [eq_var_of_beq heq] at hx
      exact hx List.mem_cons_self
    rw [Ty.matching?, if_neg hne, if_neg hx] at h
    obtain rfl := Option.some.inj h
    refine hlook x offered ?_
    rw [Bindings.bind, NameTable.find?_insert, if_pos rfl]
  | void =>
    cases offered with
    | void => rfl
    | _ => cases h
  | const a | int a =>
    cases offered <;> try cases h
    rw [Ty.matching?] at h
    split at h
    · rename_i heq
      rw [heq]
      rfl
    · cases h
  | seq patterns ih =>
    cases offered <;> try cases h
    cases hstar with
    | seq hstar =>
      have hmembers : ∀ p ∈ patterns, Reproduces look p := fun p hp {_ _} =>
        ih p hp (hstar p hp) (within_seq.1 hpattern p hp)
      rw [Ty.expand, core_seq, core_seq, (map_core_of_matchingAll? hmembers hdisjoint h hlook).2]
  | tuple patterns ih =>
    cases offered <;> try cases h
    cases hstar with
    | tuple hstar =>
      have hmembers : ∀ p ∈ patterns, Reproduces look p := fun p hp {_ _} =>
        ih p hp (hstar p hp) (within_tuple.1 hpattern p hp)
      rw [Ty.expand, core_tuple, core_tuple,
        (map_core_of_matchingAll? hmembers hdisjoint h hlook).2]
  | func fn patterns ih =>
    cases offered <;> try cases h
    cases hstar with
    | func _ hstar =>
      have hmembers : ∀ p ∈ patterns, Reproduces look p := fun p hp {_ _} =>
        ih p hp (hstar p hp) (within_func.1 hpattern p hp)
      rw [Ty.matching?] at h
      split at h
      · rename_i hfn
        rw [Ty.expand, core_func, core_func, hfn,
          (map_core_of_matchingAll? hmembers hdisjoint h hlook).2]
      · cases h
  | list element length ihe ihl =>
    obtain ⟨_, _, found₁, found₂, rfl, h₁, h₂, hjoin⟩ := matching?_list_eq_some_iff.1 h
    cases hstar with
    | list hse hsl =>
      obtain ⟨hlook₁, hlook₂⟩ := hlook.of_join? hjoin
      simp only [occurrences, List.mem_append] at hdisjoint
      have he := ihe hse hpattern.1 (fun x hx hx' => hdisjoint x (.inl hx) (.inl hx')) h₁ hlook₁
      have hl := ihl hsl hpattern.2 (fun x hx hx' => hdisjoint x (.inr hx) (.inr hx')) h₂ hlook₂
      rw [Ty.expand, core_list, core_list, he, hl]
  | contract body ihr ihy =>
    obtain ⟨_, found₁, found₂, rfl, h₁, h₂, hjoin⟩ := matching?_contract_eq_some_iff.1 h
    cases hstar with
    | contract hsr hsy =>
      obtain ⟨hc, hr, hy⟩ := within_contract.1 hpattern
      obtain ⟨hcondition, hforbidden⟩ := hc.resolve_left id
      rw [expand_contract_of_unconstrained hcondition hforbidden]
      obtain ⟨hlook₁, hlook₂⟩ := hlook.of_join? hjoin
      simp only [occurrences_contract, List.mem_append] at hdisjoint
      refine core_contract_congr ?_ ?_
      · rw [core_normalize]
        exact ihr hsr hr (fun x hx hx' => hdisjoint x (.inl hx) (.inl hx')) h₁ hlook₁
      · rw [core_normalize]
        exact ihy hsy hy (fun x hx hx' => hdisjoint x (.inr hx) (.inr hx')) h₂ hlook₂

/-- Bindings whose values mention none of the bound variables realize themselves: what comes in for
a variable is not replaced any further. -/
lemma realizes_look {b : Bindings}
    (hb : b.Within (Parts.unconstrained.withVars fun x => b.find? x = none)) :
    Realizes b.look b := by
  intro x t hx
  obtain ⟨bound, hlook⟩ := Bindings.look_zero_of_find?_eq_some hx
  have ht : t.Within (Parts.unconstrained.withVars fun y =>
      ∀ depth, b.lookWithin bound depth y = .var y) := by
    obtain ⟨hparts, hfree⟩ := within_withVars_iff.1 (hb x t hx)
    refine within_withVars_iff.2 ⟨hparts, fun y hy depth => ?_⟩
    exact Bindings.lookWithin_of_find?_eq_none (hfree y hy) bound depth
  rw [hlook, core_withSource, core, ht.normalize_expand, core]

/-- Matching is sound. If a value matches a pattern that has no unknown lengths and no variables in
common with it, and no contract in the two carries constraints, then the match binds the variables
of the pattern and no others, and substituting what was found turns the pattern into the normal form
of the value. -/
theorem subst_beq_of_matching? {pattern offered : Ty} {found : Bindings}
    (hstar : pattern.Starless) (hdisjoint : ∀ x ∈ pattern.freeVars, x ∉ offered.freeVars)
    (hpattern : pattern.Within .unconstrained) (hoffered : offered.Within .unconstrained)
    (h : pattern.matching? offered = some found) :
    (∀ x, found.contains x = true ↔ x ∈ pattern.freeVars) ∧
      (pattern.subst found == offered.normalize) = true := by
  simp only [mem_freeVars] at hdisjoint ⊢
  have hbound := contains_matching?_iff hdisjoint h
  refine ⟨hbound, ?_⟩
  -- The variables of the offered value are not bound, so they stay in what is found.
  have hvalues : offered.Within (Parts.unconstrained.withVars fun x => found.find? x = none) := by
    refine within_withVars_iff.2 ⟨hoffered, fun x hx => ?_⟩
    rw [← NameTable.contains_eq_false_iff, Bool.eq_false_iff]
    exact fun hcontains => hdisjoint x ((hbound x).1 hcontains) hx
  have hlook : Realizes found.look found := realizes_look (within_matching? hvalues h)
  exact beq_normalize_iff.2 (hstar.reproduces hpattern hdisjoint h hlook)

/-- A variable that occurs twice matches two values with the same normal form, of which it keeps the
first one; the variables of the offered value are left alone. -/
theorem subst_beq_of_matching?_twice :
    ∃ found, (Ty.tuple [.var "x", .contract { receives := .var "y", yields := .var "x" }]).matching?
        (.tuple [.const "A",
          .contract { receives := .var "z", yields := .seq [.void, .const "A"] }]) = some found ∧
      found.contains "y" = true ∧
      ((Ty.tuple [.var "x", .contract { receives := .var "y", yields := .var "x" }]).subst found ==
        (Ty.tuple [.const "A",
          .contract { receives := .var "z", yields := .seq [.void, .const "A"] }]).normalize) =
        true := by
  have hstar :
      (Ty.tuple [.var "x", .contract { receives := .var "y", yields := .var "x" }]).Starless := by
    refine .tuple (List.forall_mem_cons.2 ⟨.var _, List.forall_mem_singleton.2 ?_⟩)
    exact .contract (.var _) (.var _)
  have hdisjoint :
      ∀ x ∈ (Ty.tuple [.var "x", .contract { receives := .var "y", yields := .var "x" }]).freeVars,
        x ∉ (Ty.tuple [.const "A",
          .contract { receives := .var "z", yields := .seq [.void, .const "A"] }]).freeVars := by
    decide
  refine ⟨_, rfl, ?_⟩
  have hsound := subst_beq_of_matching? hstar hdisjoint (by simp [Parts.unconstrained])
    (by simp [Parts.unconstrained]) rfl
  exact ⟨(hsound.1 "y").2 (by decide), hsound.2⟩

end Ty

end ContractComposition
