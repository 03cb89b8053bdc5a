import ContractComposition.Proofs.Readiness
import ContractComposition.Proofs.Stages

/-!
# Propagating bindings

After an exchange the bindings that are in force are substituted into the contracts, so that a
contract is sometimes asked to receive before and sometimes after this has happened. For first-order
contracts and data it makes no difference (`propagation_keeps_acceptance`). Taking the first element
off a side commutes with substitution (`Ty.Side.pop?_subst`), the first element does not change if
the same bindings are substituted again, and conditions and exclusions survive stages. If the
bindings violate the exclusions, then the contract collapses and has nothing to receive any more;
but then it would have refused everything anyway, because further bindings violate the exclusions as
well.

What is left of the contract is the same, too, once the new bindings are substituted. These need not
be first-order: the offered value is arbitrary, and with it what a variable is bound to.
-/

namespace ContractComposition

namespace Ty

variable {t : Ty} {b θ : Bindings}

/-- The first element of a side is first-order, and the rest is a side. -/
lemma Side.of_pop? (h : t.Side) {head rest : Ty} (hpop : t.pop? = some (head, rest)) :
    head.FirstOrder ∧ rest.Side := by
  obtain ⟨vs, hvs, rfl⟩ := h.exists_members
  obtain ⟨others, rfl, rfl⟩ := pop?_ofMembers hvs hpop
  obtain ⟨hhead, hothers⟩ := List.forall_mem_cons.1 hvs
  exact ⟨hhead, side_ofMembers hothers⟩

/-- Taking the first element off a side commutes with substituting first-order bindings. -/
lemma Side.pop?_subst (hb : b.FirstOrder) (h : t.Side) :
    (t.subst b).pop? = t.pop?.map fun popped => (popped.1.subst b, popped.2.subst b) := by
  obtain ⟨vs, hvs, rfl⟩ := h.exists_members
  cases vs with
  | nil => rfl
  | cons v vs =>
    have hsubst := forall_firstOrder_subst hb hvs
    rw [List.map_cons] at hsubst
    rw [subst_ofMembers hb hvs, List.map_cons, pop?_ofMembers_cons_of_firstOrder hsubst,
      pop?_ofMembers_cons_of_firstOrder hvs, Option.map_some,
      subst_ofMembers hb (List.forall_mem_cons.1 hvs).2]

/-- Substituting data into a side and later more bindings, whatever these are, is substituting the
latter at once. -/
lemma Side.subst_subst (hb : b.Data) (hθ : b.ExtendedBy θ) (h : t.Side) :
    (t.subst b).subst θ = t.subst θ := by
  have hvalue : ∀ v : Ty, v.FirstOrder → (v.subst b).subst θ = v.subst θ :=
    fun v hv => hv.isSteady.subst_subst hb.isPlain hθ
  cases h with
  | void => rfl
  | value ht => exact hvalue t ht
  | @seq items hlength hitems =>
    have hseq : ∀ (us : List Ty) (b' : Bindings),
        (Ty.seq us).subst b' = sequence (us.map fun u => u.subst b') :=
      fun us b' => normalize_expand_seq us
    have hlength' : 2 ≤ (items.map fun v => v.subst b).length := by rwa [List.length_map]
    rw [hseq, sequence_eq_ofMembers (forall_firstOrder_subst hb.firstOrder hitems),
      ofMembers_of_two_le hlength', hseq, hseq, List.map_map]
    exact congrArg sequence (List.map_congr_left fun v hv => hvalue v (hitems v hv))

end Ty

namespace Contract

variable {c : Contract} {b known : Bindings} {offered : Ty} {hierarchy : Hierarchy}

/-- Bindings that do not violate the exclusions of a contract are substituted into its sides and its
condition. -/
lemma subst_of_violatedBy_eq_false (h : Exclusions.violatedBy c.forbidden b = false) :
    (c.subst b).receives = c.receives.subst b ∧ (c.subst b).yields = c.yields.subst b ∧
      (c.subst b).condition = c.condition.map fun condition => condition.subst b := by
  cases hsubst : Exclusions.subst? c.forbidden b with
  | none =>
    rw [Exclusions.subst?_eq_none_iff.1 hsubst] at h
    cases h
  | some table =>
    rw [Contract.subst, expand_of_expandInto? hsubst]
    exact ⟨rfl, rfl, rfl⟩

/-- A contract receives nothing if the bindings violate its exclusions already. -/
lemma accept?_of_violatedBy (hknown : known.IsPlain) (htable : Exclusions.IsSteady c.forbidden)
    (h : Exclusions.violatedBy c.forbidden known = true) :
    c.accept? offered known hierarchy = none := by
  refine Option.eq_none_iff_forall_not_mem.2 fun received hreceived => ?_
  obtain ⟨head, rest, found, -, -, hjoin, hviolated, -⟩ := accept?_eq_some_iff.1 hreceived
  have hext : known.ExtendedBy received.bindings := Bindings.extendedBy_of_join? hjoin
  rw [Exclusions.violatedBy_of_extendedBy hknown htable hext h] at hviolated
  cases hviolated

/-- What becomes of receiving a value if the bindings have been substituted into the contract
before: the same values are received, under the same bindings, and what is left to receive has the
earlier bindings substituted. -/
lemma accept?_subst (hc : c.FirstOrder) (htable : Exclusions.IsSteady c.forbidden)
    (hknown : known.Data) :
    (c.subst known).accept? offered known hierarchy =
      (c.accept? offered known hierarchy).map fun received =>
        ⟨{ c.subst known with receives := received.successor.receives.subst known },
          received.bindings⟩ := by
  have hplain : known.IsPlain := hknown.isPlain
  rcases subst_cases hplain htable with ⟨hviolated, hcollapsed⟩ |
    ⟨hviolated, hreceives, -, -, hsame⟩
  · rw [accept?_of_violatedBy hplain htable hviolated, hcollapsed]
    rfl
  obtain ⟨-, -, hcondition⟩ := subst_of_violatedBy_eq_false hviolated
  have hholds : ∀ θ, known.ExtendedBy θ →
      ((c.subst known).condition.all fun condition => condition.holds θ hierarchy) =
        c.condition.all fun condition => condition.holds θ hierarchy := by
    intro θ hθ
    have hstages : ∀ x, (((Ty.var x).subst known).subst θ).bare = ((Ty.var x).subst θ).bare :=
      fun x => congrArg Ty.bare ((Ty.FirstOrder.var x).isSteady.subst_subst hplain hθ)
    rw [hcondition]
    cases c.condition with
    | none => rfl
    | some condition => exact condition.holds_subst hstages hierarchy
  -- The stages of receiving are followed one by one; the two contracts part at none of them.
  rw [accept?, accept?, hreceives, hc.receives.pop?_subst hknown.firstOrder]
  cases hpop : c.receives.pop? with
  | none => rfl
  | some popped =>
    obtain ⟨head, rest⟩ := popped
    have hhead : (head.subst known).subst known = head.subst known :=
      (hc.receives.of_pop? hpop).1.isSteady.subst_subst hplain (.refl known)
    simp only [Option.map_some, Option.bind_eq_bind, Option.bind_some, hhead]
    cases (head.subst known).matching? offered with
    | none => rfl
    | some found =>
      simp only [Option.bind_some]
      cases hjoin : known.join? found with
      | none => rfl
      | some bindings =>
        have hext : known.ExtendedBy bindings := Bindings.extendedBy_of_join? hjoin
        simp only [Option.bind_some]
        rw [hsame bindings hext, hholds bindings hext]
        split
        · rfl
        · split <;> rfl

/-- What is left of a contract after receiving a value is the same whether or not the bindings have
been substituted before, once the new bindings are. -/
lemma beq_successors_of_accept? (hc : c.FirstOrder) (htable : Exclusions.IsSteady c.forbidden)
    (hknown : known.Data) {received received' : Received}
    (h : c.accept? offered known hierarchy = some received)
    (h' : (c.subst known).accept? offered known hierarchy = some received') :
    received'.bindings = received.bindings ∧
      (received.successor.subst received.bindings ==
        received'.successor.subst received'.bindings) = true := by
  have hunviolated : Exclusions.violatedBy c.forbidden known = false := by
    refine Bool.eq_false_iff.2 fun hviolated => ?_
    rw [accept?_of_violatedBy hknown.isPlain htable hviolated] at h
    cases h
  obtain ⟨head, rest, found, hpop, -, hjoin, hlater, -, hsuccessor⟩ := accept?_eq_some_iff.1 h
  obtain ⟨-, -, -, -, -, -, hlater', -, -⟩ := accept?_eq_some_iff.1 h'
  rw [accept?_subst hc htable hknown, h, Option.map_some, Option.some.injEq] at h'
  subst h'
  rw [hsuccessor]
  have hext : known.ExtendedBy received.bindings := Bindings.extendedBy_of_join? hjoin
  have hrest : rest.Side := (hc.receives.of_pop? hpop).2
  obtain ⟨-, hyields, -⟩ := subst_of_violatedBy_eq_false hunviolated
  obtain ⟨hreceivesLater, hyieldsLater, -⟩ :=
    subst_of_violatedBy_eq_false (c := { c with receives := rest }) hlater
  obtain ⟨hreceivesLater', hyieldsLater', -⟩ := subst_of_violatedBy_eq_false
    (c := { c.subst known with receives := rest.subst known }) hlater'
  refine ⟨rfl, beq_of_sides ?_ ?_⟩
  · rw [hreceivesLater, hreceivesLater', hrest.subst_subst hknown hext]
  · rw [hyieldsLater, hyieldsLater', hyields, hc.yields.subst_subst hknown hext]

end Contract

/-! ### Main result -/

/-- Propagating bindings does not change what a contract accepts. Let both sides of a contract be
first-order, let its exclusions be made of first-order values, and let the known bindings be to
ground first-order values; the condition, the hierarchy and the offered value are arbitrary. The
contract receives the value exactly if it does so after the bindings have been substituted into it.
The bindings in force from then on are the same, and so is what is left of the contract, once they
are substituted. -/
theorem propagation_keeps_acceptance {c : Contract} {known : Bindings}
    (hsides : c.receives.Side ∧ c.yields.Side) (htable : ∀ e ∈ c.forbidden, e.FirstOrder)
    (hknown : ∀ x t, known.find? x = some t → t.FirstOrder ∧ t.isGround = true) (offered : Ty)
    (hierarchy : Hierarchy) :
    ((c.accept? offered known hierarchy).isSome = true ↔
        ((c.subst known).accept? offered known hierarchy).isSome = true) ∧
      ∀ received received', c.accept? offered known hierarchy = some received →
        (c.subst known).accept? offered known hierarchy = some received' →
        received'.bindings = received.bindings ∧
          (received.successor.subst received.bindings ==
            received'.successor.subst received'.bindings) = true := by
  have hc : c.FirstOrder := Contract.firstOrder_iff.2 hsides
  have hsteady : Exclusions.IsSteady c.forbidden := fun e he => (htable e he).isSteady
  have hdata : known.Data := Bindings.data_iff.2 hknown
  refine ⟨?_, fun received received' h h' => ?_⟩
  · rw [Contract.accept?_subst hc hsteady hdata, Option.isSome_map]
  · exact Contract.beq_successors_of_accept? hc hsteady hdata h h'

/-- A contract waits for a pair whose first component is known. It takes a list of unknown length
for the second component, but not what is forbidden, and it does so after propagation as well. -/
theorem propagation_keeps_acceptance_pair :
    let c : Contract :=
      { receives := .seq [.tuple [.var "x", .var "y"], .var "y"], yields := .tuple [.var "y"]
        condition := some (.inherits "x" "A"), forbidden := [⟨[.var "y"], [[.var "x"]]⟩] }
    let known : Bindings := NameTable.ofList [("x", .const "A")]
    let list : Ty := .list (.const "B") .star
    (∃ received received', c.accept? (.tuple [.const "A", list]) known ∅ = some received ∧
      (c.subst known).accept? (.tuple [.const "A", list]) known ∅ = some received' ∧
      received'.bindings = received.bindings ∧
      (received.successor.subst received.bindings ==
        received'.successor.subst received'.bindings) = true) ∧
    (c.subst known).accept? (.tuple [.const "A", .const "A"]) known ∅ = none := by
  intro c known list
  have hpair : ∀ t ∈ [Ty.var "x", .var "y"], t.FirstOrder :=
    List.forall_mem_cons.2 ⟨.var _, List.forall_mem_singleton.2 (.var _)⟩
  have hsides : c.receives.Side ∧ c.yields.Side := by
    refine ⟨.seq (by decide) (List.forall_mem_cons.2 ⟨.tuple hpair, ?_⟩), .value (.tuple ?_)⟩
    · exact List.forall_mem_singleton.2 (.var _)
    · exact List.forall_mem_singleton.2 (.var _)
  have htable : ∀ e ∈ c.forbidden, e.FirstOrder := by
    refine List.forall_mem_singleton.2 ⟨List.forall_mem_singleton.2 (.var _), ?_⟩
    exact List.forall_mem_singleton.2 (List.forall_mem_singleton.2 (.var _))
  have hknown : ∀ x t, known.find? x = some t → t.FirstOrder ∧ t.isGround = true :=
    NameTable.forall_find?_ofList (List.forall_mem_singleton.2 ⟨.const _, rfl⟩)
  obtain ⟨hiff, hagree⟩ :=
    propagation_keeps_acceptance hsides htable hknown (.tuple [.const "A", list]) ∅
  obtain ⟨hrefused, -⟩ :=
    propagation_keeps_acceptance hsides htable hknown (.tuple [.const "A", .const "A"]) ∅
  have haccepted : (c.accept? (.tuple [.const "A", list]) known ∅).isSome = true := by decide
  obtain ⟨received, hreceived⟩ := Option.isSome_iff_exists.1 haccepted
  obtain ⟨received', hreceived'⟩ := Option.isSome_iff_exists.1 (hiff.1 haccepted)
  refine ⟨⟨received, received', hreceived, hreceived', hagree _ _ hreceived hreceived'⟩, ?_⟩
  have hnone : ¬(c.accept? (.tuple [.const "A", .const "A"]) known ∅).isSome = true := by decide
  rw [hrefused] at hnone
  exact Option.not_isSome_iff_eq_none.1 hnone

end ContractComposition
