import ContractComposition.Proofs.FirstOrder

/-!
# Contracts that bind what they yield

`Contract.check` asks that every variable that a contract yields is one that it receives or one that
is known beforehand. Of a first-order contract this stays true, whatever happens to it
(`Contract.Binds`): a variable that is received gets bound at that moment, so that it is known from
then on, and a copy with fresh variables receives the fresh variables that it yields.

Therefore such a contract is never held up by a variable. Once there is nothing left to receive, all
that it yields is ground under the bindings, and it can yield unless it is finished
(`Contract.Binds.exists_produce?`). If in addition the contract has no exclusions, a generator can
start over from a copy of it (`Contract.Restartable`).
-/

namespace ContractComposition

/-! ### Variables of first-order values -/

namespace Ty

variable {b : Bindings} {t v : Ty} {vs : List Ty} {x y : String}

lemma isGround_iff : t.isGround = true ↔ ∀ x, x ∉ t.occurrences := by
  rw [isGround, List.isEmpty_iff, List.eq_nil_iff_forall_not_mem]

/-- The variables of a side are those of its members. -/
lemma occurrences_ofMembers (h : ∀ v ∈ vs, v.FirstOrder) :
    (ofMembers vs).occurrences = vs.flatMap occurrences := by
  match vs with
  | [] => rfl
  | [v] => rw [ofMembers_singleton (h v List.mem_cons_self), List.flatMap_singleton]
  | u :: v :: vs =>
    rw [ofMembers_of_two_le (by simp), occurrences, occurrencesAll_eq_flatMap]

lemma Side.occurrences_eq (h : t.Side) : t.occurrences = t.items.flatMap occurrences := by
  obtain ⟨vs, hvs, rfl⟩ := h.exists_members
  rw [occurrences_ofMembers hvs, items_ofMembers hvs]

/-- The variables that are left in a value come from the variables that were replaced. -/
lemma FirstOrder.mem_occurrences_subst (h : v.FirstOrder) :
    x ∈ (v.subst b).occurrences ↔
      ∃ y ∈ v.occurrences, x ∈ ((Ty.var y).subst b).occurrences := by
  induction h with
  | const name => simp [Ty.subst, Ty.expand, normalize, occurrences]
  | var name => simp [occurrences]
  | tuple _ ih =>
    rw [subst_tuple, occurrences, occurrences, occurrencesAll_eq_flatMap,
      occurrencesAll_eq_flatMap, List.flatMap_map]
    simp only [List.mem_flatMap]
    constructor
    · rintro ⟨u, hu, hx⟩
      obtain ⟨y, hy, hxy⟩ := (ih u hu).1 hx
      exact ⟨y, ⟨u, hu, hy⟩, hxy⟩
    · rintro ⟨y, ⟨u, hu, hy⟩, hxy⟩
      exact ⟨u, hu, (ih u hu).2 ⟨y, hy, hxy⟩⟩

lemma Side.mem_occurrences_subst (hb : b.FirstOrder) (h : t.Side) :
    x ∈ (t.subst b).occurrences ↔
      ∃ y ∈ t.occurrences, x ∈ ((Ty.var y).subst b).occurrences := by
  obtain ⟨vs, hvs, rfl⟩ := h.exists_members
  rw [subst_ofMembers hb hvs, occurrences_ofMembers hvs,
    occurrences_ofMembers (forall_firstOrder_subst hb hvs), List.flatMap_map]
  simp only [List.mem_flatMap]
  constructor
  · rintro ⟨v, hv, hx⟩
    obtain ⟨y, hy, hxy⟩ := (hvs v hv).mem_occurrences_subst.1 hx
    exact ⟨y, ⟨v, hv, hy⟩, hxy⟩
  · rintro ⟨y, ⟨v, hv, hy⟩, hxy⟩
    exact ⟨v, hv, (hvs v hv).mem_occurrences_subst.2 ⟨y, hy, hxy⟩⟩

lemma subst_var_of_find?_eq_none (h : b.find? x = none) : (Ty.var x).subst b = .var x := by
  rw [Ty.subst, expand, Bindings.look_of_find?_eq_none h]
  rfl

/-- Data replace the variables that they are bound to. -/
lemma mem_occurrences_subst_var (hb : b.Data) :
    x ∈ ((Ty.var y).subst b).occurrences ↔ x = y ∧ b.contains y = false := by
  cases hfind : b.find? y with
  | none =>
    have hfree : b.contains y = false := NameTable.contains_eq_false_iff.2 hfind
    rw [subst_var_of_find?_eq_none hfind]
    simp [occurrences, hfree]
  | some u =>
    have hbound : b.contains y = true := NameTable.contains_iff.2 ⟨u, hfind⟩
    have hground := (hb y u hfind).isGround
    rw [subst_var_of_find?_eq_some (hb y u hfind) hfind]
    simp [isGround_iff.1 hground x, hbound]

/-- There is nothing in a side after replacing variables exactly if there was nothing before. -/
lemma Side.subst_eq_void_iff (hb : b.FirstOrder) (h : t.Side) :
    t.subst b = .void ↔ t = .void := by
  obtain ⟨vs, hvs, rfl⟩ := h.exists_members
  rw [subst_ofMembers hb hvs, ← isVoid_iff, ← isVoid_iff, isVoid_ofMembers_iff hvs,
    isVoid_ofMembers_iff (forall_firstOrder_subst hb hvs), List.map_eq_nil_iff]

lemma Side.normalize_eq (h : t.Side) : t.normalize = t := by
  obtain ⟨vs, hvs, rfl⟩ := h.exists_members
  exact normalize_ofMembers hvs

/-- A side is not an open stream. -/
lemma Side.isOpenStream_eq_false (h : t.Side) : t.isOpenStream = false := by
  cases h with
  | void | seq => rfl
  | value ht => cases ht <;> rfl

/-- A side with something in it has a first element. -/
lemma Side.exists_pop? (h : t.Side) (hne : t ≠ .void) : ∃ popped, t.pop? = some popped := by
  cases h with
  | void => exact absurd rfl hne
  | value ht => cases ht <;> exact ⟨_, rfl⟩
  | @seq items hlength _ =>
    cases items with
    | nil => cases hlength
    | cons head rest => exact ⟨_, rfl⟩

end Ty

/-! ### Contracts -/

/-- Every variable that the contract yields is received or known. -/
def Contract.Binds (known : String → Prop) (c : Contract) : Prop :=
  ∀ x ∈ c.yields.occurrences, x ∈ c.receives.occurrences ∨ known x

namespace Contract

variable {c : Contract} {b : Bindings} {known known' : String → Prop}

/-- This is what is checked before a run. -/
lemma check_eq_ok_iff : c.check b = .ok () ↔ c.Binds fun x => b.contains x = true := by
  have hunbound : c.unbound b = [] ↔ c.Binds fun x => b.contains x = true := by
    simp only [unbound, List.filter_eq_nil_iff, Ty.mem_freeVars, Binds, Bool.and_eq_true,
      Bool.not_eq_true', List.contains_eq_mem, decide_eq_false_iff_not]
    refine forall₂_congr fun x _ => ?_
    rw [not_and_or, not_not, Bool.not_eq_false]
  rw [← hunbound, check]
  split
  · rename_i heq
    simp [heq]
  · rename_i hne
    simpa using hne

/-- A first-order contract is finished if both sides are empty. -/
lemma FirstOrder.isTerminal_iff (hc : c.FirstOrder) :
    c.isTerminal = true ↔ c.receives = .void ∧ c.yields = .void := by
  rw [isTerminal, Bool.and_eq_true, hc.receives.normalize_eq, hc.yields.normalize_eq,
    Ty.isVoid_iff, Ty.isVoid_iff]

/-- A value that is taken over is yielded last. -/
lemma FirstOrder.items_appendYield (hc : c.FirstOrder) {value : Ty} (hvalue : value.Datum) :
    (c.appendYield value).yields.items = c.yields.items ++ [value] := by
  rw [Contract.appendYield, Ty.sequence_singleton hvalue.firstOrder,
    hc.yields.items_concat (.value hvalue.firstOrder)]
  cases hvalue.firstOrder <;> rfl

lemma FirstOrder.isTerminal_appendYield (hc : c.FirstOrder) {value : Ty} (hvalue : value.Datum) :
    (c.appendYield value).isTerminal = false := by
  rw [Bool.eq_false_iff, Ne, (law_firstOrder.append hc hvalue).isTerminal_iff]
  rintro ⟨-, hvoid⟩
  have hitems := hc.items_appendYield hvalue
  rw [hvoid] at hitems
  exact List.append_ne_nil_of_right_ne_nil _ (List.cons_ne_nil _ _) hitems.symm

namespace Binds

lemma mono (h : c.Binds known) (hknown : ∀ x, known x → known' x) : c.Binds known' :=
  fun x hx => (h x hx).imp_right (hknown x)

lemma of_extendedBy {b' : Bindings} (h : c.Binds fun x => b.contains x = true)
    (hext : b.ExtendedBy b') : c.Binds fun x => b'.contains x = true := by
  refine h.mono fun x hx => ?_
  obtain ⟨t, ht⟩ := NameTable.contains_iff.1 hx
  exact NameTable.contains_iff.2 ⟨t, hext x t ht⟩

/-- Replacing variables keeps the sides together: what comes in for a variable comes in on both of
them. -/
lemma subst (hb : b.FirstOrder) (hc : c.FirstOrder) (h : c.Binds known)
    (hknown : ∀ x, known x → ∀ z ∈ ((Ty.var x).subst b).occurrences, known z) :
    (c.subst b).Binds known := by
  intro z hz
  rcases c.subst_sides b with ⟨-, hyields⟩ | ⟨hreceives, hyields⟩
  · rw [hyields] at hz
    cases hz
  · rw [hyields, hc.yields.mem_occurrences_subst hb] at hz
    obtain ⟨y, hy, hzy⟩ := hz
    rcases h y hy with hreceived | hy
    · left
      rw [hreceives, hc.receives.mem_occurrences_subst hb]
      exact ⟨y, hreceived, hzy⟩
    · exact .inr (hknown y hy z hzy)

/-- Data leave no new variables. -/
lemma subst_data (hb : b.Data) (hc : c.FirstOrder) (h : c.Binds known) :
    (c.subst b).Binds known := by
  refine h.subst hb.firstOrder hc fun x hx z hz => ?_
  obtain ⟨rfl, -⟩ := (Ty.mem_occurrences_subst_var hb).1 hz
  exact hx

/-- A copy with fresh variables keeps the known variables. -/
lemma freshen {keep : List String} (hc : c.FirstOrder) (h : c.Binds (· ∈ keep)) (suffix : Nat) :
    (c.freshen suffix keep).Binds (· ∈ keep) := by
  refine h.subst (fun x t ht => ?_) hc fun x hx z hz => ?_
  · rw [Bindings.eq_var_of_find?_suffixing ht]
    exact .var _
  · rw [Ty.subst_var_of_find?_eq_none (Bindings.find?_suffixing_of_mem hx)] at hz
    obtain rfl := List.mem_singleton.1 hz
    exact hx

/-- What is left after yielding has no variables. -/
lemma produce? (hb : b.Data) (hc : c.FirstOrder) {yielded : Yielded}
    (hyielded : c.produce? b = some yielded) : yielded.successor.Binds known := by
  have hground := (Contract.produce?_eq_some_iff.1 hyielded).2.1
  obtain ⟨-, -, v, vs, hvs, hyields, -, hsuccessor⟩ := hc.produce? hb hyielded
  have hsubst := Ty.forall_firstOrder_subst hb.firstOrder hvs
  rw [hyields, Ty.subst_ofMembers hb.firstOrder hvs, Ty.isGround_iff,
    Ty.occurrences_ofMembers hsubst] at hground
  intro x hx
  rw [hsuccessor, Ty.occurrences_ofMembers (List.forall_mem_cons.1 hsubst).2] at hx
  exact absurd (List.mem_append_right _ hx) (hground x)

/-- The variables of what is received are bound from then on. -/
lemma accept? (hb : b.Data) (hc : c.FirstOrder) (h : c.Binds fun x => b.contains x = true)
    {offered : Ty} (ho : offered.Datum) {hierarchy : Hierarchy} {received : Received}
    (hreceived : c.accept? offered b hierarchy = some received) :
    received.successor.Binds fun x => received.bindings.contains x = true := by
  obtain ⟨hdata, hext, v, vs, hvs, hreceives, hsound, hsuccessor⟩ := hc.accept? hb ho hreceived
  have hrest := (List.forall_mem_cons.1 hvs).2
  intro x hx
  rw [hsuccessor] at hx ⊢
  rcases h.of_extendedBy hext x hx with hx | hx
  · rw [hreceives, Ty.occurrences_ofMembers hvs, List.flatMap_cons, List.mem_append] at hx
    rcases hx with hx | hx
    · -- Otherwise the variable would still occur in the value that was offered.
      right
      by_contra hfree
      rw [Bool.not_eq_true] at hfree
      have hoccurs : x ∈ (v.subst received.bindings).occurrences :=
        (hvs v List.mem_cons_self).mem_occurrences_subst.2
          ⟨x, hx, (Ty.mem_occurrences_subst_var hdata).2 ⟨rfl, hfree⟩⟩
      rw [hsound _ (Bindings.ExtendedBy.refl _)] at hoccurs
      exact Ty.isGround_iff.1 ho.isGround x hoccurs
    · left
      rw [Ty.occurrences_ofMembers hrest]
      exact hx
  · exact .inr hx

/-- A value that is taken over has no variables. -/
lemma appendYield (hc : c.FirstOrder) (h : c.Binds known) {value : Ty} (hvalue : value.Datum) :
    (c.appendYield value).Binds known := by
  have hyields := (law_firstOrder.append hc hvalue).yields
  intro x hx
  rw [hyields.occurrences_eq, hc.items_appendYield hvalue, List.flatMap_append,
    List.flatMap_singleton, List.mem_append, ← hc.yields.occurrences_eq] at hx
  exact h x (hx.resolve_right (Ty.isGround_iff.1 hvalue.isGround x))

/-- A contract that has nothing left to receive can yield, unless it is finished. -/
theorem exists_produce? (hb : b.Data) (hc : c.FirstOrder)
    (h : c.Binds fun x => b.contains x = true) (hterminal : c.isTerminal = false)
    (hvoid : c.receives = .void) : ∃ yielded, c.produce? b = some yielded := by
  have hyields : c.yields.subst b ≠ .void := by
    rw [Ne, hc.yields.subst_eq_void_iff hb.firstOrder]
    intro hempty
    rw [hc.isTerminal_iff.2 ⟨hvoid, hempty⟩] at hterminal
    cases hterminal
  have hground : (c.yields.subst b).isGround = true := by
    refine Ty.isGround_iff.2 fun x hx => ?_
    obtain ⟨y, hy, hxy⟩ := (hc.yields.mem_occurrences_subst hb.firstOrder).1 hx
    obtain ⟨rfl, hfree⟩ := (Ty.mem_occurrences_subst_var hb).1 hxy
    rcases h x hy with hreceived | hbound
    · rw [hvoid] at hreceived
      cases hreceived
    · rw [hfree] at hbound
      cases hbound
  obtain ⟨⟨value, rest⟩, hpop⟩ := (hc.yields.subst hb.firstOrder).exists_pop? hyields
  exact ⟨⟨value, _⟩, Contract.produce?_eq_some_iff.2
    ⟨Ty.isVoid_iff.2 hvoid, hground, rest, hpop, rfl⟩⟩

end Binds

/-! ### Starting over -/

/-- A contract from which a generator can start over: it is not finished, it does not collapse, and
it binds what it yields, apart from the variables that are kept. -/
structure Restartable (keep : List String) (c : Contract) : Prop where
  firstOrder : c.FirstOrder
  forbidden : c.forbidden = []
  unfinished : c.isTerminal = false
  binds : c.Binds (· ∈ keep)

/-- A copy with fresh variables has as much to receive and to yield as the contract. -/
lemma Restartable.isTerminal_freshen {keep : List String} (h : c.Restartable keep) (suffix : Nat) :
    (c.freshen suffix keep).isTerminal = false := by
  have hrenaming : (Bindings.suffixing c.allVars suffix keep).FirstOrder := by
    intro x t ht
    rw [Bindings.eq_var_of_find?_suffixing ht]
    exact .var _
  obtain ⟨hreceives, hyields, -⟩ :=
    subst_of_forbidden_eq_nil h.forbidden (Bindings.suffixing c.allVars suffix keep)
  have hunfinished := h.unfinished
  rw [Bool.eq_false_iff, Ne, h.firstOrder.isTerminal_iff] at hunfinished
  rw [Bool.eq_false_iff, Ne, (h.firstOrder.freshen suffix keep).isTerminal_iff, freshen, hreceives,
    hyields, h.firstOrder.receives.subst_eq_void_iff hrenaming,
    h.firstOrder.yields.subst_eq_void_iff hrenaming]
  exact hunfinished

end Contract

end ContractComposition
