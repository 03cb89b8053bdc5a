import Mathlib.Data.Multiset.AddSub
import ContractComposition.Proofs.FirstOrder
import ContractComposition.Proofs.Growth
import ContractComposition.Proofs.Run.Totals

/-!
# Values are conserved

In a run of finite generators with first-order contracts no value is lost and none is made twice: a
value that is yielded is received once, or it is part of the result.

To count values, let `φ` give each of them a weight. The *surplus* of a contract is the weight of
what it yields less the weight of what it receives, where the bindings `θ` that hold at the end of
the run are substituted beforehand, so that values do not change their weight when variables are
bound. Yielding a value takes its weight away from the surplus of a contract, receiving one adds to
it, and substituting bindings changes nothing. So the surplus of all live seats together with the
weight of what was emitted, the *balance* of a run, stays the same in every step
(`Run.FirstOrder.balance_of_steps`). Since this is true of all weights, it is true of the values
themselves.
-/

namespace ContractComposition

/-! ### The surplus of a contract -/

/-- The weight of the members of a side, with the bindings substituted. -/
def Ty.weight (φ : Ty → Int) (θ : Bindings) (t : Ty) : Int :=
  (t.items.map fun v => φ (v.subst θ)).sum

/-- The weight of what a contract yields, less the weight of what it receives. -/
def Contract.surplus (φ : Ty → Int) (θ : Bindings) (c : Contract) : Int :=
  c.yields.weight φ θ - c.receives.weight φ θ

section Surplus

variable {φ : Ty → Int} {b θ : Bindings}

namespace Ty

@[simp]
lemma weight_void : Ty.void.weight φ θ = 0 := rfl

lemma weight_ofMembers {vs : List Ty} (h : ∀ v ∈ vs, v.FirstOrder) :
    (ofMembers vs).weight φ θ = (vs.map fun v => φ (v.subst θ)).sum := by
  rw [weight, items_ofMembers h]

/-- Members into which bindings were substituted weigh the same under more bindings. -/
lemma sum_map_subst (hb : b.Data) (hθ : b.ExtendedBy θ) {vs : List Ty}
    (h : ∀ v ∈ vs, v.FirstOrder) :
    ((vs.map fun v => v.subst b).map fun v => φ (v.subst θ)).sum =
      (vs.map fun v => φ (v.subst θ)).sum := by
  rw [List.map_map]
  refine congrArg List.sum (List.map_congr_left fun v hv => ?_)
  exact congrArg φ ((h v hv).isSteady.subst_subst hb.isPlain hθ)

lemma weight_subst (hb : b.Data) (hθ : b.ExtendedBy θ) {t : Ty} (h : t.Side) :
    (t.subst b).weight φ θ = t.weight φ θ := by
  obtain ⟨vs, hvs, rfl⟩ := h.exists_members
  rw [subst_ofMembers hb.firstOrder hvs, weight_ofMembers hvs,
    weight_ofMembers (forall_firstOrder_subst hb.firstOrder hvs), sum_map_subst hb hθ hvs]

lemma weight_concat {t u : Ty} (ht : t.Side) (hu : u.Side) :
    (t.concat u).weight φ θ = t.weight φ θ + u.weight φ θ := by
  rw [weight, ht.items_concat hu, List.map_append, List.sum_append]
  rfl

lemma Datum.weight_eq {v : Ty} (h : v.Datum) : v.weight φ θ = φ v := by
  have hitems : v.items = [v] := by
    cases h.firstOrder <;> rfl
  rw [weight, hitems, List.map_singleton, List.sum_singleton, h.subst_eq]

end Ty

namespace Contract

variable {c : Contract}

/-- Substituting bindings does not change the surplus. -/
lemma surplus_subst (hb : b.Data) (hθ : b.ExtendedBy θ) (hc : c.FirstOrder)
    (hforbidden : c.forbidden = []) : (c.subst b).surplus φ θ = c.surplus φ θ := by
  obtain ⟨hreceives, hyields, -⟩ := subst_of_forbidden_eq_nil hforbidden b
  rw [surplus, surplus, hreceives, hyields, Ty.weight_subst hb hθ hc.receives,
    Ty.weight_subst hb hθ hc.yields]

/-- A finished contract has no surplus. -/
lemma surplus_of_isTerminal (hc : c.FirstOrder) (h : c.isTerminal = true) :
    c.surplus φ θ = 0 := by
  have hweight : ∀ {t : Ty}, t.Side → t.normalize.isVoid = true → t.weight φ θ = 0 := by
    intro t ht hvoid
    obtain ⟨vs, hvs, rfl⟩ := ht.exists_members
    rw [Ty.normalize_ofMembers hvs, Ty.isVoid_ofMembers_iff hvs] at hvoid
    rw [hvoid]
    rfl
  rw [isTerminal, Bool.and_eq_true] at h
  rw [surplus, hweight hc.receives h.1, hweight hc.yields h.2, Int.sub_zero]

/-- Yielding a value takes its weight away. -/
lemma surplus_produce? (hb : b.Data) (hθ : b.ExtendedBy θ) (hc : c.FirstOrder)
    {yielded : Yielded} (h : c.produce? b = some yielded) :
    yielded.successor.surplus φ θ = c.surplus φ θ - φ yielded.value := by
  obtain ⟨hreceives, hvalue, v, vs, hvs, hyields, heq, hsuccessor⟩ := hc.produce? hb h
  have hrest := (List.forall_mem_cons.1 hvs).2
  have hv : v.subst θ = yielded.value := by
    rw [← hvalue.subst_eq θ, heq,
      (hvs v List.mem_cons_self).isSteady.subst_subst hb.isPlain hθ]
  have hafter : yielded.successor.surplus φ θ = (vs.map fun v => φ (v.subst θ)).sum := by
    rw [hsuccessor, surplus, Ty.weight_ofMembers (Ty.forall_firstOrder_subst hb.firstOrder hrest),
      Ty.sum_map_subst hb hθ hrest, Ty.weight_void, Int.sub_zero]
  have hbefore : c.surplus φ θ = φ yielded.value + (vs.map fun v => φ (v.subst θ)).sum := by
    rw [surplus, hyields, hreceives, Ty.weight_ofMembers hvs, List.map_cons, List.sum_cons, hv,
      Ty.weight_void, Int.sub_zero]
  omega

/-- Receiving a value adds its weight. -/
lemma surplus_accept? (hb : b.Data) (hc : c.FirstOrder) {offered : Ty} (ho : offered.Datum)
    {hierarchy : Hierarchy} {received : Received}
    (h : c.accept? offered b hierarchy = some received)
    (hθ : received.bindings.ExtendedBy θ) :
    received.successor.surplus φ θ = c.surplus φ θ + φ offered := by
  obtain ⟨-, -, v, vs, hvs, hreceives, hsound, hsuccessor⟩ := hc.accept? hb ho h
  have hafter : received.successor.surplus φ θ =
      c.yields.weight φ θ - (vs.map fun v => φ (v.subst θ)).sum := by
    rw [hsuccessor, surplus, Ty.weight_ofMembers (List.forall_mem_cons.1 hvs).2]
  have hbefore : c.surplus φ θ =
      c.yields.weight φ θ - (φ offered + (vs.map fun v => φ (v.subst θ)).sum) := by
    rw [surplus, hreceives, Ty.weight_ofMembers hvs, List.map_cons, List.sum_cons, hsound θ hθ]
  omega

/-- Taking over a value adds its weight. -/
lemma surplus_appendYield (hc : c.FirstOrder) {value : Ty} (hvalue : value.Datum) :
    (c.appendYield value).surplus φ θ = c.surplus φ θ + φ value := by
  have hweight : (c.appendYield value).yields.weight φ θ = c.yields.weight φ θ + φ value := by
    rw [appendYield, Ty.sequence_singleton hvalue.firstOrder,
      Ty.weight_concat hc.yields (.value hvalue.firstOrder), hvalue.weight_eq]
  have hreceives : (c.appendYield value).receives = c.receives := rfl
  rw [surplus, surplus, hweight, hreceives]
  omega

end Contract

end Surplus

/-- A first-order contract without exclusions, which therefore never collapses. -/
structure Contract.Steadfast (c : Contract) : Prop where
  firstOrder : c.FirstOrder
  forbidden : c.forbidden = []

/-- Steadfast contracts stay so. -/
lemma Contract.law_steadfast : Contract.Law Contract.Steadfast Ty.Datum Bindings.Data where
  subst hb h := ⟨Contract.law_firstOrder.subst hb h.1,
    (Contract.subst_of_forbidden_eq_nil h.2 _).2.2⟩
  freshen suffix keep h := ⟨Contract.law_firstOrder.freshen suffix keep h.1,
    (Contract.subst_of_forbidden_eq_nil h.2 _).2.2⟩
  produce hb h hyielded := by
    obtain ⟨hvalue, hsuccessor⟩ := Contract.law_firstOrder.produce hb h.1 hyielded
    obtain ⟨-, -, rest, -, heq⟩ := Contract.produce?_eq_some_iff.1 hyielded
    exact ⟨hvalue, hsuccessor, by rw [heq]⟩
  accept hb h ho hreceived := by
    obtain ⟨hsuccessor, hbindings⟩ := Contract.law_firstOrder.accept hb h.1 ho hreceived
    obtain ⟨head, rest, found, -, -, -, -, -, heq⟩ := Contract.accept?_eq_some_iff.1 hreceived
    exact ⟨⟨hsuccessor, by rw [heq]; exact h.2⟩, hbindings⟩
  append h hv := ⟨Contract.law_firstOrder.append h.1 hv, h.2⟩
  contracts hv hcontracts := by
    rw [hv.firstOrder.contracts?_eq_none] at hcontracts
    cases hcontracts
  output h := ⟨Contract.law_firstOrder.output h, rfl⟩
  andThen h hc := ⟨Contract.law_firstOrder.andThen h hc.1, hc.2⟩

namespace Run

/-! ### Sums over seats -/

/-- A quantity of contracts, added up over the live seats. -/
def total (f : Contract → Int) (run : Run) : Int :=
  (run.live.map fun seat => f seat.current).sum

section Total

variable {f : Contract → Int} {run : Run}

/-- Putting a contract on a seat exchanges one summand. -/
lemma total_put (hrun : Numbered run) {seat : Seat} (hseat : seat ∈ run.live) (c : Contract) :
    (run.put seat.number c).total f = run.total f - f seat.current + f c :=
  sumSeats_put (f := fun seat => f seat.current) hrun hseat c

/-- The end of a step does not change a sum that substituting the bindings does not change. -/
lemma total_wrapUp {C : Contract → Prop} (hzero : ∀ c, C c → c.isTerminal = true → f c = 0)
    (hsubst : ∀ c, C c → C (c.subst run.bindings) ∧ f (c.subst run.bindings) = f c)
    (hrun : Numbered run) (hseats : ForallSeats (Transient C) run) (before : Bindings)
    (numbers : List Nat) : (run.wrapUp before numbers).total f = run.total f :=
  sumSeats_wrapUp_eq (f := fun seat => f seat.current) (fun seat => hzero seat.current)
    (fun seat => hsubst seat.current) hrun hseats before numbers

lemma total_joinAll {generators : List Generator}
    (hterminal : ∀ g ∈ generators, g.contract.isTerminal = true → f g.contract = 0) :
    (run.joinAll generators).total f =
      run.total f + (generators.map fun g => f g.contract).sum :=
  sumSeats_joinAll_eq (f := fun seat => f seat.current) hterminal fun _ _ _ => rfl

end Total

/-! ### The balance of a run -/

/-- A run of finite generators with steadfast contracts. -/
structure FirstOrder (run : Run) : Prop where
  obeys : run.Obeys Contract.Steadfast Ty.Datum Bindings.Data
  numbered : run.Numbered
  finite : ForallSeats (fun _ g _ => g.infinite = false) run

/-- The surplus of all live seats, and the weight of what was emitted. -/
def balance (φ : Ty → Int) (θ : Bindings) (run : Run) : Int :=
  run.total (Contract.surplus φ θ) + (run.emitted.toList.map φ).sum

namespace FirstOrder

variable {φ : Ty → Int} {θ : Bindings} {run : Run}

lemma transient (h : run.FirstOrder) : ForallSeats (Transient Contract.Steadfast) run := by
  intro seat hseat
  exact ⟨h.finite seat hseat, (h.obeys.seats seat hseat).2⟩

/-- Retiring seats and propagating bindings does not change the balance. -/
lemma balance_wrapUp (h : run.FirstOrder) (hθ : run.bindings.ExtendedBy θ) (before : Bindings)
    (numbers : List Nat) : (run.wrapUp before numbers).balance φ θ = run.balance φ θ := by
  have hzero : ∀ c : Contract, c.Steadfast → c.isTerminal = true → c.surplus φ θ = 0 :=
    fun c hc => Contract.surplus_of_isTerminal hc.firstOrder
  have hsubst : ∀ c : Contract, c.Steadfast → (c.subst run.bindings).Steadfast ∧
      (c.subst run.bindings).surplus φ θ = c.surplus φ θ := by
    intro c hc
    have hsteadfast := Contract.law_steadfast.subst h.obeys.bindings hc
    exact ⟨hsteadfast, Contract.surplus_subst h.obeys.bindings hθ hc.firstOrder hc.forbidden⟩
  rw [balance, balance, total_wrapUp hzero hsubst h.numbered h.transient,
    (run.reseats_wrapUp before numbers).emitted]

/-- The value of an offer is a datum, and yielding it takes its weight away. -/
lemma surplus_offer (h : run.FirstOrder) (hθ : run.bindings.ExtendedBy θ) {offer : Offer}
    (hoffer : offer ∈ run.offers) :
    offer.value.Datum ∧ offer.yielded.successor.surplus φ θ =
      offer.seat.current.surplus φ θ - φ offer.value := by
  obtain ⟨hseat, hyielded⟩ := mem_offers.1 hoffer
  have hcontract := (h.obeys.seats _ hseat).2.firstOrder
  exact ⟨(h.obeys.of_mem_offers Contract.law_steadfast hoffer).1,
    Contract.surplus_produce? h.obeys.bindings hθ hcontract hyielded⟩

lemma survivesRestarts_finite (external : List String) :
    SurvivesRestarts (fun _ g _ => g.infinite = false) external := by
  intro n g g' c c' k hg _ _
  exact hg

lemma wrapUp (h : run.FirstOrder) (before : Bindings) (numbers : List Nat) :
    (run.wrapUp before numbers).FirstOrder where
  obeys := h.obeys.wrapUp Contract.law_steadfast before numbers
  numbered := h.numbered.wrapUp before numbers
  finite := h.finite.wrapUp (fun _ _ _ hg => hg) (survivesRestarts_finite _) before numbers

/-- Whatever is put on a seat, its generator stays the same. -/
lemma finite_put (h : ForallSeats (fun _ g _ => g.infinite = false) run) (number : Nat)
    (contract : Contract) :
    ForallSeats (fun _ g _ => g.infinite = false) (run.put number contract) :=
  h.put fun _ _ hg => hg

lemma exchanged (h : run.FirstOrder) {offer : Offer} {receiver : Seat} {received : Received}
    {hierarchy : Hierarchy} (hallows : run.Allows hierarchy (.exchange offer receiver received)) :
    (run.exchanged offer receiver received).FirstOrder :=
  ⟨h.obeys.exchanged Contract.law_steadfast hallows, h.numbered.exchanged _ _ _,
    finite_put (finite_put h.finite _ _) _ _⟩

lemma absorbed (h : run.FirstOrder) {offer : Offer} {absorber : Seat} {hierarchy : Hierarchy}
    (hallows : run.Allows hierarchy (.absorb offer absorber)) :
    (run.absorbed offer absorber).FirstOrder :=
  ⟨h.obeys.absorbed Contract.law_steadfast hallows, h.numbered.absorbed _ _,
    finite_put (finite_put h.finite _ _) _ _⟩

lemma handedOut (h : run.FirstOrder) {offer : Offer} {hierarchy : Hierarchy}
    (hallows : run.Allows hierarchy (.emit offer)) : (run.handedOut offer).FirstOrder :=
  ⟨h.obeys.handedOut Contract.law_steadfast hallows, h.numbered.handedOut _,
    finite_put h.finite _ _⟩

/-- In an exchange the receiver gets what the yielding seat loses. -/
lemma balance_exchanged (h : run.FirstOrder) {offer : Offer} {receiver : Seat}
    {received : Received} {hierarchy : Hierarchy}
    (hallows : run.Allows hierarchy (.exchange offer receiver received))
    (hθ : received.bindings.ExtendedBy θ) :
    (run.exchanged offer receiver received).balance φ θ = run.balance φ θ := by
  obtain ⟨hoffer, hreceiver, hne, hreceived⟩ := hallows
  have hseat : offer.seat ∈ run.live := (mem_offers.1 hoffer).1
  obtain ⟨hfirstOrder, hforbidden⟩ := (h.obeys.seats _ hreceiver).2
  have hext : run.bindings.ExtendedBy received.bindings := by
    obtain ⟨-, -, found, -, -, hjoin, -⟩ := Contract.accept?_eq_some_iff.1 hreceived
    exact Bindings.extendedBy_of_join? hjoin
  obtain ⟨hvalue, hyielder⟩ := h.surplus_offer (φ := φ) (hext.trans hθ) hoffer
  obtain ⟨⟨hsuccessor, hsuccessorForbidden⟩, hbindings⟩ :=
    Contract.law_steadfast.accept h.obeys.bindings (h.obeys.seats _ hreceiver).2 hvalue hreceived
  have hresumed : (received.successor.subst received.bindings).surplus φ θ =
      receiver.current.surplus φ θ + φ offer.value := by
    rw [Contract.surplus_subst hbindings hθ hsuccessor hsuccessorForbidden,
      Contract.surplus_accept? h.obeys.bindings hfirstOrder hvalue hreceived hθ]
  have htotal : (run.exchanged offer receiver received).total (Contract.surplus φ θ) =
      ((run.put offer.seat.number offer.yielded.successor).put receiver.number
        (received.successor.subst received.bindings)).total (Contract.surplus φ θ) := rfl
  have hemitted : (run.exchanged offer receiver received).emitted = run.emitted := rfl
  rw [balance, balance, htotal, hemitted,
    total_put (h.numbered.put _ _) (mem_put_of_ne hreceiver hne _), total_put h.numbered hseat,
    hyielder, hresumed]
  omega

/-- In an absorption the absorber gets what the yielding seat loses. -/
lemma balance_absorbed (h : run.FirstOrder) (hθ : run.bindings.ExtendedBy θ) {offer : Offer}
    {absorber : Seat} {hierarchy : Hierarchy}
    (hallows : run.Allows hierarchy (.absorb offer absorber)) :
    (run.absorbed offer absorber).balance φ θ = run.balance φ θ := by
  obtain ⟨hoffer, -, habsorber, hcan⟩ := hallows
  have hseat : offer.seat ∈ run.live := (mem_offers.1 hoffer).1
  have hne : absorber.number ≠ offer.seat.number := by
    simp only [canAbsorb, Bool.and_eq_true, bne_iff_ne] at hcan
    exact hcan.1.1.1
  obtain ⟨hvalue, hyielder⟩ := h.surplus_offer (φ := φ) hθ hoffer
  have happended := Contract.surplus_appendYield (φ := φ) (θ := θ)
    (h.obeys.seats _ habsorber).2.firstOrder hvalue
  have htotal : (run.absorbed offer absorber).total (Contract.surplus φ θ) =
      ((run.put offer.seat.number offer.yielded.successor).put absorber.number
        (absorber.current.appendYield offer.value)).total (Contract.surplus φ θ) := rfl
  have hemitted : (run.absorbed offer absorber).emitted = run.emitted := rfl
  rw [balance, balance, htotal, hemitted,
    total_put (h.numbered.put _ _) (mem_put_of_ne habsorber hne _), total_put h.numbered hseat,
    hyielder, happended]
  omega

/-- What is emitted is still counted. -/
lemma balance_handedOut (h : run.FirstOrder) (hθ : run.bindings.ExtendedBy θ) {offer : Offer}
    (hoffer : offer ∈ run.offers) : (run.handedOut offer).balance φ θ = run.balance φ θ := by
  have hseat : offer.seat ∈ run.live := (mem_offers.1 hoffer).1
  obtain ⟨hvalue, hyielder⟩ := h.surplus_offer (φ := φ) hθ hoffer
  have htotal : (run.handedOut offer).total (Contract.surplus φ θ) =
      (run.put offer.seat.number offer.yielded.successor).total (Contract.surplus φ θ) := rfl
  have hemitted : (run.handedOut offer).emitted.toList = run.emitted.toList ++ [offer.value] :=
    Array.toList_push
  rw [balance, balance, htotal, hemitted, total_put h.numbered hseat, hyielder, List.map_append,
    List.sum_append, List.map_singleton, List.sum_singleton]
  omega

/-- A step keeps the balance, whatever bindings that extend those after the step it is taken
under. -/
theorem balance_of_steps (h : run.FirstOrder) {options : Options} {action : Action} {next : Run}
    (hstep : run.Steps options action next) :
    next.FirstOrder ∧
      ∀ φ θ, next.bindings.ExtendedBy θ → next.balance φ θ = run.balance φ θ := by
  have hext := hstep.extendedBy
  obtain ⟨haction, depth, hcommit⟩ := hstep
  have hallows := allows_of_nextAction? haction
  cases action with
  | exchange offer receiver received =>
    have hbindings := bindings_of_exchange hcommit
    obtain ⟨-, rfl⟩ := exchange_eq_ok hcommit
    have hmoved := h.exchanged hallows
    refine ⟨hmoved.wrapUp _ _, fun φ θ hθ => ?_⟩
    rw [hbindings] at hθ
    rw [hmoved.balance_wrapUp hθ, h.balance_exchanged hallows hθ]
  | spawn offer contracts =>
    -- A datum does not start anything.
    obtain ⟨hoffer, hcontracts⟩ := hallows
    have hvalue := (h.obeys.of_mem_offers Contract.law_steadfast hoffer).1
    rw [hvalue.firstOrder.contracts?_eq_none] at hcontracts
    cases hcontracts
  | absorb offer absorber =>
    obtain ⟨-, rfl⟩ := absorb_eq_ok hcommit
    have hmoved := h.absorbed hallows
    refine ⟨hmoved.wrapUp _ _, fun φ θ hθ => ?_⟩
    have hrunθ : run.bindings.ExtendedBy θ := hext.trans hθ
    rw [hmoved.balance_wrapUp hrunθ, h.balance_absorbed hrunθ hallows]
  | emit offer =>
    obtain ⟨-, rfl⟩ := emit_eq_ok hcommit
    have hmoved := h.handedOut hallows
    refine ⟨hmoved.wrapUp _ _, fun φ θ hθ => ?_⟩
    have hrunθ : run.bindings.ExtendedBy θ := hext.trans hθ
    rw [hmoved.balance_wrapUp hrunθ, h.balance_handedOut hrunθ hallows.1]

/-- The balance stays the same from the beginning to the end of a path. -/
theorem balance_of_path {first : Run} (h : first.FirstOrder) {options : Options}
    {actions : List Action} (hpath : Path options first actions run) :
    run.FirstOrder ∧
      ∀ φ θ, run.bindings.ExtendedBy θ → run.balance φ θ = first.balance φ θ := by
  induction hpath with
  | start => exact ⟨h, fun _ _ _ => rfl⟩
  | step _ hstep ih =>
    obtain ⟨hrun, hbalance⟩ := ih
    obtain ⟨hnext, hsame⟩ := hrun.balance_of_steps hstep
    refine ⟨hnext, fun φ θ hθ => ?_⟩
    rw [hsame φ θ hθ, hbalance φ θ (hstep.extendedBy.trans hθ)]

/-! ### Beginning and end -/

lemma start {generators : List Generator} {bindings : Bindings}
    (hfinite : ∀ g ∈ generators, g.infinite = false)
    (hcontracts : ∀ g ∈ generators, g.contract.Steadfast) (hbindings : bindings.Data) :
    (Run.start generators bindings).FirstOrder where
  obeys := Obeys.start hbindings hcontracts
  numbered := (begins_start generators bindings).numbered
  finite := (begins_start generators bindings).forallSeats fun g hg _ _ => hfinite g hg

/-- At the beginning, the balance is the surplus of all generators; those that have nothing to do
have none. -/
lemma balance_start {generators : List Generator} (bindings : Bindings)
    (hcontracts : ∀ g ∈ generators, g.contract.Steadfast) :
    (Run.start generators bindings).balance φ θ =
      (generators.map fun g => g.contract.surplus φ θ).sum := by
  have hterminal : ∀ g ∈ generators, g.contract.isTerminal = true → g.contract.surplus φ θ = 0 :=
    fun g hg => Contract.surplus_of_isTerminal (hcontracts g hg).firstOrder
  have hemitted : (Run.start generators bindings).emitted = #[] :=
    (begins_start generators bindings).emitted
  have hempty : ({ bindings := bindings, external := bindings.names } : Run).total
      (Contract.surplus φ θ) = 0 := rfl
  have hsum : ((#[] : Array Ty).toList.map φ).sum = 0 := rfl
  rw [balance, hemitted, hsum, Run.start, total_joinAll hterminal, hempty]
  omega

/-- At the end, the balance is what the composed contract yields less what it receives. -/
lemma balance_of_ending (h : run.FirstOrder) {contract : Contract}
    (hending : run.ending = .composed contract) :
    run.balance φ run.bindings =
      (contract.yields.items.map φ).sum - (contract.receives.items.map φ).sum := by
  have hemitted : ∀ v ∈ run.emitted.toList, v.FirstOrder :=
    fun v hv => (h.obeys.emitted v hv).firstOrder
  have houtput := Contract.FirstOrder.output_eq hemitted
  unfold Run.ending at hending
  split at hending
  · rename_i hlive
    cases hending
    have hyields : run.output.yields.items = run.emitted.toList := by
      rw [output, houtput, Ty.items_ofMembers hemitted]
    have hreceives : run.output.receives.items = [] := rfl
    rw [balance, total, hlive, hyields, hreceives, List.map_nil, List.map_nil, List.sum_nil]
    omega
  · rename_i seat hlive
    cases hending
    have hseat := (h.obeys.seats seat (hlive ▸ List.mem_singleton_self seat)).2
    have hdata := h.obeys.bindings
    obtain ⟨hsubstReceives, hsubstYields, -⟩ :=
      Contract.subst_of_forbidden_eq_nil hseat.forbidden run.bindings
    have hreceives : (run.output.andThen (seat.current.subst run.bindings)).receives.items =
        seat.current.receives.items.map fun v => v.subst run.bindings := by
      rw [Contract.andThen, output, houtput, hsubstReceives]
      exact hseat.firstOrder.receives.items_subst hdata.firstOrder
    have hyields : (run.output.andThen (seat.current.subst run.bindings)).yields.items =
        run.emitted.toList ++ seat.current.yields.items.map fun v => v.subst run.bindings := by
      rw [Contract.andThen, output, houtput, hsubstYields, Ty.Side.items_concat
        (Ty.side_ofMembers hemitted) (hseat.firstOrder.yields.subst hdata.firstOrder),
        Ty.items_ofMembers hemitted, hseat.firstOrder.yields.items_subst hdata.firstOrder]
    rw [balance, total, hlive, hreceives, hyields, List.map_singleton, List.sum_singleton,
      Contract.surplus, Ty.weight, Ty.weight, List.map_append, List.sum_append, List.map_map,
      List.map_map]
    simp only [Function.comp_def]
    omega
  · cases hending

end FirstOrder

end Run

/-! ### Values instead of weights -/

open Classical in
/-- The number of occurrences of a value is a weight under which all other values are nothing. -/
lemma Ty.count_ofList (v : Ty) (us : List Ty) :
    ((Multiset.ofList us).count v : Int) = (us.map fun u => if v = u then 1 else 0).sum := by
  induction us with
  | nil => rfl
  | cons u us ih =>
    rw [← Multiset.cons_coe, Multiset.count_cons, List.map_cons, List.sum_cons, ← ih]
    by_cases huv : v = u
    · rw [if_pos huv, if_pos huv]
      omega
    · rw [if_neg huv, if_neg huv]
      omega

/-- Lists of values that weigh the same, whatever the weights, are the same up to order. -/
lemma Ty.ofList_eq_of_forall_sum_eq {vs ws : List Ty}
    (h : ∀ φ : Ty → Int, (vs.map φ).sum = (ws.map φ).sum) :
    Multiset.ofList vs = Multiset.ofList ws := by
  classical
  refine Multiset.ext.2 fun v => ?_
  have heq := h fun u => if v = u then 1 else 0
  rw [← count_ofList, ← count_ofList] at heq
  exact Int.ofNat.inj heq

/-- The surplus of all generators, as weights of all that they yield and receive. -/
lemma sum_surplus_eq (φ : Ty → Int) (θ : Bindings) (generators : List Generator) :
    (generators.map fun g => g.contract.surplus φ θ).sum =
      (((generators.flatMap fun g => g.contract.yields.items).map fun v => v.subst θ).map φ).sum -
        (((generators.flatMap fun g => g.contract.receives.items).map fun v =>
          v.subst θ).map φ).sum := by
  induction generators with
  | nil => rfl
  | cons g gs ih =>
    rw [List.map_cons, List.sum_cons, ih]
    simp only [List.flatMap_cons, List.map_append, List.sum_append, Contract.surplus, Ty.weight,
      List.map_map, Function.comp_def]
    omega

/-- Values are conserved. If finite generators with first-order contracts and without exclusions are
composed under bindings to ground first-order values, then, with the bindings of the solution
substituted, all that the generators yield together with what the solution still receives is, up to
order, all that the generators receive together with what the solution yields. -/
theorem solve_conserves_values (options : Options) (generators : List Generator)
    (bindings : Bindings) (hfinite : ∀ g ∈ generators, g.infinite = false)
    (hsides : ∀ g ∈ generators, g.contract.receives.Side ∧ g.contract.yields.Side)
    (hforbidden : ∀ g ∈ generators, g.contract.forbidden = [])
    (hbindings : ∀ x t, bindings.find? x = some t → t.FirstOrder ∧ t.isGround = true)
    (solution : Solution) (hsolution : solve options generators bindings = .ok solution) :
    Multiset.ofList ((generators.flatMap fun g => g.contract.yields.items).map fun v =>
        v.subst solution.bindings) + Multiset.ofList solution.contract.receives.items =
      Multiset.ofList ((generators.flatMap fun g => g.contract.receives.items).map fun v =>
        v.subst solution.bindings) + Multiset.ofList solution.contract.yields.items := by
  have hcontracts : ∀ g ∈ generators, g.contract.Steadfast := by
    intro g hg
    obtain ⟨hreceives, hyields⟩ := hsides g hg
    exact ⟨⟨hreceives, hyields⟩, hforbidden g hg⟩
  have hdata : bindings.Data := by
    intro x t ht
    obtain ⟨hfirstOrder, hground⟩ := hbindings x t ht
    exact ⟨hfirstOrder, hground⟩
  obtain ⟨actions, final, hpath, -, hending, hfinal⟩ := Run.exists_path_of_solve_eq_ok hsolution
  obtain ⟨hrun, hbalance⟩ :=
    (Run.FirstOrder.start hfinite hcontracts hdata).balance_of_path hpath
  rw [Multiset.coe_add, Multiset.coe_add]
  refine Ty.ofList_eq_of_forall_sum_eq fun φ => ?_
  have hkept := hbalance φ final.bindings (Bindings.ExtendedBy.refl _)
  rw [hrun.balance_of_ending hending, Run.FirstOrder.balance_start bindings hcontracts,
    sum_surplus_eq, ← hfinal] at hkept
  rw [List.map_append, List.map_append, List.sum_append, List.sum_append]
  omega

/-- A source yields a pair and a constant. A relay takes the pair apart under a condition, and then
waits for something else; so the constant is emitted, and the rest of the relay remains. -/
theorem solve_conserves_values_relay :
    let source : Generator :=
      { name := "source"
        contract := Contract.of .void (.seq [.tuple [.const "A", .const "B"], .const "C"]) }
    let relay : Generator :=
      { name := "relay"
        contract := (Contract.of (.seq [.tuple [.var "x", .const "B"], .const "Z"])
          (.seq [.var "x", .var "y"])).withCondition (.inherits "x" "A") }
    let given : Bindings := NameTable.ofList [("y", .const "D")]
    ∃ solution, solve {} [source, relay] given = .ok solution ∧
      solution.contract.text = "[Z; (C, A, D)] where x: A" ∧
      Multiset.ofList (([source, relay].flatMap fun g => g.contract.yields.items).map fun v =>
          v.subst solution.bindings) + Multiset.ofList solution.contract.receives.items =
        Multiset.ofList (([source, relay].flatMap fun g => g.contract.receives.items).map fun v =>
          v.subst solution.bindings) + Multiset.ofList solution.contract.yields.items := by
  intro source relay given
  have hpair : ∀ {first second : Ty}, first.FirstOrder → second.FirstOrder →
      (Ty.seq [first, second]).Side := by
    intro first second hfirst hsecond
    refine .seq (Nat.le_refl 2) (List.forall_mem_cons.2 ⟨hfirst, ?_⟩)
    exact List.forall_mem_singleton.2 hsecond
  have htuple : ∀ {first second : Ty}, first.FirstOrder → second.FirstOrder →
      (Ty.tuple [first, second]).FirstOrder := by
    intro first second hfirst hsecond
    exact .tuple (List.forall_mem_cons.2 ⟨hfirst, List.forall_mem_singleton.2 hsecond⟩)
  have hfinite : ∀ g ∈ [source, relay], g.infinite = false := by decide
  have hsides : ∀ g ∈ [source, relay], g.contract.receives.Side ∧ g.contract.yields.Side := by
    refine List.forall_mem_cons.2 ⟨⟨.void, ?_⟩, List.forall_mem_singleton.2 ⟨?_, ?_⟩⟩
    · exact hpair (htuple (.const "A") (.const "B")) (.const "C")
    · exact hpair (htuple (.var "x") (.const "B")) (.const "Z")
    · exact hpair (.var "x") (.var "y")
  have hforbidden : ∀ g ∈ [source, relay], g.contract.forbidden = [] :=
    List.forall_mem_cons.2 ⟨rfl, List.forall_mem_singleton.2 rfl⟩
  have hbindings : ∀ x t, given.find? x = some t → t.FirstOrder ∧ t.isGround = true :=
    NameTable.forall_find?_iff.2 (List.forall_mem_singleton.2 ⟨.const "D", rfl⟩)
  have hcomputed : (solve {} [source, relay] given).toOption.map (fun s => s.contract.text) =
      some "[Z; (C, A, D)] where x: A" := by decide +kernel
  obtain ⟨solution, hok, htext⟩ := exists_of_toOption_eq_some hcomputed
  exact ⟨solution, hok, htext, solve_conserves_values {} [source, relay] given hfinite hsides
    hforbidden hbindings solution hok⟩

end ContractComposition
