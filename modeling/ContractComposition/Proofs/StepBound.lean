import ContractComposition.Proofs.Readiness
import ContractComposition.Proofs.Run.Totals

/-!
# Finite runs come to an end

A run of finite first-order generators takes at most as many steps as there are generators, times
the number of values that they yield. An exchange or an emission uses up a value. An absorption only
moves it to another seat, but always to a later one: among the seats that can yield, the first one
yields, and since every seat with nothing left to receive can yield, there is no absorber in front
of it (`Run.number_lt_of_absorb`). So a value is moved at most once for each seat.

To count this, let a value that is still to be yielded weigh as much as there are places from its
seat on (`Run.potential`). Every step takes away at least one from the weight of all values
(`Run.Staged.exists_moves`).
-/

namespace ContractComposition

/-- Generators pass the check if their contracts do. -/
lemma checkGenerators_eq_ok {bindings : Bindings} {generators : List Generator}
    (h : ∀ g ∈ generators, g.contract.check bindings = .ok ()) :
    checkGenerators bindings generators = .ok () := by
  induction generators with
  | nil => rfl
  | cons g gs ih =>
    obtain ⟨hg, hgs⟩ := List.forall_mem_cons.1 h
    rw [checkGenerators, hg]
    exact ih hgs

/-- The step budget has not run out if the run has come to its end. -/
lemma solve_ne_stepLimit {options : Options} {generators : List Generator} {bindings : Bindings}
    {final : Run} (hcheck : ∀ g ∈ generators, g.contract.check bindings = .ok ())
    (hsettle : (Run.start generators bindings).settle options = .ok final) (limit : Nat)
    (recent : List String) :
    solve options generators bindings ≠ .error (.stepLimit limit recent) := by
  intro hlimit
  rw [solve, checkGenerators_eq_ok hcheck, hsettle] at hlimit
  dsimp only at hlimit
  rw [Run.result] at hlimit
  split at hlimit
  · cases hlimit
  · cases hlimit

namespace Run

variable {run next first : Run} {options : Options}

/-! ### Values are absorbed by later seats -/

/-- Offers are made in the order of the seats. -/
lemma pairwise_offers (hrun : Numbered run) :
    run.offers.Pairwise fun offer later => offer.seat.number < later.seat.number := by
  have hlive : run.live.Pairwise fun seat later => seat.number < later.number :=
    List.pairwise_map.1 hrun.ascending
  refine List.pairwise_filterMap.2 (hlive.imp fun {seat later} hlt offer hoffer other hother => ?_)
  obtain ⟨-, -, rfl⟩ := Option.map_eq_some_iff.1 hoffer
  obtain ⟨-, -, rfl⟩ := Option.map_eq_some_iff.1 hother
  exact hlt

/-- An absorption is chosen among the absorptions that are possible. -/
lemma findAbsorb?_of_nextAction? {hierarchy : Hierarchy} {offer : Offer} {absorber : Seat}
    (h : run.nextAction? hierarchy = some (.absorb offer absorber)) :
    run.findAbsorb? run.offers = some (.absorb offer absorber) := by
  rw [nextAction?] at h
  rcases Option.or_eq_some_iff.1 h with hexchange | ⟨-, h⟩
  · obtain ⟨_, _, hseats⟩ := List.exists_of_findSome?_eq_some hexchange
    obtain ⟨_, _, hseat⟩ := List.exists_of_findSome?_eq_some hseats
    split at hseat
    · cases hseat
    · obtain ⟨_, _, heq⟩ := Option.map_eq_some_iff.1 hseat
      cases heq
  rcases Option.or_eq_some_iff.1 h with hspawn | ⟨-, h⟩
  · obtain ⟨_, _, hoffer⟩ := List.exists_of_findSome?_eq_some hspawn
    obtain ⟨_, _, heq⟩ := Option.map_eq_some_iff.1 hoffer
    cases heq
  rcases Option.or_eq_some_iff.1 h with habsorb | ⟨-, hemit⟩
  · exact habsorb
  · obtain ⟨_, _, heq⟩ := Option.map_eq_some_iff.1 hemit
    cases heq

/-- If every seat with nothing left to receive can yield, a value is absorbed by a seat behind the
one that yields it. -/
theorem number_lt_of_absorb (hrun : Numbered run)
    (hproduce : ∀ seat ∈ run.live, seat.current.receives = .void →
      ∃ yielded, seat.current.produce? run.bindings = some yielded)
    (hbounded : ∀ seat ∈ run.live, run.isUnbounded seat = false)
    (hfinite : ForallSeats (fun _ g _ => g.infinite = false) run) {hierarchy : Hierarchy}
    {offer : Offer} {absorber : Seat}
    (haction : run.nextAction? hierarchy = some (.absorb offer absorber)) :
    offer.seat.number < absorber.number := by
  obtain ⟨hoffer, -, habsorber, hcan⟩ := allows_of_nextAction? haction
  simp only [canAbsorb, Bool.and_eq_true, bne_iff_ne] at hcan
  obtain ⟨⟨⟨hne, hvoid⟩, -⟩, -⟩ := hcan
  by_contra hnot
  have hlt : absorber.number < offer.seat.number := by omega
  -- The absorber could yield as well, and its turn would have come first.
  obtain ⟨yielded, hyielded⟩ := hproduce absorber habsorber (Ty.isVoid_iff.1 hvoid)
  have hearlier : Offer.mk absorber yielded ∈ run.offers := mem_offers.2 ⟨habsorber, hyielded⟩
  obtain ⟨earlier, chosen, later, hoffers, hchosen, hskipped⟩ :=
    List.findSome?_eq_some_iff.1 (findAbsorb?_of_nextAction? haction)
  have hsame : chosen = offer := by
    split at hchosen
    · cases hchosen
    · obtain ⟨_, _, heq⟩ := Option.map_eq_some_iff.1 hchosen
      exact (Action.absorb.inj heq).1
  subst hsame
  have hmem : Offer.mk absorber yielded ∈ earlier := by
    have hascending := pairwise_offers hrun
    rw [hoffers, List.pairwise_append, List.pairwise_cons] at hascending
    rw [hoffers, List.mem_append, List.mem_cons] at hearlier
    rcases hearlier with hmem | heq | hmem
    · exact hmem
    · rw [← heq] at hlt
      exact absurd hlt (Nat.lt_irrefl _)
    · have hbehind : chosen.seat.number < absorber.number := hascending.2.1.1 _ hmem
      omega
  -- Then the seat that yields would be there to absorb its value.
  have hseat : chosen.seat ∈ run.live := (mem_offers.1 hoffer).1
  have hyielder : run.canAbsorb absorber.number chosen.seat = true := by
    have hempty : chosen.seat.current.receives = .void := receives_eq_void_of_mem_offers hoffer
    simp only [canAbsorb, Bool.and_eq_true, bne_iff_ne, hempty, hfinite _ hseat,
      hbounded _ hseat]
    exact ⟨⟨⟨hne.symm, rfl⟩, rfl⟩, rfl⟩
  have hnone := hskipped _ hmem
  rw [if_neg (by simp [hbounded _ habsorber]), Option.map_eq_none_iff] at hnone
  exact List.find?_eq_none.1 hnone _ hseat hyielder

lemma Ready.number_lt_of_absorb (h : run.Ready)
    (hfinite : ForallSeats (fun _ g _ => g.infinite = false) run) {hierarchy : Hierarchy}
    {offer : Offer} {absorber : Seat}
    (haction : run.nextAction? hierarchy = some (.absorb offer absorber)) :
    offer.seat.number < absorber.number :=
  Run.number_lt_of_absorb h.numbered (fun _ => h.exists_produce?)
    (fun _ => h.isUnbounded_eq_false) hfinite haction

/-! ### The weight of what is left to be yielded -/

/-- The number of values that are left to be yielded on a seat, each counted once for each of the
places from the seat on, of which there are `places` in all. -/
def load (places : Nat) (seat : Seat) : Int :=
  ((places - seat.number) * seat.current.yields.items.length : Nat)

/-- The weight of all values that are left to be yielded. -/
def potential (places : Nat) (run : Run) : Int :=
  run.sumSeats (load places)

lemma potential_eq (places : Nat) (run : Run) :
    run.potential places = run.sumSeats (weigh places fun c => c.yields.items.length) := rfl

lemma potential_nonneg (places : Nat) (run : Run) : 0 ≤ run.potential places := by
  rw [potential_eq]
  exact sumSeats_weigh_nonneg places _ run

/-- Substituting bindings does not add values. -/
lemma length_items_subst_le {c : Contract} (hc : c.FirstOrder) {b : Bindings} (hb : b.Data) :
    (c.subst b).yields.items.length ≤ c.yields.items.length := by
  rcases c.subst_sides b with ⟨-, hyields⟩ | ⟨-, hyields⟩
  · rw [hyields]
    exact Nat.zero_le _
  · rw [hyields, hc.yields.items_subst hb.firstOrder, List.length_map]

/-- Yielding takes one value away. -/
lemma length_items_successor (h : run.Poised) {offer : Offer} (hoffer : offer ∈ run.offers) :
    offer.yielded.successor.yields.items.length < offer.seat.current.yields.items.length := by
  obtain ⟨hseat, hyielded⟩ := mem_offers.1 hoffer
  obtain ⟨-, -, v, vs, hvs, hyields, -, hsuccessor⟩ :=
    (h.seats _ hseat).firstOrder.produce? h.obeys.bindings hyielded
  have hrest := Ty.forall_firstOrder_subst h.obeys.bindings.firstOrder
    (List.forall_mem_cons.1 hvs).2
  rw [hsuccessor, hyields, Ty.items_ofMembers hrest, Ty.items_ofMembers hvs, List.length_map]
  exact Nat.lt_succ_self _

/-! ### Every step takes something away -/

/-- The seat has one of the given number of places, and its generator is finite. -/
def Placed (places : Nat) (number : Nat) (g : Generator) (_ : Contract) : Prop :=
  number < places ∧ g.infinite = false

/-- A run of finite generators that is ready, on a given number of places. -/
structure Staged (places : Nat) (run : Run) : Prop extends Ready run where
  placed : ForallSeats (Placed places) run

variable {places : Nat}

lemma placed_put (h : ForallSeats (Placed places) run) (number : Nat) (contract : Contract) :
    ForallSeats (Placed places) (run.put number contract) :=
  h.put fun _ _ hseat => hseat

lemma placed_wrapUp (h : ForallSeats (Placed places) run) (before : Bindings)
    (numbers : List Nat) : ForallSeats (Placed places) (run.wrapUp before numbers) :=
  h.wrapUp (fun _ _ _ hseat => hseat) (fun _ _ _ _ _ _ hseat _ _ => hseat) before numbers

/-- The end of a step adds nothing. -/
lemma potential_wrapUp_le (h : run.Poised) (hplaced : ForallSeats (Placed places) run)
    (before : Bindings) (numbers : List Nat) :
    (run.wrapUp before numbers).potential places ≤ run.potential places := by
  have hseats : ForallSeats (Transient Contract.FirstOrder) run := by
    intro seat hseat
    exact ⟨(hplaced seat hseat).2, (h.seats seat hseat).firstOrder⟩
  rw [potential_eq, potential_eq]
  refine sumSeats_wrapUp_le (fun seat _ _ => weigh_nonneg places _ seat) (fun seat hc => ?_)
    h.numbered hseats before numbers
  refine ⟨hc.subst h.obeys.bindings.firstOrder, Int.ofNat_le.2 (Nat.mul_le_mul_left _ ?_)⟩
  exact length_items_subst_le hc h.obeys.bindings

namespace Staged

lemma finite (h : run.Staged places) : ForallSeats (fun _ g _ => g.infinite = false) run :=
  h.placed.mono fun _ _ _ hseat => hseat.2

/-- An exchange uses up a value, and what the receiver has to yield does not get more. -/
lemma potential_exchanged_lt (h : run.Staged places) {offer : Offer} {receiver : Seat}
    {received : Received} {hierarchy : Hierarchy}
    (hallows : run.Allows hierarchy (.exchange offer receiver received)) :
    (run.exchanged offer receiver received).potential places < run.potential places := by
  have hdata : received.bindings.Data := (h.exchanged hallows).obeys.bindings
  obtain ⟨hoffer, hreceiver, hne, hreceived⟩ := hallows
  have hseat : offer.seat ∈ run.live := (mem_offers.1 hoffer).1
  have hvalue : offer.value.Datum := (h.obeys.of_mem_offers Contract.law_firstOrder hoffer).1
  have hsuccessor : received.successor.FirstOrder := (Contract.law_firstOrder.accept
    h.obeys.bindings (h.seats receiver hreceiver).firstOrder hvalue hreceived).1
  have hresumed := length_items_subst_le hsuccessor hdata
  obtain ⟨_, _, _, _, _, _, _, _, heq⟩ := Contract.accept?_eq_some_iff.1 hreceived
  have hkept : received.successor.yields = receiver.current.yields := by rw [heq]
  rw [hkept] at hresumed
  rw [potential_eq, potential_eq]
  exact sumSeats_weigh_move_lt h.numbered hseat hreceiver hne (h.placed _ hseat).1
    (length_items_successor h.toPoised hoffer) (.inl hresumed)

/-- An absorption moves a value to a later seat, where it weighs less. -/
lemma potential_absorbed_lt (h : run.Staged places) {offer : Offer} {absorber : Seat}
    {hierarchy : Hierarchy} (haction : run.nextAction? hierarchy = some (.absorb offer absorber)) :
    (run.absorbed offer absorber).potential places < run.potential places := by
  have hlater : offer.seat.number < absorber.number := h.number_lt_of_absorb h.finite haction
  obtain ⟨hoffer, -, habsorber, -⟩ := allows_of_nextAction? haction
  have hseat : offer.seat ∈ run.live := (mem_offers.1 hoffer).1
  have hvalue : offer.value.Datum := (h.obeys.of_mem_offers Contract.law_firstOrder hoffer).1
  have hlength : (absorber.current.appendYield offer.value).yields.items.length =
      absorber.current.yields.items.length + 1 := by
    rw [(h.seats absorber habsorber).firstOrder.items_appendYield hvalue, List.length_append,
      List.length_singleton]
  rw [potential_eq, potential_eq]
  exact sumSeats_weigh_move_lt h.numbered hseat habsorber (Nat.ne_of_gt hlater)
    (h.placed _ hseat).1 (length_items_successor h.toPoised hoffer)
    (.inr ⟨Nat.le_of_eq hlength, hlater⟩)

/-- A value that is handed to the outside is used up. -/
lemma potential_handedOut_lt (h : run.Staged places) {offer : Offer}
    (hoffer : offer ∈ run.offers) :
    (run.handedOut offer).potential places < run.potential places := by
  have hseat : offer.seat ∈ run.live := (mem_offers.1 hoffer).1
  rw [potential_eq, potential_eq]
  exact sumSeats_weigh_take_lt h.numbered hseat (h.placed _ hseat).1
    (length_items_successor h.toPoised hoffer)

/-- The action that is chosen can be carried out as one step, without a nested run. If the budget
allows it, the run goes on with less weight. -/
theorem exists_moves (h : run.Staged places) {action : Action} {hierarchy : Hierarchy}
    (haction : run.nextAction? hierarchy = some action)
    (compose : Ty → Run → Except Halt Run) :
    ∃ moved numbers, run.Moves compose moved numbers action ∧ moved.steps = run.steps + 1 ∧
      ForallSeats (Placed places) (moved.wrapUp run.bindings numbers) ∧
      (moved.wrapUp run.bindings numbers).potential places < run.potential places := by
  have hallows := allows_of_nextAction? haction
  cases action with
  | exchange offer receiver received =>
    have hplaced : ForallSeats (Placed places) (run.exchanged offer receiver received) :=
      placed_put (placed_put h.placed _ _) _ _
    have hless := h.potential_exchanged_lt hallows
    refine ⟨_, _, ⟨rfl, rfl⟩, rfl, placed_wrapUp hplaced _ _, ?_⟩
    exact Int.lt_of_le_of_lt (potential_wrapUp_le (h.exchanged hallows) hplaced _ _) hless
  | spawn offer contracts => exact absurd hallows h.not_spawn
  | absorb offer absorber =>
    have hplaced : ForallSeats (Placed places) (run.absorbed offer absorber) :=
      placed_put (placed_put h.placed _ _) _ _
    have hless := h.potential_absorbed_lt haction
    refine ⟨_, _, ⟨rfl, rfl⟩, rfl, placed_wrapUp hplaced _ _, ?_⟩
    exact Int.lt_of_le_of_lt (potential_wrapUp_le (h.absorbed hallows) hplaced _ _) hless
  | emit offer =>
    have hplaced : ForallSeats (Placed places) (run.handedOut offer) := placed_put h.placed _ _
    have hless := h.potential_handedOut_lt hallows.1
    refine ⟨_, _, ⟨rfl, rfl⟩, rfl, placed_wrapUp hplaced _ _, ?_⟩
    exact Int.lt_of_le_of_lt (potential_wrapUp_le (h.handedOut hallows) hplaced _ _) hless

/-- A step counts one and takes away some weight. -/
theorem of_steps (h : run.Staged places) {action : Action} (hstep : run.Steps options action next) :
    next.Staged places ∧ next.steps = run.steps + 1 ∧
      next.potential places < run.potential places := by
  have hready : next.Ready := h.toReady.of_steps hstep
  obtain ⟨haction, depth, hcommit⟩ := hstep
  obtain ⟨moved, numbers, hmoves, -, rfl⟩ := commit_eq_ok_iff.1 hcommit
  obtain ⟨moved', numbers', hmoves', hsteps, hplaced, hless⟩ :=
    h.exists_moves haction fun _ => settleWithin options depth
  obtain ⟨rfl, rfl⟩ := hmoves.unique hmoves'
  refine ⟨⟨hready, hplaced⟩, ?_, hless⟩
  rw [(moved.reseats_wrapUp _ _).steps]
  exact hsteps

lemma of_reachable (h : first.Staged places) (hrun : Reachable options first run) :
    run.Staged places := by
  induction hrun with
  | start => exact h
  | step _ hstep ih => exact (ih.of_steps hstep).1
  | nest _ haction _ ih => exact absurd (allows_of_nextAction? haction) ih.not_spawn

/-- A path counts its actions, and they take away at least one unit of weight each. -/
theorem steps_of_path (h : first.Staged places) {actions : List Action}
    (hpath : Path options first actions run) :
    run.steps = first.steps + actions.length ∧
      run.potential places + actions.length ≤ first.potential places := by
  induction hpath with
  | start => exact ⟨rfl, by simp⟩
  | step hpath hstep ih =>
    obtain ⟨-, hsteps, hless⟩ := (h.of_reachable hpath.reachable).of_steps hstep
    obtain ⟨hbefore, hweight⟩ := ih
    rw [List.length_append, List.length_singleton]
    constructor
    · omega
    · push_cast
      omega

/-- A run whose weight is within the budget comes to its end. -/
theorem exists_drive (options : Options) (depth : Ty → Nat) (fuel : Nat) (h : run.Staged places)
    (hfuel : run.potential places < fuel)
    (hbudget : run.steps + run.potential places ≤ options.stepBudget) :
    ∃ final, run.drive options (fun value => settleWithin options (depth value)) fuel =
      .ok final := by
  have hnonneg := potential_nonneg places run
  refine exists_drive_of_moves (p := Staged places) (μ := fun current =>
    (current.potential places).toNat) (fun {current action} hcurrent haction => ?_) h (by omega)
    (by omega)
  obtain ⟨moved, numbers, hmoves, hsteps, -, hless⟩ :=
    hcurrent.exists_moves haction fun value => settleWithin options (depth value)
  have hleft := potential_nonneg places (moved.wrapUp current.bindings numbers)
  refine ⟨moved, numbers, hmoves, hsteps, by omega, fun hcommit => ?_⟩
  have hstep : current.Steps options action (moved.wrapUp current.bindings numbers) := by
    refine ⟨haction, depth action.offer.value, ?_⟩
    rw [← hcommit]
    exact commit_congr rfl
  exact (hcurrent.of_steps hstep).1

end Staged

/-! ### Beginnings -/

/-- At the beginning there are as many places as generators. -/
lemma placed_start {generators : List Generator} {bindings : Bindings}
    (hfinite : ∀ g ∈ generators, g.infinite = false) :
    ForallSeats (Placed generators.length) (Run.start generators bindings) := by
  have hbegins := begins_start generators bindings
  have hgenerators : ForallSeats (fun _ g _ => g.infinite = false)
      (Run.start generators bindings) := hbegins.forallSeats fun g hg _ _ => hfinite g hg
  have hnumbers : (Run.start generators bindings).nextNumber ≤ generators.length := by
    have hle := joinAll_nextNumber_le
      { bindings := bindings, external := bindings.names } generators
    rwa [Nat.zero_add] at hle
  intro seat hseat
  exact ⟨Nat.lt_of_lt_of_le (hbegins.numbered.bound seat hseat) hnumbers, hgenerators seat hseat⟩

lemma Staged.start {generators : List Generator} {bindings : Bindings}
    (hfinite : ∀ g ∈ generators, g.infinite = false)
    (hcontracts : ∀ g ∈ generators, g.contract.FirstOrder)
    (hcheck : ∀ g ∈ generators, g.contract.check bindings = .ok ()) (hbindings : bindings.Data) :
    (Run.start generators bindings).Staged generators.length := by
  have hready : (Run.start generators bindings).Ready := by
    refine Ready.start hcontracts hcheck (fun g hg hinfinite => ?_) hbindings
    rw [hfinite g hg] at hinfinite
    cases hinfinite
  exact ⟨hready, placed_start hfinite⟩

lemma sum_natCast_mul (k : Nat) (lengths : List Nat) :
    (lengths.map fun length => ((k * length : Nat) : Int)).sum = (k * lengths.sum : Nat) := by
  induction lengths with
  | nil => rfl
  | cons length lengths ih =>
    rw [List.map_cons, List.sum_cons, List.sum_cons, ih, Nat.mul_add]
    omega

/-- At the beginning, every value weighs at most as much as there are places. -/
lemma potential_start_le (places : Nat) (generators : List Generator) (bindings : Bindings) :
    (Run.start generators bindings).potential places ≤
      (places * (generators.map fun g => g.contract.yields.items.length).sum : Nat) := by
  have hsum : (Run.start generators bindings).sumSeats (load places) ≤
      ({ bindings := bindings, external := bindings.names } : Run).sumSeats (load places) +
        (generators.map fun g => ((places * g.contract.yields.items.length : Nat) : Int)).sum := by
    refine sumSeats_joinAll_le (fun g _ _ => Int.natCast_nonneg _) fun g _ number => ?_
    exact Int.ofNat_le.2 (Nat.mul_le_mul_right _ (Nat.sub_le _ _))
  have hempty : ({ bindings := bindings, external := bindings.names } : Run).sumSeats
      (load places) = 0 := rfl
  have hcast := sum_natCast_mul places (generators.map fun g => g.contract.yields.items.length)
  rw [List.map_map] at hcast
  rw [hempty, Int.zero_add] at hsum
  exact hsum.trans (Int.le_of_eq hcast)

end Run

/-- Finite first-order compositions come to an end. Let finite generators with first-order sides
pass their check under bindings to ground first-order values; conditions and exclusions do not
matter. A value is always absorbed by a seat behind the one that yields it. The steps of the run are
its actions, and there are at most as many as there are generators, times the number of values that
they yield. So the step budget does not run out if it allows as many. -/
theorem finite_run_comes_to_an_end (generators : List Generator) (bindings : Bindings)
    (hfinite : ∀ g ∈ generators, g.infinite = false)
    (hsides : ∀ g ∈ generators, g.contract.receives.Side ∧ g.contract.yields.Side)
    (hcheck : ∀ g ∈ generators, g.contract.check bindings = .ok ())
    (hbindings : ∀ x t, bindings.find? x = some t → t.FirstOrder ∧ t.isGround = true) :
    (∀ options run offer absorber,
      Run.Reachable options (Run.start generators bindings) run →
      run.nextAction? options.hierarchy = some (.absorb offer absorber) →
      offer.seat.number < absorber.number) ∧
    (∀ options actions run,
      Run.Path options (Run.start generators bindings) actions run →
      run.steps = actions.length ∧ run.steps ≤
        generators.length * (generators.map fun g => g.contract.yields.items.length).sum) ∧
    ∀ options : Options,
      generators.length * (generators.map fun g => g.contract.yields.items.length).sum ≤
        options.stepBudget →
      ∀ limit recent, solve options generators bindings ≠ .error (.stepLimit limit recent) := by
  have hcontracts : ∀ g ∈ generators, g.contract.FirstOrder :=
    fun g hg => Contract.firstOrder_iff.2 (hsides g hg)
  have hdata : bindings.Data := Bindings.data_iff.2 hbindings
  have hstaged := Run.Staged.start hfinite hcontracts hcheck hdata
  have hzero : (Run.start generators bindings).steps = 0 :=
    (Run.start_records generators bindings).1
  have hweight := Run.potential_start_le generators.length generators bindings
  refine ⟨fun options run offer absorber hrun haction => ?_,
    fun options actions run hpath => ?_, fun options hbudget limit recent => ?_⟩
  · have hrunStaged := hstaged.of_reachable hrun
    exact hrunStaged.number_lt_of_absorb hrunStaged.finite haction
  · obtain ⟨hsteps, hless⟩ := hstaged.steps_of_path hpath
    have hnonneg := Run.potential_nonneg generators.length run
    rw [hzero, Nat.zero_add] at hsteps
    refine ⟨hsteps, ?_⟩
    omega
  · have hrounds : (Run.start generators bindings).rounds options = options.stepBudget + 1 := by
      rw [Run.rounds, hzero]
      rfl
    obtain ⟨final, hfinal⟩ := Run.Staged.exists_drive options Ty.nesting (options.stepBudget + 1)
      hstaged (by omega) (by omega)
    have hsettle : (Run.start generators bindings).settle options = .ok final := by
      rw [Run.settle, hrounds]
      exact hfinal
    exact solve_ne_stepLimit hcheck hsettle limit recent

/-- Three generators yield four values, so that twelve steps are enough. The first one hands a value
to the second one, which is behind it, and another value to the third one, which has been waiting
for it. The second one then hands all it has to the third one, and only this one emits. -/
theorem finite_run_comes_to_an_end_relay :
    let generators : List Generator :=
      [{ name := "first", contract := Contract.of .void (.seq [.const "A", .const "B"]) },
        { name := "second", contract := Contract.of .void (.const "C") },
        { name := "third"
          contract := (Contract.of (.const "B") (.var "x")).withForbidden
            [⟨[.var "x"], [[.const "F"]]⟩] }]
    let given : Bindings := NameTable.ofList [("x", .const "E")]
    (∃ offer absorber, (Run.start generators given).nextAction? ∅ = some (.absorb offer absorber) ∧
      offer.seat.number < absorber.number) ∧
    (∀ limit recent, solve { stepBudget := 12 } generators given ≠
      .error (.stepLimit limit recent)) ∧
    ∃ solution, solve { stepBudget := 12 } generators given = .ok solution ∧
      solution.contract.text = "[Void; (E, C, A)]" ∧ solution.steps = 7 ∧ solution.steps ≤ 12 := by
  intro generators given
  have hfinite : ∀ g ∈ generators, g.infinite = false := by decide
  have hsides : ∀ g ∈ generators, g.contract.receives.Side ∧ g.contract.yields.Side := by
    refine List.forall_mem_cons.2 ⟨⟨.void, ?_⟩, List.forall_mem_cons.2 ⟨⟨.void, ?_⟩,
      List.forall_mem_singleton.2 ⟨.value (.const "B"), .value (.var "x")⟩⟩⟩
    · exact .seq (Nat.le_refl 2)
        (List.forall_mem_cons.2 ⟨.const "A", List.forall_mem_singleton.2 (.const "B")⟩)
    · exact .value (.const "C")
  have hcheck : ∀ g ∈ generators, g.contract.check given = .ok () := by decide +kernel
  have hbindings : ∀ x t, given.find? x = some t → t.FirstOrder ∧ t.isGround = true :=
    NameTable.forall_find?_iff.2 (List.forall_mem_singleton.2 ⟨.const "E", rfl⟩)
  obtain ⟨hlater, hbounded, hfinished⟩ :=
    finite_run_comes_to_an_end generators given hfinite hsides hcheck hbindings
  refine ⟨?_, hfinished { stepBudget := 12 } (by decide), ?_⟩
  · have hexchange : (Run.start generators given).findExchange? ∅
        (Run.start generators given).offers = none :=
      Option.isNone_iff_eq_none.1 (by decide +kernel)
    have hspawn : Run.findSpawn? (Run.start generators given).offers = none :=
      Option.isNone_iff_eq_none.1 (by decide +kernel)
    obtain ⟨action, habsorb⟩ : ∃ action, (Run.start generators given).findAbsorb?
        (Run.start generators given).offers = some action :=
      Option.isSome_iff_exists.1 (by decide +kernel)
    obtain ⟨offer, -, hoffer⟩ := List.exists_of_findSome?_eq_some habsorb
    split at hoffer
    · cases hoffer
    · obtain ⟨absorber, -, rfl⟩ := Option.map_eq_some_iff.1 hoffer
      have haction : (Run.start generators given).nextAction? ∅ =
          some (.absorb offer absorber) := by
        rw [Run.nextAction?, hexchange, hspawn, habsorb]
        rfl
      exact ⟨offer, absorber, haction, hlater {} _ offer absorber .start haction⟩
  · have hcomputed : (solve { stepBudget := 12 } generators given).toOption.map
        (fun s => (s.contract.text, s.steps)) = some ("[Void; (E, C, A)]", 7) := by
      decide +kernel
    obtain ⟨solution, hok, hfacts⟩ := exists_of_toOption_eq_some hcomputed
    obtain ⟨htext, hsteps⟩ := Prod.mk.inj hfacts
    obtain ⟨final, hsettle, -, -, -, hcount⟩ := Run.exists_settle_of_solve_eq_ok hok
    obtain ⟨⟨actions, hpath⟩, -⟩ := Run.exists_path_of_settle hsettle
    refine ⟨solution, hok, htext, hsteps, ?_⟩
    rw [hcount]
    exact (hbounded _ actions final hpath).2

end ContractComposition
