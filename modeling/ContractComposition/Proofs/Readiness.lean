import ContractComposition.Proofs.Binding
import ContractComposition.Proofs.Exclusions
import ContractComposition.Proofs.Run.Moves

/-!
# Runs stop only when everybody waits

In a run of first-order generators that pass their check, a seat with nothing left to receive can
always yield. So the run goes on as long as there is such a seat, and when it stops, all seats that
are left are waiting for something to receive.

The invariant has two parts. What a seat yields is bound by what it receives or by the bindings of
the run, and the same is true of the copies from which an infinite generator starts over
(`Run.Supplied`). And no seat is finished (`Run.Ready`). In the middle of a step there may be
finished seats (`Run.Poised`). The step retires those that it has touched; if it has bound
variables, it looks at all seats, because exclusions that are violated by then finish seats that
were not touched.

At the end of a run it matters, in addition, that no seat has exclusions that are violated, since
the result would collapse (`Run.Calm`).
-/

namespace ContractComposition

namespace Run

variable {run next first : Run} {options : Options}

/-! ### When there is nothing to do -/

/-- A step finds nothing to do if no action can be chosen. -/
lemma step_eq_none_iff {compose : Ty → Run → Except Halt Run} :
    run.step options compose = .ok none ↔ run.nextAction? options.hierarchy = none := by
  unfold step
  cases run.nextAction? options.hierarchy with
  | none => simp
  | some action => cases hcommit : run.commit options compose action <;> simp [Except.map, hcommit]

/-- An offer of a seat that does not yield an open stream can be handed to the outside, if nothing
else is to be done. -/
lemma nextAction?_ne_none {hierarchy : Hierarchy} {offer : Offer} (hoffer : offer ∈ run.offers)
    (hbounded : run.isUnbounded offer.seat = false) : run.nextAction? hierarchy ≠ none := by
  intro hnone
  simp only [nextAction?, Option.or_eq_none_iff, findEmit?, Option.map_eq_none_iff,
    List.find?_eq_none] at hnone
  exact hnone.2.2.2 offer hoffer (by simp [hbounded])

/-- If no seat yields an open stream, an action can be chosen as soon as there is an offer. -/
lemma nextAction?_eq_none_iff {hierarchy : Hierarchy}
    (hbounded : ∀ seat ∈ run.live, run.isUnbounded seat = false) :
    run.nextAction? hierarchy = none ↔ run.offers = [] := by
  constructor
  · intro hnone
    refine List.eq_nil_iff_forall_not_mem.2 fun offer hoffer => ?_
    exact nextAction?_ne_none hoffer (hbounded _ (mem_offers.1 hoffer).1) hnone
  · intro hoffers
    rw [nextAction?, hoffers]
    rfl

/-! ### Seats that get what they need -/

/-- The contract on the seat binds what it yields, under the given bindings. If the generator is
infinite, it can start over. -/
structure Supplied (b : Bindings) (external : List String) (number : Nat) (g : Generator)
    (c : Contract) : Prop where
  firstOrder : c.FirstOrder
  binds : c.Binds fun x => b.contains x = true
  restartable : g.infinite = true → g.contract.Restartable external

section Supplied

variable {b b' : Bindings} {external : List String} {number : Nat} {g : Generator} {c : Contract}

lemma Supplied.mono (h : Supplied b external number g c) (hext : b.ExtendedBy b') :
    Supplied b' external number g c :=
  ⟨h.firstOrder, h.binds.of_extendedBy hext, h.restartable⟩

lemma Supplied.subst (hb : b.Data) (h : Supplied b external number g c) :
    Supplied b external number g (c.subst b) :=
  ⟨h.firstOrder.subst hb.firstOrder, h.binds.subst_data hb h.firstOrder, h.restartable⟩

lemma Supplied.resumable (h : Supplied b external number g c) : Resumable external g :=
  fun hinfinite k => (h.restartable hinfinite).isTerminal_freshen k

/-- A fresh copy binds what it yields, because the variables that it keeps are bound. -/
lemma survivesRestarts_supplied (hexternal : ∀ x ∈ external, b.contains x = true) :
    SurvivesRestarts (Supplied b external) external := by
  intro n g g' c c' k hgc hgc' hinfinite
  have hrestart := hgc'.restartable hinfinite
  exact ⟨hrestart.firstOrder.freshen k external,
    (hrestart.binds.freshen hrestart.firstOrder k).mono hexternal, hgc.restartable⟩

end Supplied

/-! ### The invariant -/

/-- A run of first-order contracts in which every seat gets what it needs. Some seats may be
finished and not yet retired. -/
structure Poised (run : Run) : Prop where
  obeys : run.Obeys Contract.FirstOrder Ty.Datum Bindings.Data
  numbered : run.Numbered
  external : ∀ x ∈ run.external, run.bindings.contains x = true
  seats : ForallSeats (Supplied run.bindings run.external) run

/-- A poised run in which no seat is finished. -/
structure Ready (run : Run) : Prop extends Poised run where
  unfinished : ForallSeats (fun _ _ c => c.isTerminal = false) run

namespace Poised

/-- Contracts are not yielded, so they do not start. -/
lemma not_spawn (h : run.Poised) {hierarchy : Hierarchy} {offer : Offer}
    {contracts : List Contract} : ¬run.Allows hierarchy (.spawn offer contracts) := by
  rintro ⟨hoffer, hcontracts⟩
  have hvalue : offer.value.Datum := (h.obeys.of_mem_offers Contract.law_firstOrder hoffer).1
  rw [hvalue.firstOrder.contracts?_eq_none] at hcontracts
  cases hcontracts

lemma wrapUp (h : run.Poised) (before : Bindings) (numbers : List Nat) :
    (run.wrapUp before numbers).Poised := by
  have hframe := run.reseats_wrapUp before numbers
  refine ⟨h.obeys.wrapUp Contract.law_firstOrder before numbers, h.numbered.wrapUp before numbers,
    ?_, ?_⟩
  · rw [hframe.bindings, hframe.external]
    exact h.external
  · rw [hframe.bindings, hframe.external]
    exact h.seats.wrapUp (fun _ _ _ hseat => hseat.subst h.obeys.bindings)
      (survivesRestarts_supplied h.external) before numbers

/-- At the end of a step no seat is finished, provided that all seats but those that are retired
were not finished before. -/
lemma ready_wrapUp (h : run.Poised) {numbers : List Nat}
    (hothers : ∀ seat ∈ run.live, seat.number ∉ numbers → seat.current.isTerminal = false)
    (before : Bindings) : (run.wrapUp before numbers).Ready := by
  have hwrapped := h.wrapUp before numbers
  refine ⟨hwrapped, fun seat hseat => ?_⟩
  have hresumable : Resumable run.external seat.generator := by
    rw [← (run.reseats_wrapUp before numbers).external]
    exact (hwrapped.seats seat hseat).resumable
  exact isTerminal_eq_false_of_mem_wrapUp h.numbered hothers hseat hresumable

/-- What a seat has left after yielding is supplied: there are no variables in it. -/
lemma put_successor {b : Bindings} (h : run.Poised)
    (hseats : ForallSeats (Supplied b run.external) run) {offer : Offer}
    (hoffer : offer ∈ run.offers) :
    ForallSeats (Supplied b run.external)
      (run.put offer.seat.number offer.yielded.successor) := by
  obtain ⟨hseat, hyielded⟩ := mem_offers.1 hoffer
  have hcontract : offer.seat.current.FirstOrder := (h.seats _ hseat).firstOrder
  have hsuccessor : offer.yielded.successor.FirstOrder :=
    (h.obeys.of_mem_offers Contract.law_firstOrder hoffer).2
  refine hseats.put fun g c hsupplied => ?_
  exact ⟨hsuccessor, Contract.Binds.produce? h.obeys.bindings hcontract hyielded,
    hsupplied.restartable⟩

lemma exchanged (h : run.Poised) {offer : Offer} {receiver : Seat} {received : Received}
    {hierarchy : Hierarchy} (hallows : run.Allows hierarchy (.exchange offer receiver received)) :
    (run.exchanged offer receiver received).Poised := by
  have hobeys := h.obeys.exchanged Contract.law_firstOrder hallows
  obtain ⟨hoffer, hreceiver, -, hreceived⟩ := hallows
  have hvalue : offer.value.Datum := (h.obeys.of_mem_offers Contract.law_firstOrder hoffer).1
  have hsupplied := h.seats receiver hreceiver
  obtain ⟨hdata, hext, -⟩ := hsupplied.firstOrder.accept? h.obeys.bindings hvalue hreceived
  have hsuccessor : received.successor.FirstOrder :=
    (Contract.law_firstOrder.accept h.obeys.bindings hsupplied.firstOrder hvalue hreceived).1
  have hbinds : received.successor.Binds fun x => received.bindings.contains x = true :=
    hsupplied.binds.accept? h.obeys.bindings hsupplied.firstOrder hvalue hreceived
  refine ⟨hobeys, h.numbered.exchanged _ _ _, fun x hx => ?_, ?_⟩
  · obtain ⟨t, ht⟩ := NameTable.contains_iff.1 (h.external x hx)
    exact NameTable.contains_iff.2 ⟨t, hext x t ht⟩
  · have hlater : ForallSeats (Supplied received.bindings run.external) run :=
      h.seats.mono fun _ _ _ hseat => hseat.mono hext
    refine (h.put_successor hlater hoffer).put fun g c hseat => ?_
    exact ⟨hsuccessor.subst hdata.firstOrder, hbinds.subst_data hdata hsuccessor,
      hseat.restartable⟩

lemma absorbed (h : run.Poised) {offer : Offer} {absorber : Seat} {hierarchy : Hierarchy}
    (hallows : run.Allows hierarchy (.absorb offer absorber)) :
    (run.absorbed offer absorber).Poised := by
  have hobeys := h.obeys.absorbed Contract.law_firstOrder hallows
  obtain ⟨hoffer, -, habsorber, -⟩ := hallows
  have hvalue : offer.value.Datum := (h.obeys.of_mem_offers Contract.law_firstOrder hoffer).1
  have hsupplied := h.seats absorber habsorber
  refine ⟨hobeys, h.numbered.absorbed _ _, h.external, ?_⟩
  refine (h.put_successor h.seats hoffer).put fun g c hseat => ?_
  exact ⟨Contract.law_firstOrder.append hsupplied.firstOrder hvalue,
    hsupplied.binds.appendYield hsupplied.firstOrder hvalue, hseat.restartable⟩

lemma handedOut (h : run.Poised) {offer : Offer} {hierarchy : Hierarchy}
    (hallows : run.Allows hierarchy (.emit offer)) : (run.handedOut offer).Poised :=
  ⟨h.obeys.handedOut Contract.law_firstOrder hallows, h.numbered.handedOut _, h.external,
    h.put_successor h.seats hallows.1⟩

end Poised

namespace Ready

/-- A run is ready after every step. -/
theorem of_steps (h : run.Ready) {action : Action} (hstep : run.Steps options action next) :
    next.Ready := by
  obtain ⟨haction, depth, hcommit⟩ := hstep
  have hallows := allows_of_nextAction? haction
  cases action with
  | exchange offer receiver received =>
    obtain ⟨-, rfl⟩ := exchange_eq_ok hcommit
    refine (h.exchanged hallows).ready_wrapUp (fun seat hseat hnumber => ?_) _
    obtain ⟨hoffer, hreceiver⟩ :
        seat.number ≠ offer.seat.number ∧ seat.number ≠ receiver.number := by
      simpa using hnumber
    exact h.unfinished seat (mem_of_mem_put (mem_of_mem_put hseat hreceiver) hoffer)
  | spawn offer contracts => exact absurd hallows h.not_spawn
  | absorb offer absorber =>
    obtain ⟨-, rfl⟩ := absorb_eq_ok hcommit
    refine (h.absorbed hallows).ready_wrapUp (fun seat hseat hnumber => ?_) _
    have hoffer : seat.number ≠ offer.seat.number := by simpa using hnumber
    by_cases habsorber : seat.number = absorber.number
    · have hvalue : offer.value.Datum :=
        (h.obeys.of_mem_offers Contract.law_firstOrder hallows.1).1
      rw [current_of_mem_put hseat habsorber]
      exact (h.seats absorber hallows.2.2.1).firstOrder.isTerminal_appendYield hvalue
    · exact h.unfinished seat (mem_of_mem_put (mem_of_mem_put hseat habsorber) hoffer)
  | emit offer =>
    obtain ⟨-, rfl⟩ := emit_eq_ok hcommit
    refine (h.handedOut hallows).ready_wrapUp (fun seat hseat hnumber => ?_) _
    have hoffer : seat.number ≠ offer.seat.number := by simpa using hnumber
    exact h.unfinished seat (mem_of_mem_put hseat hoffer)

/-- A run that is ready at its beginning is ready in every reachable state. -/
theorem of_reachable (h : first.Ready) (hrun : Reachable options first run) : run.Ready := by
  induction hrun with
  | start => exact h
  | step _ hstep ih => exact ih.of_steps hstep
  | nest _ haction _ ih => exact absurd (allows_of_nextAction? haction) ih.not_spawn

lemma start {generators : List Generator} {bindings : Bindings}
    (hcontracts : ∀ g ∈ generators, g.contract.FirstOrder)
    (hcheck : ∀ g ∈ generators, g.contract.check bindings = .ok ())
    (hinfinite : ∀ g ∈ generators, g.infinite = true → g.contract.forbidden = [])
    (hbindings : bindings.Data) : (Run.start generators bindings).Ready := by
  have hbegins := begins_start generators bindings
  have hexternal : (Run.start generators bindings).external = bindings.names :=
    (joinAll_frame _ generators).2.1
  refine ⟨⟨Obeys.start hbindings hcontracts, hbegins.numbered, ?_, ?_⟩, ?_⟩
  · rw [hexternal, hbegins.bindings]
    exact fun x hx => NameTable.mem_names_iff.1 hx
  · rw [hexternal, hbegins.bindings]
    refine hbegins.forallSeats fun g hg hunfinished _ => ?_
    have hbinds := Contract.check_eq_ok_iff.1 (hcheck g hg)
    refine ⟨hcontracts g hg, hbinds, fun hinf => ?_⟩
    exact ⟨hcontracts g hg, hinfinite g hg hinf, hunfinished,
      hbinds.mono fun x hx => NameTable.mem_names_iff.2 hx⟩
  · exact hbegins.forallSeats fun g _ hunfinished _ => hunfinished

/-! ### What a run that is ready can do -/

/-- A seat with nothing left to receive can yield. -/
lemma exists_produce? (h : run.Ready) {seat : Seat} (hseat : seat ∈ run.live)
    (hvoid : seat.current.receives = .void) :
    ∃ yielded, seat.current.produce? run.bindings = some yielded := by
  have hsupplied := h.seats seat hseat
  exact hsupplied.binds.exists_produce? h.obeys.bindings hsupplied.firstOrder
    (h.unfinished seat hseat) hvoid

lemma isUnbounded_eq_false (h : run.Ready) {seat : Seat} (hseat : seat ∈ run.live) :
    run.isUnbounded seat = false :=
  ((h.seats seat hseat).firstOrder.yields.subst
    h.obeys.bindings.firstOrder).isOpenStream_eq_false

/-- There is nothing to do exactly if every seat waits for something to receive. -/
theorem nextAction?_eq_none_iff (h : run.Ready) {hierarchy : Hierarchy} :
    run.nextAction? hierarchy = none ↔ ∀ seat ∈ run.live, seat.current.receives ≠ .void := by
  rw [Run.nextAction?_eq_none_iff fun seat hseat => h.isUnbounded_eq_false hseat]
  constructor
  · intro hoffers seat hseat hvoid
    obtain ⟨yielded, hyielded⟩ := h.exists_produce? hseat hvoid
    have hoffer : Offer.mk seat yielded ∈ run.offers := mem_offers.2 ⟨hseat, hyielded⟩
    rw [hoffers] at hoffer
    cases hoffer
  · intro hwaiting
    rw [List.eq_nil_iff_forall_not_mem]
    intro offer hoffer
    exact hwaiting offer.seat (mem_offers.1 hoffer).1 (receives_eq_void_of_mem_offers hoffer)

end Ready

/-! ### Exclusions that are not violated -/

/-- The table of exclusions on the seat has the property `p`. Infinite generators have no
exclusions. -/
def Tabled (p : List Exclusion → Prop) (_ : Nat) (g : Generator) (c : Contract) : Prop :=
  (g.infinite = true → g.contract.forbidden = []) ∧ p c.forbidden

/-- The exclusions of every seat are steady and not violated by the bindings. -/
def Calm (run : Run) : Prop :=
  ForallSeats (Tabled fun table => Exclusions.IsSteady table ∧
    Exclusions.violatedBy table run.bindings = false) run

/-- A generator that starts over has no exclusions. -/
lemma survivesRestarts_tabled {p : List Exclusion → Prop} (hp : p []) (external : List String) :
    SurvivesRestarts (Tabled p) external := by
  intro n g g' c c' k hgc hgc' hinfinite
  have hempty := (Contract.subst_of_forbidden_eq_nil (hgc'.1 hinfinite)
    (Bindings.suffixing g'.contract.allVars k external)).2.2
  refine ⟨hgc.1, ?_⟩
  rw [Contract.freshen, hempty]
  exact hp

/-- Substituting bindings removes violations: a contract with a violated exclusion collapses. -/
lemma calm_subst {b : Bindings} {c : Contract} (hb : b.IsPlain)
    (h : Exclusions.IsSteady c.forbidden) :
    Exclusions.IsSteady (c.subst b).forbidden ∧
      Exclusions.violatedBy (c.subst b).forbidden b = false := by
  rcases Contract.subst_cases hb h with ⟨-, hcollapsed⟩ | ⟨hviolated, -, -, hsteady, hsame⟩
  · rw [hcollapsed]
    exact ⟨List.forall_mem_nil _, rfl⟩
  · exact ⟨hsteady, (hsame b (Bindings.ExtendedBy.refl b)).trans hviolated⟩

/-- The exclusions of every seat are steady, and not violated by the bindings if these are still
those that the step began with. -/
def CalmSince (before : Bindings) (run : Run) : Prop :=
  ForallSeats (Tabled fun table => Exclusions.IsSteady table ∧
    (run.bindings = before → Exclusions.violatedBy table run.bindings = false)) run

namespace CalmSince

variable {before : Bindings}

/-- At the end of a step no exclusion is violated: either the bindings have not grown, or they are
substituted into all contracts. -/
lemma wrapUp (h : run.CalmSince before) (hplain : run.bindings.IsPlain)
    (hext : before.ExtendedBy run.bindings) (numbers : List Nat) :
    (run.wrapUp before numbers).Calm := by
  have hretired := h.retireAll
    (survivesRestarts_tabled ⟨List.forall_mem_nil _, fun _ => rfl⟩ _) numbers
  rw [Calm, (run.reseats_wrapUp before numbers).bindings]
  rcases Nat.lt_or_ge before.size run.bindings.size with hlt | hle
  · rw [wrapUp_of_lt hlt]
    refine hretired.propagate (fun n g c hseat => ⟨hseat.1, ?_⟩)
      (survivesRestarts_tabled ⟨List.forall_mem_nil _, rfl⟩ _)
    rw [(run.reseats_retireAll numbers).bindings]
    exact calm_subst hplain hseat.2.1
  · rw [wrapUp_of_le hle]
    have hsame : run.bindings = before := hext.eq_of_size_le hle
    exact hretired.mono fun n g c hseat => ⟨hseat.1, hseat.2.1, hseat.2.2 hsame⟩

end CalmSince

/-- Yielding drops the exclusions. -/
lemma tabled_put_successor {p : List Exclusion → Prop} (hp : p [])
    (h : ForallSeats (Tabled p) run) {offer : Offer} (hoffer : offer ∈ run.offers) :
    ForallSeats (Tabled p) (run.put offer.seat.number offer.yielded.successor) := by
  obtain ⟨-, hyielded⟩ := mem_offers.1 hoffer
  obtain ⟨-, -, rest, -, hsuccessor⟩ := Contract.produce?_eq_some_iff.1 hyielded
  refine h.put fun g c hseat => ⟨hseat.1, ?_⟩
  rw [hsuccessor]
  exact hp

namespace Calm

/-- In a run that is ready no exclusion is violated after a step, provided that none was violated
before. -/
theorem of_steps (h : run.Calm) (hready : run.Ready) {action : Action}
    (hstep : run.Steps options action next) : next.Calm := by
  obtain ⟨haction, depth, hcommit⟩ := hstep
  have hallows := allows_of_nextAction? haction
  have hsince : ForallSeats (Tabled fun table => Exclusions.IsSteady table ∧
      (run.bindings = run.bindings → Exclusions.violatedBy table run.bindings = false)) run :=
    h.mono fun _ _ _ hseat => ⟨hseat.1, hseat.2.1, fun _ => hseat.2.2⟩
  cases action with
  | exchange offer receiver received =>
    obtain ⟨-, rfl⟩ := exchange_eq_ok hcommit
    have hdata : received.bindings.Data := (hready.exchanged hallows).obeys.bindings
    obtain ⟨hoffer, hreceiver, -, hreceived⟩ := hallows
    obtain ⟨-, rest, found, -, -, hjoin, -, -, hsuccessor⟩ :=
      Contract.accept?_eq_some_iff.1 hreceived
    have hext : run.bindings.ExtendedBy received.bindings := Bindings.extendedBy_of_join? hjoin
    have hsteady : Exclusions.IsSteady received.successor.forbidden := by
      rw [hsuccessor]
      exact (h receiver hreceiver).2.1
    have hlater : ForallSeats (Tabled fun table => Exclusions.IsSteady table ∧
        (received.bindings = run.bindings →
          Exclusions.violatedBy table received.bindings = false)) run := by
      refine h.mono fun _ _ _ hseat => ⟨hseat.1, hseat.2.1, fun hsame => ?_⟩
      rw [hsame]
      exact hseat.2.2
    have hyielder := tabled_put_successor ⟨List.forall_mem_nil _, fun _ => rfl⟩ hlater hoffer
    have hmoved : (run.exchanged offer receiver received).CalmSince run.bindings := by
      refine hyielder.put fun g c hseat => ⟨hseat.1, ?_⟩
      obtain ⟨hresumed, hviolated⟩ := calm_subst hdata.isPlain hsteady
      exact ⟨hresumed, fun _ => hviolated⟩
    exact hmoved.wrapUp hdata.isPlain hext _
  | spawn offer contracts => exact absurd hallows hready.not_spawn
  | absorb offer absorber =>
    obtain ⟨-, rfl⟩ := absorb_eq_ok hcommit
    have hyielder := tabled_put_successor ⟨List.forall_mem_nil _, fun _ => rfl⟩ hsince hallows.1
    have hmoved : (run.absorbed offer absorber).CalmSince run.bindings :=
      hyielder.put fun g c hseat => ⟨hseat.1, (hsince absorber hallows.2.2.1).2⟩
    exact hmoved.wrapUp hready.obeys.bindings.isPlain (Bindings.ExtendedBy.refl _) _
  | emit offer =>
    obtain ⟨-, rfl⟩ := emit_eq_ok hcommit
    have hmoved : (run.handedOut offer).CalmSince run.bindings :=
      tabled_put_successor ⟨List.forall_mem_nil _, fun _ => rfl⟩ hsince hallows.1
    exact hmoved.wrapUp hready.obeys.bindings.isPlain (Bindings.ExtendedBy.refl _) _

lemma of_path (h : first.Calm) (hready : first.Ready) {actions : List Action}
    (hpath : Path options first actions run) : run.Calm := by
  induction hpath with
  | start => exact h
  | step hpath hstep ih => exact ih.of_steps (hready.of_reachable hpath.reachable) hstep

lemma start {generators : List Generator} {bindings : Bindings}
    (hinfinite : ∀ g ∈ generators, g.infinite = true → g.contract.forbidden = [])
    (hsteady : ∀ g ∈ generators, Exclusions.IsSteady g.contract.forbidden)
    (hviolated : ∀ g ∈ generators, Exclusions.violatedBy g.contract.forbidden bindings = false) :
    (Run.start generators bindings).Calm := by
  have hbegins := begins_start generators bindings
  rw [Calm, hbegins.bindings]
  exact hbegins.forallSeats fun g hg _ _ => ⟨hinfinite g hg, hsteady g hg, hviolated g hg⟩

end Calm

/-! ### The end of a run -/

/-- A run that has come to its end with nothing left to receive has no seats left. -/
lemma Ready.receives_eq_void_iff (h : run.Ready) (hcalm : run.Calm)
    (hwaiting : ∀ seat ∈ run.live, seat.current.receives ≠ .void) {contract : Contract}
    (hending : run.ending = .composed contract) :
    contract.receives = .void ↔ run.live = [] := by
  unfold ending at hending
  split at hending
  · rename_i hlive
    cases hending
    exact ⟨fun _ => hlive, fun _ => rfl⟩
  · rename_i seat hlive
    cases hending
    have hseat : seat ∈ run.live := by
      rw [hlive]
      exact List.mem_cons_self
    have hdata := h.obeys.bindings
    obtain ⟨-, hsteady, hviolated⟩ := hcalm seat hseat
    have hreceives : (run.output.andThen (seat.current.subst run.bindings)).receives =
        seat.current.receives.subst run.bindings := by
      rcases Contract.subst_cases hdata.isPlain hsteady with ⟨hviolates, -⟩ | ⟨-, hsubst, -⟩
      · rw [hviolated] at hviolates
        cases hviolates
      · exact hsubst
    rw [hreceives, (h.seats seat hseat).firstOrder.receives.subst_eq_void_iff hdata.firstOrder,
      hlive]
    exact ⟨fun hvoid => absurd hvoid (hwaiting seat hseat), fun hnil => nomatch hnil⟩
  · cases hending

end Run

/-- The tuples of the exclusion are made of first-order values. -/
structure Exclusion.FirstOrder (e : Exclusion) : Prop where
  key : ∀ t ∈ e.key, t.FirstOrder
  values : ∀ row ∈ e.values, ∀ t ∈ row, t.FirstOrder

lemma Exclusion.FirstOrder.isSteady {e : Exclusion} (h : e.FirstOrder) : e.IsSteady :=
  ⟨fun t ht => (h.key t ht).isSteady, fun row hrow t ht => (h.values row hrow t ht).isSteady⟩

/-- A run stops only when everybody waits. Let generators with first-order sides pass their check
under bindings to ground first-order values. They may have conditions and exclusions of first-order
values that the bindings do not violate, but infinite generators have no exclusions. In every state
of the run, a generator with nothing left to receive can yield, and there is nothing to do exactly
if every generator that is left has something to receive. So in a deadlock all blocked generators
wait for something to receive, and a solution has nothing to receive exactly if no generator is
left. -/
theorem run_stops_only_when_everybody_waits (options : Options) (generators : List Generator)
    (bindings : Bindings)
    (hsides : ∀ g ∈ generators, g.contract.receives.Side ∧ g.contract.yields.Side)
    (hcheck : ∀ g ∈ generators, g.contract.check bindings = .ok ())
    (htables : ∀ g ∈ generators, ∀ e ∈ g.contract.forbidden, e.FirstOrder)
    (hinfinite : ∀ g ∈ generators, g.infinite = true → g.contract.forbidden = [])
    (hbindings : ∀ x t, bindings.find? x = some t → t.FirstOrder ∧ t.isGround = true)
    (hviolated : ∀ g ∈ generators, Exclusions.violatedBy g.contract.forbidden bindings = false) :
    (∀ run, Run.Reachable options (Run.start generators bindings) run →
      (∀ seat ∈ run.live, seat.current.receives = .void →
        (seat.current.produce? run.bindings).isSome = true) ∧
      ∀ compose, run.step options compose = .ok none ↔
        ∀ seat ∈ run.live, seat.current.receives ≠ .void) ∧
    (∀ unmatched blocked,
      solve options generators bindings = .error (.deadlock unmatched blocked) →
      ∃ final, (Run.start generators bindings).settle options = .ok final ∧
        blocked = final.live.map (fun seat => seat.generator.name) ∧
        ∀ seat ∈ final.live, seat.current.receives ≠ .void) ∧
    ∀ solution, solve options generators bindings = .ok solution →
      ∃ final, (Run.start generators bindings).settle options = .ok final ∧
        final.ending = .composed solution.contract ∧
        (solution.contract.receives = .void ↔ final.live = []) := by
  have hcontracts : ∀ g ∈ generators, g.contract.FirstOrder :=
    fun g hg => Contract.firstOrder_iff.2 (hsides g hg)
  have hdata : bindings.Data := Bindings.data_iff.2 hbindings
  have hready : (Run.start generators bindings).Ready :=
    Run.Ready.start hcontracts hcheck hinfinite hdata
  have hcalm : (Run.start generators bindings).Calm :=
    Run.Calm.start hinfinite (fun g hg e he => (htables g hg e he).isSteady) hviolated
  refine ⟨fun run hrun => ?_, fun unmatched blocked hdeadlock => ?_, fun solution hsolution => ?_⟩
  · have hrunReady := hready.of_reachable hrun
    refine ⟨fun seat hseat hvoid => ?_, fun compose => ?_⟩
    · exact Option.isSome_iff_exists.2 (hrunReady.exists_produce? hseat hvoid)
    · rw [Run.step_eq_none_iff, hrunReady.nextAction?_eq_none_iff]
  · obtain ⟨final, hsettle, hending⟩ := Run.exists_settle_of_solve_eq_deadlock hdeadlock
    obtain ⟨⟨actions, hpath⟩, hnone⟩ := Run.exists_path_of_settle hsettle
    have hfinal := hready.of_reachable hpath.reachable
    exact ⟨final, hsettle, Run.blocked_of_ending hending, hfinal.nextAction?_eq_none_iff.1 hnone⟩
  · obtain ⟨final, hsettle, hending, -⟩ := Run.exists_settle_of_solve_eq_ok hsolution
    obtain ⟨⟨actions, hpath⟩, hnone⟩ := Run.exists_path_of_settle hsettle
    have hfinal := hready.of_reachable hpath.reachable
    have hwaiting := hfinal.nextAction?_eq_none_iff.1 hnone
    exact ⟨final, hsettle, hending,
      hfinal.receives_eq_void_iff (hcalm.of_path hready hpath) hwaiting hending⟩

/-- A filter receives the first value of a source and passes it on to a sink, which starts over and
waits for another one. The second value of the source finds no receiver and is handed to the
outside. What remains is the sink, and a generator whose exclusions are not violated; both of them
wait. -/
theorem run_stops_only_when_everybody_waits_filter :
    let source : Generator :=
      { name := "source", contract := Contract.of .void (.seq [.const "A", .const "B"]) }
    let filter : Generator :=
      { name := "filter"
        contract := (Contract.of (.var "x") (.tuple [.var "x", .var "k"])).withForbidden
          [⟨[.var "x"], [[.const "B"]]⟩] }
    let sink : Generator :=
      { name := "sink"
        contract := Contract.of (.tuple [.var "z", .const "K"]) .void
        infinite := true }
    let last : Generator :=
      { name := "last"
        contract := (Contract.of (.tuple [.var "y", .var "y"]) (.var "y")).withForbidden
          [⟨[.var "x"], [[.const "C"]]⟩] }
    let given : Bindings := NameTable.ofList [("k", .const "K")]
    ∃ unmatched final,
      solve {} [source, filter, sink, last] given =
        .error (.deadlock unmatched ["sink", "last"]) ∧
      (Run.start [source, filter, sink, last] given).settle {} = .ok final ∧
      ["sink", "last"] = final.live.map (fun seat => seat.generator.name) ∧
      ∀ seat ∈ final.live, seat.current.receives ≠ .void := by
  intro source filter sink last given
  have htuple : ∀ {first second : Ty}, first.FirstOrder → second.FirstOrder →
      (Ty.tuple [first, second]).FirstOrder := by
    intro first second hfirst hsecond
    exact .tuple (List.forall_mem_cons.2 ⟨hfirst, List.forall_mem_singleton.2 hsecond⟩)
  have hsides : ∀ g ∈ [source, filter, sink, last],
      g.contract.receives.Side ∧ g.contract.yields.Side := by
    refine List.forall_mem_cons.2 ⟨⟨.void, ?_⟩, List.forall_mem_cons.2 ⟨⟨.value (.var "x"), ?_⟩,
      List.forall_mem_cons.2 ⟨⟨?_, .void⟩, List.forall_mem_singleton.2 ⟨?_, .value (.var "y")⟩⟩⟩⟩
    · exact .seq (Nat.le_refl 2)
        (List.forall_mem_cons.2 ⟨.const "A", List.forall_mem_singleton.2 (.const "B")⟩)
    · exact .value (htuple (.var "x") (.var "k"))
    · exact .value (htuple (.var "z") (.const "K"))
    · exact .value (htuple (.var "y") (.var "y"))
  have hcheck : ∀ g ∈ [source, filter, sink, last], g.contract.check given = .ok () := by
    decide +kernel
  have hrow : ∀ name : String,
      (⟨[.var "x"], [[.const name]]⟩ : Exclusion).FirstOrder := by
    intro name
    exact ⟨List.forall_mem_singleton.2 (.var "x"),
      List.forall_mem_singleton.2 (List.forall_mem_singleton.2 (.const name))⟩
  have htables : ∀ g ∈ [source, filter, sink, last],
      ∀ e ∈ g.contract.forbidden, e.FirstOrder := by
    refine List.forall_mem_cons.2 ⟨List.forall_mem_nil _, List.forall_mem_cons.2
      ⟨List.forall_mem_singleton.2 (hrow "B"), List.forall_mem_cons.2 ⟨List.forall_mem_nil _,
        List.forall_mem_singleton.2 (List.forall_mem_singleton.2 (hrow "C"))⟩⟩⟩
  have hinfinite : ∀ g ∈ [source, filter, sink, last],
      g.infinite = true → g.contract.forbidden = [] := by
    refine List.forall_mem_cons.2 ⟨nofun, List.forall_mem_cons.2 ⟨nofun, List.forall_mem_cons.2
      ⟨fun _ => rfl, List.forall_mem_singleton.2 nofun⟩⟩⟩
  have hbindings : ∀ x t, given.find? x = some t → t.FirstOrder ∧ t.isGround = true :=
    NameTable.forall_find?_iff.2 (List.forall_mem_singleton.2 ⟨.const "K", rfl⟩)
  have hviolated : ∀ g ∈ [source, filter, sink, last],
      Exclusions.violatedBy g.contract.forbidden given = false := by
    decide +kernel
  have hcomputed : (match solve {} [source, filter, sink, last] given with
      | .error (.deadlock _ blocked) => some blocked
      | _ => none) = some ["sink", "last"] := by
    decide +kernel
  obtain ⟨-, hdeadlock, -⟩ := run_stops_only_when_everybody_waits {} [source, filter, sink, last]
    given hsides hcheck htables hinfinite hbindings hviolated
  split at hcomputed
  · rename_i unmatched blocked hsolve
    obtain rfl := Option.some.inj hcomputed
    obtain ⟨final, hsettle, hblocked, hwaiting⟩ := hdeadlock unmatched _ hsolve
    exact ⟨unmatched, final, hsolve, hsettle, hblocked, hwaiting⟩
  · cases hcomputed

end ContractComposition
