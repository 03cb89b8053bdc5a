import ContractComposition.Proofs.Chronicle
import ContractComposition.Proofs.Variables

/-!
# Keeping a seat

A generator that has nothing left to receive can be dislodged from its seat in one way only: it
yields. It is never a receiver, it does not leave as long as it is not finished, and bindings that
are propagated leave it where it is. What is left of its contract may grow meanwhile, as it may
absorb what others yield.

`Run.Occupies` says that a generator has a seat and that what is left of its contract has a given
property. If substituting and absorbing keep the property, a step keeps the generator on its seat
unless it yields (`Run.Occupies.of_steps`). So there is a record of its yielding once it is gone
(`Run.Path.occupies_or_yields`).
-/

namespace ContractComposition

namespace Run

variable {run next moved : Run} {options : Options} {number : Nat} {g : Generator}
  {p : Contract → Prop}

/-! ### Seats that stay -/

/-- The generator has the seat with the number, and what is left of its contract has the
property. -/
def Occupies (number : Nat) (g : Generator) (p : Contract → Prop) (run : Run) : Prop :=
  ∃ c, ⟨number, g, c⟩ ∈ run.live ∧ p c

/-- Generators that join leave the seats of the others alone. -/
lemma mem_joinAll {seat : Seat} (h : seat ∈ run.live) (generators : List Generator) :
    seat ∈ (run.joinAll generators).live := by
  unfold joinAll
  generalize generators.filter _ = seated
  induction seated generalizing run with
  | nil => exact h
  | cons g gs ih => exact ih (List.mem_append_left _ h)

lemma mem_seated {seat : Seat} (h : seat ∈ run.live) {offer : Offer}
    (hne : seat.number ≠ offer.seat.number) (started : List Generator) :
    seat ∈ (run.seated offer started).live := by
  have hyielder : seat ∈ (run |>.put offer.seat.number offer.yielded.successor
      |>.recordSeat .yield offer.seat).live := mem_put_of_ne h hne _
  suffices hfold : ∀ before : Run, seat ∈ before.live →
      seat ∈ (started.foldl seatStarted before).live from hfold _ hyielder
  induction started with
  | nil => exact fun _ hbefore => hbefore
  | cons g gs ih => exact fun before hbefore => ih _ (List.mem_append_left _ hbefore)

/-- The first generator gets the first seat, unless it has nothing to do. -/
lemma occupies_start {generators : List Generator} {bindings : Bindings}
    (hunfinished : g.contract.isTerminal = false) (hp : p g.contract) :
    Occupies 0 g p (start (g :: generators) bindings) := by
  refine ⟨g.contract, ?_, hp⟩
  rw [start, joinAll, List.filter_cons_of_pos (by rw [hunfinished]; rfl), List.foldl_cons]
  exact mem_joinAll (List.mem_singleton_self _) generators

namespace Occupies

lemma retire (hrun : Numbered run) (hunfinished : ∀ c, p c → c.isTerminal = false)
    (h : Occupies number g p run) (other : Nat) : Occupies number g p (run.retire other) := by
  obtain ⟨c, hseat, hc⟩ := h
  refine ⟨c, ?_, hc⟩
  rcases run.retire_cases other with heq | ⟨seat, hfound, hterminal, hcases⟩
  · rwa [heq]
  obtain ⟨hmem, hnumber⟩ := mem_of_seat?_eq_some hfound
  have hne : number ≠ seat.number := by
    intro hsame
    obtain rfl := hrun.eq_of_number_eq hseat hmem hsame
    rw [hunfinished c hc] at hterminal
    cases hterminal
  rcases hcases with ⟨-, heq⟩ | ⟨-, heq⟩
  · rw [heq]
    exact mem_put_of_ne hseat hne _
  · rw [heq]
    exact List.mem_filter.2 ⟨hseat, by simpa [← hnumber] using hne⟩

lemma retireAll (hrun : Numbered run) (hunfinished : ∀ c, p c → c.isTerminal = false)
    (h : Occupies number g p run) (numbers : List Nat) :
    Occupies number g p (run.retireAll numbers) := by
  induction numbers generalizing run with
  | nil => exact h
  | cons other numbers ih => exact ih (hrun.retire other) (h.retire hrun hunfinished other)

/-- A generator that is not finished keeps its seat at the end of a step. -/
lemma wrapUp (hrun : Numbered run) (hunfinished : ∀ c, p c → c.isTerminal = false)
    (hsubst : ∀ c, p c → p (c.subst run.bindings)) (h : Occupies number g p run)
    (before : Bindings) (numbers : List Nat) :
    Occupies number g p (run.wrapUp before numbers) := by
  have hretired := h.retireAll hrun hunfinished numbers
  rcases Nat.lt_or_ge before.size run.bindings.size with hlt | hle
  · rw [wrapUp_of_lt hlt, propagate_eq]
    obtain ⟨c, hseat, hc⟩ := hretired
    have hrefreshed : Occupies number g p (run.retireAll numbers).refreshed := by
      refine ⟨_, List.mem_map.2 ⟨_, hseat, rfl⟩, ?_⟩
      rw [(run.reseats_retireAll numbers).bindings]
      exact hsubst c hc
    exact hrefreshed.retireAll (hrun.retireAll numbers).refreshed hunfinished _
  · rwa [wrapUp_of_le hle]

end Occupies

/-! ### Moves -/

/-- The seats are in order after a move. -/
lemma Moves.numbered {compose : Ty → Run → Except Halt Run} {action : Action} {numbers : List Nat}
    (h : run.Moves compose moved numbers action) (hrun : Numbered run) : Numbered moved := by
  cases action with
  | exchange offer receiver received => exact h.1 ▸ hrun.exchanged offer receiver received
  | spawn offer contracts =>
    obtain ⟨prepared, started, hprepare, rfl, -⟩ := h
    exact ((hrun.prepare hprepare).seated offer started).1
  | absorb offer absorber => exact h.1 ▸ hrun.absorbed offer absorber
  | emit offer => exact h.1 ▸ hrun.handedOut offer

/-- A move records what the seat that yields did. -/
lemma Moves.exists_yield_mem {compose : Ty → Run → Except Halt Run} {action : Action}
    {numbers : List Nat} (h : run.Moves compose moved numbers action) :
    ∃ step, seatEvent step .yield action.offer.seat ∈ moved.trace.toList := by
  cases action with
  | exchange offer receiver received =>
    obtain ⟨rfl, -⟩ := h
    refine ⟨run.steps + 1, ?_⟩
    simp [exchanged, recordSeat, record, put, seatEvent, Action.offer]
  | spawn offer contracts =>
    obtain ⟨prepared, started, -, rfl, -⟩ := h
    refine ⟨prepared.steps + 1, ?_⟩
    rw [(seated_records prepared offer started).2]
    exact List.mem_append_right _ List.mem_cons_self
  | absorb offer absorber =>
    obtain ⟨rfl, -⟩ := h
    refine ⟨run.steps + 1, ?_⟩
    simp [absorbed, recordSeat, record, put, seatEvent, Action.offer]
  | emit offer =>
    obtain ⟨rfl, -⟩ := h
    refine ⟨run.steps + 1, ?_⟩
    simp [handedOut, recordSeat, record, put, seatEvent, Action.offer]

/-- A generator that has nothing left to receive keeps its seat in a move in which another seat
yields. It may absorb what is yielded. -/
lemma Occupies.of_moves {compose : Ty → Run → Except Halt Run} {action : Action}
    {numbers : List Nat} {hierarchy : Hierarchy} (hrun : Numbered run)
    (hvoid : ∀ c, p c → c.receives = .void)
    (happend : ∀ c v, p c → v.isGround = true → p (c.appendYield v))
    (hallows : run.Allows hierarchy action) (hmoves : run.Moves compose moved numbers action)
    (hother : action.offer.seat.number ≠ number) (h : Occupies number g p run) :
    Occupies number g p moved := by
  obtain ⟨c, hseat, hc⟩ := h
  cases action with
  | exchange offer receiver received =>
    obtain ⟨rfl, -⟩ := hmoves
    obtain ⟨-, hreceiver, -, hreceived⟩ := hallows
    have hne : number ≠ receiver.number := by
      intro hsame
      obtain rfl := hrun.eq_of_number_eq hseat hreceiver hsame
      obtain ⟨head, rest, found, hpop, -⟩ := Contract.accept?_eq_some_iff.1 hreceived
      rw [hvoid c hc] at hpop
      cases hpop
    have hyielder : ⟨number, g, c⟩ ∈ (run.put offer.seat.number offer.yielded.successor).live :=
      mem_put_of_ne hseat (Ne.symm hother) _
    exact ⟨c, mem_put_of_ne hyielder hne _, hc⟩
  | spawn offer contracts =>
    obtain ⟨prepared, started, hprepare, rfl, -⟩ := hmoves
    obtain ⟨⟨hlive, -⟩, -⟩ := prepare_eq_ok hprepare
    rw [← hlive] at hseat
    exact ⟨c, mem_seated hseat (Ne.symm hother) started, hc⟩
  | absorb offer absorber =>
    obtain ⟨rfl, -⟩ := hmoves
    obtain ⟨hoffer, -, habsorber, -⟩ := hallows
    have hyielder : ⟨number, g, c⟩ ∈ (run.put offer.seat.number offer.yielded.successor).live :=
      mem_put_of_ne hseat (Ne.symm hother) _
    by_cases hsame : number = absorber.number
    · obtain rfl := hrun.eq_of_number_eq hseat habsorber hsame
      have hground : offer.value.isGround = true :=
        (Contract.OnlyMentions.produce? (p := fun _ => True) (mem_offers.1 hoffer).2).1
      refine ⟨c.appendYield offer.value, ?_, happend c _ hc hground⟩
      exact List.mem_map.2 ⟨_, hyielder, if_pos (beq_self_eq_true number)⟩
    · exact ⟨c, mem_put_of_ne hyielder hsame _, hc⟩
  | emit offer =>
    obtain ⟨rfl, -⟩ := hmoves
    exact ⟨c, mem_put_of_ne hseat (Ne.symm hother) _, hc⟩

/-! ### Steps and paths -/

/-- The generator has yielded, and what was left of its contract before had the property. -/
def HasYielded (g : Generator) (p : Contract → Prop) (run : Run) : Prop :=
  ∃ e ∈ run.trace.toList, e.kind = .yield ∧ e.generator = some g.name ∧ p e.contract

/-- In a step, a generator that has nothing left to receive and is not finished keeps its seat or
yields. -/
theorem Occupies.of_steps {action : Action} (hrun : Numbered run)
    (hvoid : ∀ c, p c → c.receives = .void) (hunfinished : ∀ c, p c → c.isTerminal = false)
    (happend : ∀ c v, p c → v.isGround = true → p (c.appendYield v))
    (hsubst : ∀ c, p c → p (c.subst next.bindings)) (hstep : run.Steps options action next)
    (h : Occupies number g p run) : Occupies number g p next ∨ HasYielded g p next := by
  obtain ⟨haction, depth, hcommit⟩ := hstep
  have hallows := allows_of_nextAction? haction
  obtain ⟨moved, numbers, hmoves, -, rfl⟩ := commit_eq_ok_iff.1 hcommit
  have hframe := moved.reseats_wrapUp run.bindings numbers
  by_cases hother : action.offer.seat.number = number
  · right
    obtain ⟨c, hseat, hc⟩ := h
    have hoffer : action.offer ∈ run.offers := by cases action <;> exact hallows.1
    obtain ⟨step, hevent⟩ := hmoves.exists_yield_mem
    rw [hrun.eq_of_number_eq (mem_offers.1 hoffer).1 hseat hother] at hevent
    refine ⟨seatEvent step .yield ⟨number, g, c⟩, ?_, rfl, rfl, hc⟩
    rw [hframe.trace]
    exact hevent
  · left
    rw [hframe.bindings] at hsubst
    exact (h.of_moves hrun hvoid happend hallows hmoves hother).wrapUp (hmoves.numbered hrun)
      hunfinished hsubst _ _

/-- On a path, a generator that has nothing left to receive and is not finished keeps its seat until
it yields. -/
theorem Path.occupies_or_yields {first : Run} {actions : List Action} (hfirst : Numbered first)
    (hvoid : ∀ c, p c → c.receives = .void) (hunfinished : ∀ c, p c → c.isTerminal = false)
    (happend : ∀ c v, p c → v.isGround = true → p (c.appendYield v))
    (hsubst : ∀ state, Reachable options first state → ∀ c, p c → p (c.subst state.bindings))
    (h : Occupies number g p first) (hpath : Path options first actions run) :
    Numbered run ∧ (Occupies number g p run ∨ HasYielded g p run) := by
  induction hpath with
  | start => exact ⟨hfirst, .inl h⟩
  | @step _ _ next _ hpath hstep ih =>
    obtain ⟨hrun, hcases⟩ := ih
    have ⟨_, _, hcommit⟩ := hstep
    refine ⟨(hrun.of_commit hcommit).1, ?_⟩
    rcases hcases with hoccupies | ⟨e, he, hyielded⟩
    · exact hoccupies.of_steps hrun hvoid hunfinished happend
        (hsubst next (.step hpath.reachable hstep)) hstep
    · have hlogs := rel_of_steps (logs_refl options) Logs.trans (holdsOfSteps_logs options) hstep
      obtain ⟨events, htrace, -⟩ := hlogs.chronicle
      refine .inr ⟨e, ?_, hyielded⟩
      rw [htrace]
      exact List.mem_append_left _ he

end Run

end ContractComposition
