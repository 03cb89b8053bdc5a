import Mathlib.Algebra.Order.BigOperators.Group.List
import Mathlib.Algebra.Order.Ring.Int
import ContractComposition.Proofs.Run.Seats

/-!
# Sums over seats

A quantity of seats can be added up over the live seats of a run (`Run.sumSeats`). Putting a
contract on a seat exchanges one summand, and a seat that leaves takes its summand away. So the end
of a step does not increase a sum, provided that no summand is increased by substituting bindings
and that finished seats do not count as negative (`Run.sumSeats_wrapUp_le`). The generators have to
be finite, since an infinite one would come back with its whole contract. If finished seats count as
zero and substituting bindings changes nothing, the sum stays the same (`Run.sumSeats_wrapUp_eq`).

To bound the number of steps, what is left on a seat is weighed by how many places there are from
the seat on (`Run.weigh`). Then a value weighs less when it is moved to a later seat
(`Run.sumSeats_weigh_move_lt`).
-/

namespace ContractComposition

namespace Run

/-- A quantity, added up over the live seats. -/
def sumSeats (f : Seat → Int) (run : Run) : Int :=
  (run.live.map f).sum

/-- A seat with a finite generator and a contract of the kind `C`. -/
def Transient (C : Contract → Prop) (_ : Nat) (g : Generator) (c : Contract) : Prop :=
  g.infinite = false ∧ C c

variable {f : Seat → Int} {C : Contract → Prop} {run : Run}

lemma survivesRestarts_transient (external : List String) :
    SurvivesRestarts (Transient C) external := by
  intro n g g' c c' k _ hgc' hinfinite
  rw [hgc'.1] at hinfinite
  cases hinfinite

lemma sumSeats_neg (f : Seat → Int) (run : Run) :
    (run.sumSeats fun seat => -f seat) = -run.sumSeats f := by
  rw [sumSeats, sumSeats, List.sum_neg, List.map_map]
  rfl

/-- Putting a contract on a seat exchanges one summand. -/
lemma sumSeats_put (hrun : Numbered run) {seat : Seat} (hseat : seat ∈ run.live) (c : Contract) :
    (run.put seat.number c).sumSeats f =
      run.sumSeats f - f seat + f { seat with current := c } := by
  obtain ⟨before, after, hlive⟩ := List.append_of_mem hseat
  rw [sumSeats, sumSeats, live_put hrun before hlive, hlive]
  simp only [List.map_append, List.map_cons, List.sum_append, List.sum_cons]
  omega

/-- A seat that leaves takes its summand away. -/
lemma sumSeats_leave (hrun : Numbered run) {seat : Seat} (hseat : seat ∈ run.live) :
    (run.leave seat.number).sumSeats f = run.sumSeats f - f seat := by
  obtain ⟨before, after, hlive⟩ := List.append_of_mem hseat
  rw [sumSeats, sumSeats, live_leave hrun before hlive, hlive]
  simp only [List.map_append, List.map_cons, List.sum_append, List.sum_cons]
  omega

/-! ### The end of a step -/

/-- Retiring seats does not increase a sum in which finished seats do not count as negative. -/
lemma sumSeats_retire_le
    (hfinished : ∀ seat : Seat, C seat.current → seat.current.isTerminal = true → 0 ≤ f seat)
    (hrun : Numbered run) (hseats : ForallSeats (Transient C) run) (number : Nat) :
    (run.retire number).sumSeats f ≤ run.sumSeats f := by
  rcases run.retire_cases number with heq | ⟨seat, hseat, hterminal, ⟨hinfinite, -⟩ | ⟨-, heq⟩⟩
  · rw [heq]
  · obtain ⟨hfinite, -⟩ := hseats seat (mem_of_seat?_eq_some hseat).1
    rw [hfinite] at hinfinite
    cases hinfinite
  · obtain ⟨hmem, rfl⟩ := mem_of_seat?_eq_some hseat
    have hnonneg : 0 ≤ f seat := hfinished seat (hseats seat hmem).2 hterminal
    rw [heq, sumSeats_leave hrun hmem]
    omega

lemma sumSeats_retireAll_le
    (hfinished : ∀ seat : Seat, C seat.current → seat.current.isTerminal = true → 0 ≤ f seat)
    (hrun : Numbered run) (hseats : ForallSeats (Transient C) run) (numbers : List Nat) :
    (run.retireAll numbers).sumSeats f ≤ run.sumSeats f := by
  induction numbers generalizing run with
  | nil => exact Int.le_refl _
  | cons number numbers ih =>
    have hretired := hseats.retire (survivesRestarts_transient run.external) number
    have hfirst := sumSeats_retire_le hfinished hrun hseats number
    have hrest := ih (hrun.retire number) hretired
    rw [retireAll_cons]
    omega

/-- The end of a step does not increase a sum whose summands are not increased by substituting the
bindings. -/
theorem sumSeats_wrapUp_le
    (hfinished : ∀ seat : Seat, C seat.current → seat.current.isTerminal = true → 0 ≤ f seat)
    (hsubst : ∀ seat : Seat, C seat.current → C (seat.current.subst run.bindings) ∧
      f { seat with current := seat.current.subst run.bindings } ≤ f seat)
    (hrun : Numbered run) (hseats : ForallSeats (Transient C) run) (before : Bindings)
    (numbers : List Nat) : (run.wrapUp before numbers).sumSeats f ≤ run.sumSeats f := by
  have hretired := hseats.retireAll (survivesRestarts_transient run.external) numbers
  have hfirst := sumSeats_retireAll_le hfinished hrun hseats numbers
  rcases Nat.lt_or_ge before.size run.bindings.size with hlt | hle
  · rw [wrapUp_of_lt hlt, propagate_eq]
    rw [← (run.reseats_retireAll numbers).bindings] at hsubst
    have hnumbered := (hrun.retireAll numbers).refreshed
    have hrefreshed : ForallSeats (Transient C) (run.retireAll numbers).refreshed :=
      hretired.refreshed fun n g c hseat => ⟨hseat.1, (hsubst ⟨n, g, c⟩ hseat.2).1⟩
    have hsum : (run.retireAll numbers).refreshed.sumSeats f ≤
        (run.retireAll numbers).sumSeats f := by
      rw [sumSeats, sumSeats, refreshed, List.map_map]
      exact List.sum_le_sum fun seat hseat => (hsubst seat (hretired seat hseat).2).2
    have hlast := sumSeats_retireAll_le hfinished hnumbered hrefreshed
      ((run.retireAll numbers).refreshed.live.map Seat.number)
    omega
  · rw [wrapUp_of_le hle]
    exact hfirst

/-- The end of a step does not change a sum in which finished seats count as zero and whose summands
are not changed by substituting the bindings. -/
theorem sumSeats_wrapUp_eq
    (hfinished : ∀ seat : Seat, C seat.current → seat.current.isTerminal = true → f seat = 0)
    (hsubst : ∀ seat : Seat, C seat.current → C (seat.current.subst run.bindings) ∧
      f { seat with current := seat.current.subst run.bindings } = f seat)
    (hrun : Numbered run) (hseats : ForallSeats (Transient C) run) (before : Bindings)
    (numbers : List Nat) : (run.wrapUp before numbers).sumSeats f = run.sumSeats f := by
  have hle : (run.wrapUp before numbers).sumSeats f ≤ run.sumSeats f := by
    refine sumSeats_wrapUp_le (fun seat hseat hterminal => ?_) (fun seat hseat => ?_) hrun hseats
      before numbers
    · rw [hfinished seat hseat hterminal]
    · exact ⟨(hsubst seat hseat).1, Int.le_of_eq (hsubst seat hseat).2⟩
  have hge : (run.wrapUp before numbers).sumSeats (fun seat => -f seat) ≤
      run.sumSeats fun seat => -f seat := by
    refine sumSeats_wrapUp_le (fun seat hseat hterminal => ?_) (fun seat hseat => ?_) hrun hseats
      before numbers
    · rw [hfinished seat hseat hterminal]
      omega
    · obtain ⟨hkind, hsame⟩ := hsubst seat hseat
      exact ⟨hkind, by rw [hsame]⟩
  rw [sumSeats_neg, sumSeats_neg] at hge
  omega

/-! ### Weights -/

/-- The size of what is left on a seat, counted once for each of the places from the seat on, of
which there are `places` in all. -/
def weigh (places : Nat) (size : Contract → Nat) (seat : Seat) : Int :=
  ((places - seat.number) * size seat.current : Nat)

variable {size : Contract → Nat}

lemma weigh_nonneg (places : Nat) (size : Contract → Nat) (seat : Seat) :
    0 ≤ weigh places size seat :=
  Int.natCast_nonneg _

lemma sumSeats_weigh_nonneg (places : Nat) (size : Contract → Nat) (run : Run) :
    0 ≤ run.sumSeats (weigh places size) := by
  refine List.sum_nonneg fun x hx => ?_
  obtain ⟨seat, -, rfl⟩ := List.mem_map.1 hx
  exact weigh_nonneg places size seat

/-- What is lost or gained on a seat counts once for each of the places from the seat on. -/
lemma sumSeats_weigh_put_le (places lost gained : Nat) (hrun : Numbered run) {seat : Seat}
    (hseat : seat ∈ run.live) {c : Contract}
    (hsize : size c + lost ≤ size seat.current + gained) :
    (run.put seat.number c).sumSeats (weigh places size) + ((places - seat.number) * lost : Nat) ≤
      run.sumSeats (weigh places size) + ((places - seat.number) * gained : Nat) := by
  have hmul := Nat.mul_le_mul_left (places - seat.number) hsize
  rw [Nat.mul_add, Nat.mul_add] at hmul
  rw [sumSeats_put hrun hseat, weigh, weigh]
  dsimp only
  omega

/-- A seat from which something is taken weighs less. -/
lemma sumSeats_weigh_take_lt {places : Nat} (hrun : Numbered run) {seat : Seat}
    (hseat : seat ∈ run.live) (hplace : seat.number < places) {c : Contract}
    (hsize : size c < size seat.current) :
    (run.put seat.number c).sumSeats (weigh places size) < run.sumSeats (weigh places size) := by
  have hput := sumSeats_weigh_put_le places 1 0 hrun hseat (Nat.succ_le_of_lt hsize)
  omega

/-- If something is taken from one seat, and another one gets no more or gets something and is
behind the first one, the two weigh less. -/
lemma sumSeats_weigh_move_lt {places : Nat} (hrun : Numbered run) {seat other : Seat}
    (hseat : seat ∈ run.live) (hother : other ∈ run.live) (hne : other.number ≠ seat.number)
    (hplace : seat.number < places) {c c' : Contract} (hsize : size c < size seat.current)
    (hmoved : size c' ≤ size other.current ∨
      size c' ≤ size other.current + 1 ∧ seat.number < other.number) :
    ((run.put seat.number c).put other.number c').sumSeats (weigh places size) <
      run.sumSeats (weigh places size) := by
  have hfirst := sumSeats_weigh_put_le places 1 0 hrun hseat (Nat.succ_le_of_lt hsize)
  have hnumbered : Numbered (run.put seat.number c) := hrun.put _ _
  have hstays : other ∈ (run.put seat.number c).live := mem_put_of_ne hother hne _
  rcases hmoved with hkept | ⟨hgained, hbehind⟩
  · have hsecond := sumSeats_weigh_put_le places 0 0 hnumbered hstays hkept
    omega
  · have hsecond := sumSeats_weigh_put_le places 0 1 hnumbered hstays hgained
    omega

/-! ### Beginnings -/

/-- Generators that join add no more than what is allowed for each of them. -/
lemma sumSeats_joinAll_le {allowed : Generator → Int} {generators : List Generator}
    (hfinished : ∀ g ∈ generators, g.contract.isTerminal = true → 0 ≤ allowed g)
    (hseated : ∀ g ∈ generators, ∀ number, f ⟨number, g, g.contract⟩ ≤ allowed g) :
    (run.joinAll generators).sumSeats f ≤
      run.sumSeats f + (generators.map allowed).sum := by
  unfold joinAll
  induction generators generalizing run with
  | nil => simp
  | cons g gs ih =>
    obtain ⟨hg, hgs⟩ := List.forall_mem_cons.1 hfinished
    obtain ⟨hfirst, hrest⟩ := List.forall_mem_cons.1 hseated
    rw [List.map_cons, List.sum_cons]
    cases hdone : g.contract.isTerminal with
    | true =>
      have hnonneg := hg hdone
      have hothers : ((gs.filter fun g => !g.contract.isTerminal).foldl join run).sumSeats f ≤
          run.sumSeats f + (gs.map allowed).sum := ih hgs hrest
      rw [List.filter_cons_of_neg (by simp [hdone])]
      omega
    | false =>
      have hjoin : (run.join g).sumSeats f =
          run.sumSeats f + f ⟨run.nextNumber, g, g.contract⟩ := by
        rw [sumSeats, sumSeats, join, List.map_append, List.sum_append]
        simp
      have hseat := hfirst run.nextNumber
      have hothers : ((gs.filter fun g => !g.contract.isTerminal).foldl join
          (run.join g)).sumSeats f ≤ (run.join g).sumSeats f + (gs.map allowed).sum := ih hgs hrest
      rw [List.filter_cons_of_pos (by simp [hdone]), List.foldl_cons]
      omega

/-- Generators that join add what each of them counts, if those that are finished count as zero. -/
lemma sumSeats_joinAll_eq {counted : Generator → Int} {generators : List Generator}
    (hfinished : ∀ g ∈ generators, g.contract.isTerminal = true → counted g = 0)
    (hseated : ∀ g ∈ generators, ∀ number, f ⟨number, g, g.contract⟩ = counted g) :
    (run.joinAll generators).sumSeats f =
      run.sumSeats f + (generators.map counted).sum := by
  have hle : (run.joinAll generators).sumSeats f ≤
      run.sumSeats f + (generators.map counted).sum := by
    refine sumSeats_joinAll_le (fun g hg hdone => ?_) fun g hg number => ?_
    · rw [hfinished g hg hdone]
    · exact Int.le_of_eq (hseated g hg number)
  have hge : (run.joinAll generators).sumSeats (fun seat => -f seat) ≤
      run.sumSeats (fun seat => -f seat) + (generators.map fun g => -counted g).sum := by
    refine sumSeats_joinAll_le (fun g hg hdone => ?_) fun g hg number => ?_
    · rw [hfinished g hg hdone]
      omega
    · rw [hseated g hg number]
  have hsum : (generators.map fun g => -counted g).sum = -(generators.map counted).sum := by
    rw [List.sum_neg, List.map_map]
    rfl
  rw [sumSeats_neg, sumSeats_neg, hsum] at hge
  omega

end Run

end ContractComposition
