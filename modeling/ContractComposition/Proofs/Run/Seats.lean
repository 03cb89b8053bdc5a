import Mathlib.Data.List.Nodup
import ContractComposition.Run.Basic

/-!
# The seats of a run

The operations of a run that retire and refresh seats touch nothing but the live seats and the
count of restarts (`Run.Reseats`). Every step ends with them: it retires some seats and propagates
the bindings if there are new ones (`Run.wrapUp`). What they do to the seats is said in two ways.

* `Run.ForallSeats` transfers a property of the number, the generator and the contract of each
  seat from before an operation to after it. The property has to survive a restart
  (`Run.SurvivesRestarts`).
* `Run.Numbered` says that the numbers of the live seats ascend and that the next number is still
  free. Under it a number belongs to one seat only, and a finished seat does not survive its
  retirement unless its generator starts over (`Run.isTerminal_eq_false_of_mem_retireAll`). So there
  is none at the end of a step (`Run.isTerminal_eq_false_of_mem_wrapUp`).
-/

namespace ContractComposition

namespace Run

/-! ### What stays the same -/

/-- The two runs agree on everything but the live seats and the count of restarts. -/
structure Reseats (run run' : Run) : Prop where
  bindings : run'.bindings = run.bindings
  external : run'.external = run.external
  emitted : run'.emitted = run.emitted
  nextNumber : run'.nextNumber = run.nextNumber
  steps : run'.steps = run.steps
  trace : run'.trace = run.trace
  warnings : run'.warnings = run.warnings

namespace Reseats

lemma refl (run : Run) : Reseats run run := ⟨rfl, rfl, rfl, rfl, rfl, rfl, rfl⟩

lemma trans {a b c : Run} (hab : Reseats a b) (hbc : Reseats b c) : Reseats a c where
  bindings := hbc.bindings.trans hab.bindings
  external := hbc.external.trans hab.external
  emitted := hbc.emitted.trans hab.emitted
  nextNumber := hbc.nextNumber.trans hab.nextNumber
  steps := hbc.steps.trans hab.steps
  trace := hbc.trace.trans hab.trace
  warnings := hbc.warnings.trans hab.warnings

end Reseats

/-- The seat that is found under a number is a live seat with this number. -/
lemma mem_of_seat?_eq_some {run : Run} {number : Nat} {seat : Seat}
    (h : run.seat? number = some seat) : seat ∈ run.live ∧ seat.number = number :=
  ⟨List.mem_of_find?_eq_some h, by simpa using List.find?_some h⟩

/-- Putting a contract on a seat leaves the seats with other numbers alone. -/
lemma mem_put_of_ne {run : Run} {number : Nat} {seat : Seat} (hseat : seat ∈ run.live)
    (hne : seat.number ≠ number) (contract : Contract) : seat ∈ (run.put number contract).live := by
  refine List.mem_map.2 ⟨seat, hseat, ?_⟩
  rw [if_neg (by simpa using hne)]

lemma mem_of_mem_put {run : Run} {number : Nat} {contract : Contract} {seat : Seat}
    (hseat : seat ∈ (run.put number contract).live) (hne : seat.number ≠ number) :
    seat ∈ run.live := by
  obtain ⟨old, hold, rfl⟩ := List.mem_map.1 hseat
  by_cases hnumber : old.number = number
  · simp [hnumber] at hne
  · simpa [hnumber] using hold

lemma current_of_mem_put {run : Run} {number : Nat} {contract : Contract} {seat : Seat}
    (hseat : seat ∈ (run.put number contract).live) (hnumber : seat.number = number) :
    seat.current = contract := by
  obtain ⟨old, hold, rfl⟩ := List.mem_map.1 hseat
  by_cases hold : old.number = number
  · simp [hold]
  · simp [hold] at hnumber

/-- Retiring a seat makes it leave, lets it start over, or does nothing. -/
lemma retire_cases (run : Run) (number : Nat) :
    run.retire number = run ∨
      ∃ seat, run.seat? number = some seat ∧ seat.current.isTerminal = true ∧
        (seat.generator.infinite = true ∧ run.retire number = run.restart seat ∨
          seat.generator.infinite = false ∧ run.retire number = run.leave number) := by
  unfold retire
  cases hseat : run.seat? number with
  | none => exact .inl rfl
  | some seat =>
    cases hterminal : seat.current.isTerminal with
    | false => exact .inl (by simp [hterminal])
    | true =>
      refine .inr ⟨seat, rfl, hterminal, ?_⟩
      cases hinfinite : seat.generator.infinite with
      | false => exact .inr ⟨rfl, by simp [hterminal, hinfinite]⟩
      | true => exact .inl ⟨rfl, by simp [hterminal, hinfinite]⟩

lemma reseats_retire (run : Run) (number : Nat) : Reseats run (run.retire number) := by
  rcases run.retire_cases number with h | ⟨seat, -, -, ⟨-, h⟩ | ⟨-, h⟩⟩
  · rw [h]
    exact Reseats.refl run
  · rw [h]
    exact ⟨rfl, rfl, rfl, rfl, rfl, rfl, rfl⟩
  · rw [h]
    exact ⟨rfl, rfl, rfl, rfl, rfl, rfl, rfl⟩

lemma retireAll_cons (run : Run) (number : Nat) (numbers : List Nat) :
    run.retireAll (number :: numbers) = (run.retire number).retireAll numbers := rfl

lemma reseats_retireAll (run : Run) (numbers : List Nat) : Reseats run (run.retireAll numbers) := by
  induction numbers generalizing run with
  | nil => exact Reseats.refl run
  | cons number numbers ih => exact (run.reseats_retire number).trans (ih _)

/-- The run with its bindings substituted into the contract of every live seat. -/
def refreshed (run : Run) : Run :=
  { run with
    live := run.live.map fun seat => { seat with current := seat.current.subst run.bindings } }

lemma propagate_eq (run : Run) :
    run.propagate = run.refreshed.retireAll (run.refreshed.live.map Seat.number) := rfl

lemma reseats_propagate (run : Run) : Reseats run run.propagate := by
  have hrefreshed : Reseats run run.refreshed := ⟨rfl, rfl, rfl, rfl, rfl, rfl, rfl⟩
  rw [propagate_eq]
  exact hrefreshed.trans (reseats_retireAll _ _)

/-- The end of a step that began with the bindings `before`: the seats with the given numbers are
retired, and bindings that are new are propagated. -/
def wrapUp (run : Run) (before : Bindings) (numbers : List Nat) : Run :=
  if before.size < run.bindings.size then (run.retireAll numbers).propagate
  else run.retireAll numbers

lemma wrapUp_of_lt {run : Run} {before : Bindings} (h : before.size < run.bindings.size)
    (numbers : List Nat) : run.wrapUp before numbers = (run.retireAll numbers).propagate :=
  if_pos h

lemma wrapUp_of_le {run : Run} {before : Bindings} (h : run.bindings.size ≤ before.size)
    (numbers : List Nat) : run.wrapUp before numbers = run.retireAll numbers :=
  if_neg (Nat.not_lt.2 h)

lemma reseats_wrapUp (run : Run) (before : Bindings) (numbers : List Nat) :
    Reseats run (run.wrapUp before numbers) := by
  rcases Nat.lt_or_ge before.size run.bindings.size with hlt | hle
  · rw [wrapUp_of_lt hlt]
    exact (run.reseats_retireAll numbers).trans (reseats_propagate _)
  · rw [wrapUp_of_le hle]
    exact run.reseats_retireAll numbers

/-! ### Properties of all seats -/

/-- A property of the number, the generator and the contract holds of every live seat. -/
def ForallSeats (p : Nat → Generator → Contract → Prop) (run : Run) : Prop :=
  ∀ seat ∈ run.live, p seat.number seat.generator seat.current

/-- A property of seats survives restarts: it holds of the fresh copy that an infinite generator
starts over from. -/
def SurvivesRestarts (p : Nat → Generator → Contract → Prop) (external : List String) : Prop :=
  ∀ ⦃n : Nat⦄ ⦃g g' : Generator⦄ ⦃c c' : Contract⦄ (k : Nat), p n g c → p n g' c' →
    g'.infinite = true → p n g (g'.contract.freshen k external)

namespace ForallSeats

variable {p q : Nat → Generator → Contract → Prop} {run : Run}

lemma put (h : ForallSeats p run) {number : Nat} {contract : Contract}
    (hput : ∀ g c, p number g c → p number g contract) :
    ForallSeats p (run.put number contract) := by
  intro seat hseat
  obtain ⟨old, hold, rfl⟩ := List.mem_map.1 hseat
  by_cases hnumber : old.number = number
  · subst hnumber
    simp only [beq_self_eq_true, if_true]
    exact hput _ _ (h old hold)
  · simp only [beq_eq_false_iff_ne.2 hnumber, Bool.false_eq_true, if_false]
    exact h old hold

lemma leave (h : ForallSeats p run) (number : Nat) : ForallSeats p (run.leave number) := by
  intro seat hseat
  exact h seat (List.mem_of_mem_filter hseat)

lemma retire (h : ForallSeats p run) (hrestart : SurvivesRestarts p run.external) (number : Nat) :
    ForallSeats p (run.retire number) := by
  rcases run.retire_cases number with heq | ⟨seat, hseat, -, ⟨hinfinite, heq⟩ | ⟨-, heq⟩⟩
  · rw [heq]
    exact h
  · rw [heq]
    have hp := h seat (mem_of_seat?_eq_some hseat).1
    exact put h fun g c hgc => hrestart _ hgc hp hinfinite
  · rw [heq]
    exact leave h number

lemma retireAll (h : ForallSeats p run) (hrestart : SurvivesRestarts p run.external)
    (numbers : List Nat) : ForallSeats p (run.retireAll numbers) := by
  induction numbers generalizing run with
  | nil => exact h
  | cons number numbers ih =>
    refine ih (retire h hrestart number) ?_
    rw [(run.reseats_retire number).external]
    exact hrestart

lemma refreshed (h : ForallSeats p run)
    (hsubst : ∀ n g c, p n g c → q n g (c.subst run.bindings)) : ForallSeats q run.refreshed := by
  intro seat hseat
  obtain ⟨old, hold, rfl⟩ := List.mem_map.1 hseat
  exact hsubst _ _ _ (h old hold)

/-- What holds of every contract after substituting the bindings holds after propagating them. -/
lemma propagate (h : ForallSeats p run)
    (hsubst : ∀ n g c, p n g c → q n g (c.subst run.bindings))
    (hrestart : SurvivesRestarts q run.external) : ForallSeats q run.propagate := by
  rw [propagate_eq]
  exact (h.refreshed hsubst).retireAll hrestart _

/-- What substituting the bindings and restarting keep holds at the end of a step. -/
lemma wrapUp (h : ForallSeats p run)
    (hsubst : ∀ n g c, p n g c → p n g (c.subst run.bindings))
    (hrestart : SurvivesRestarts p run.external) (before : Bindings) (numbers : List Nat) :
    ForallSeats p (run.wrapUp before numbers) := by
  have hretired := h.retireAll hrestart numbers
  have hframe := run.reseats_retireAll numbers
  rcases Nat.lt_or_ge before.size run.bindings.size with hlt | hle
  · rw [wrapUp_of_lt hlt]
    refine hretired.propagate ?_ ?_
    · rw [hframe.bindings]
      exact hsubst
    · rw [hframe.external]
      exact hrestart
  · rw [wrapUp_of_le hle]
    exact hretired

lemma join (h : ForallSeats p run) {generator : Generator}
    (hg : p run.nextNumber generator generator.contract) : ForallSeats p (run.join generator) := by
  intro seat hseat
  rcases List.mem_append.1 hseat with hseat | hseat
  · exact h seat hseat
  · obtain rfl := List.mem_singleton.1 hseat
    exact hg

lemma mono (h : ForallSeats p run) (hpq : ∀ n g c, p n g c → q n g c) : ForallSeats q run :=
  fun seat hseat => hpq _ _ _ (h seat hseat)

end ForallSeats

/-! ### Numbers -/

/-- The numbers of the live seats ascend, and the next number is greater than all of them. -/
structure Numbered (run : Run) : Prop where
  ascending : (run.live.map Seat.number).Pairwise (· < ·)
  bound : ∀ seat ∈ run.live, seat.number < run.nextNumber

@[simp]
lemma put_numbers (run : Run) (number : Nat) (contract : Contract) :
    (run.put number contract).live.map Seat.number = run.live.map Seat.number := by
  rw [put, List.map_map]
  refine List.map_congr_left fun seat _ => ?_
  rw [Function.comp_apply]
  split <;> rfl

namespace Numbered

variable {run : Run}

lemma nodup (h : Numbered run) : (run.live.map Seat.number).Nodup :=
  List.Pairwise.imp (fun {_ _} => Nat.ne_of_lt) h.ascending

/-- A number belongs to one seat only. -/
lemma eq_of_number_eq (h : Numbered run) {seat other : Seat} (hseat : seat ∈ run.live)
    (hother : other ∈ run.live) (heq : seat.number = other.number) : seat = other :=
  List.inj_on_of_nodup_map h.nodup hseat hother heq

lemma seat?_eq_some (h : Numbered run) {seat : Seat} (hseat : seat ∈ run.live) :
    run.seat? seat.number = some seat := by
  cases hfind : run.seat? seat.number with
  | none =>
    have hnot := List.find?_eq_none.1 hfind seat hseat
    exact absurd (beq_self_eq_true seat.number) hnot
  | some other =>
    obtain ⟨hother, hnumber⟩ := mem_of_seat?_eq_some hfind
    rw [h.eq_of_number_eq hother hseat hnumber]

/-- The numbers of some of the seats, under the same next number. -/
lemma of_sublist (h : Numbered run) {run' : Run} (hnext : run'.nextNumber = run.nextNumber)
    (hsub : (run'.live.map Seat.number).Sublist (run.live.map Seat.number)) : Numbered run' where
  ascending := h.ascending.sublist hsub
  bound := by
    intro seat hseat
    obtain ⟨old, hold, heq⟩ := List.mem_map.1 (hsub.subset (List.mem_map_of_mem hseat))
    rw [hnext, ← heq]
    exact h.bound old hold

lemma put (h : Numbered run) (number : Nat) (contract : Contract) :
    Numbered (run.put number contract) :=
  h.of_sublist rfl (by rw [put_numbers])

lemma leave (h : Numbered run) (number : Nat) : Numbered (run.leave number) :=
  h.of_sublist rfl (List.filter_sublist.map _)

lemma retire (h : Numbered run) (number : Nat) : Numbered (run.retire number) := by
  rcases run.retire_cases number with heq | ⟨seat, -, -, ⟨-, heq⟩ | ⟨-, heq⟩⟩
  · rw [heq]
    exact h
  · rw [heq]
    exact (h.put seat.number _).of_sublist rfl (List.Sublist.refl _)
  · rw [heq]
    exact h.leave number

lemma retireAll (h : Numbered run) (numbers : List Nat) : Numbered (run.retireAll numbers) := by
  induction numbers generalizing run with
  | nil => exact h
  | cons number numbers ih => exact ih (h.retire number)

lemma refreshed (h : Numbered run) : Numbered run.refreshed := by
  refine h.of_sublist rfl ?_
  rw [Run.refreshed, List.map_map]
  exact List.Sublist.refl _

lemma propagate (h : Numbered run) : Numbered run.propagate :=
  h.refreshed.retireAll _

lemma wrapUp (h : Numbered run) (before : Bindings) (numbers : List Nat) :
    Numbered (run.wrapUp before numbers) := by
  rcases Nat.lt_or_ge before.size run.bindings.size with hlt | hle
  · rw [wrapUp_of_lt hlt]
    exact (h.retireAll numbers).propagate
  · rw [wrapUp_of_le hle]
    exact h.retireAll numbers

lemma join (h : Numbered run) (generator : Generator) : Numbered (run.join generator) where
  ascending := by
    rw [Run.join, List.map_append, List.pairwise_append]
    refine ⟨h.ascending, List.pairwise_singleton _ _, ?_⟩
    intro n hn m hm
    obtain ⟨seat, hseat, rfl⟩ := List.mem_map.1 hn
    obtain rfl := List.mem_singleton.1 hm
    exact h.bound seat hseat
  bound := by
    intro seat hseat
    rcases List.mem_append.1 hseat with hseat | hseat
    · exact Nat.lt_succ_of_lt (h.bound seat hseat)
    · obtain rfl := List.mem_singleton.1 hseat
      exact Nat.lt_succ_self _

lemma joinAll (h : Numbered run) (generators : List Generator) :
    Numbered (run.joinAll generators) := by
  unfold Run.joinAll
  generalize generators.filter _ = seated
  induction seated generalizing run with
  | nil => exact h
  | cons g gs ih => exact ih (h.join g)

end Numbered

/-! ### The list of live seats -/

/-- Each of the other seats has another number. -/
lemma number_ne_of_live {run : Run} (hrun : Numbered run) {seat : Seat} {before after : List Seat}
    (hlive : run.live = before ++ seat :: after) :
    ∀ other ∈ before ++ after, other.number ≠ seat.number := by
  have hascending : (before ++ seat :: after).Pairwise fun a b => a.number < b.number :=
    hlive ▸ List.pairwise_map.1 hrun.ascending
  obtain ⟨-, hafter, hbefore⟩ := List.pairwise_append.1 hascending
  intro other hother
  rcases List.mem_append.1 hother with hother | hother
  · exact Nat.ne_of_lt (hbefore other hother seat List.mem_cons_self)
  · exact Nat.ne_of_gt ((List.pairwise_cons.1 hafter).1 other hother)

/-- Putting a contract on a seat changes this seat only. -/
lemma live_put {run : Run} (hrun : Numbered run) {seat : Seat} (before : List Seat)
    {after : List Seat} (hlive : run.live = before ++ seat :: after) (contract : Contract) :
    (run.put seat.number contract).live =
      before ++ { seat with current := contract } :: after := by
  have hothers : ∀ others ⊆ before ++ after,
      (others.map fun other =>
        if other.number == seat.number then { other with current := contract } else other) =
          others := by
    intro others hmem
    refine (List.map_congr_left fun other hother => ?_).trans (List.map_id _)
    exact if_neg (by simpa using number_ne_of_live hrun hlive other (hmem hother))
  rw [put, hlive, List.map_append, List.map_cons, hothers before (List.subset_append_left ..),
    hothers after (List.subset_append_right ..), if_pos (beq_self_eq_true _)]

/-- A seat that leaves is the only one to leave. -/
lemma live_leave {run : Run} (hrun : Numbered run) {seat : Seat} (before : List Seat)
    {after : List Seat} (hlive : run.live = before ++ seat :: after) :
    (run.leave seat.number).live = before ++ after := by
  rw [leave, hlive, List.filter_append, List.filter_cons_of_neg (by simp), ← List.filter_append,
    List.filter_eq_self]
  intro other hother
  simpa using number_ne_of_live hrun hlive other hother

/-- Retiring the first seat, whose generator is finite, makes it leave if it has finished. -/
lemma live_retire {run : Run} (hrun : Numbered run) {seat : Seat} {after : List Seat}
    (hlive : run.live = seat :: after) (hfinite : seat.generator.infinite = false) :
    (run.retire seat.number).live = if seat.current.isTerminal then after else seat :: after := by
  have hleave : (run.leave seat.number).live = after := live_leave hrun [] hlive
  have hseat : seat ∈ run.live := hlive ▸ List.mem_cons_self
  rw [retire, hrun.seat?_eq_some hseat]
  dsimp only
  rw [hfinite]
  split
  · exact hleave
  · exact hlive

/-- Where no seat is finished, there is none to retire. -/
lemma retireAll_of_unfinished {run : Run}
    (hunfinished : ∀ seat ∈ run.live, seat.current.isTerminal = false) (numbers : List Nat) :
    run.retireAll numbers = run := by
  refine List.foldl_fixed' (fun number => ?_) numbers
  rcases run.retire_cases number with hsame | ⟨seat, hfound, hterminal, -⟩
  · exact hsame
  · rw [hunfinished seat (mem_of_seat?_eq_some hfound).1] at hterminal
    cases hterminal

/-- At the end of a step without new bindings, the first seat leaves if it is the one that has
finished. -/
lemma live_wrapUp_cons {run : Run} (hrun : Numbered run) {before : Bindings}
    (hbindings : run.bindings.size ≤ before.size) {seat : Seat} {after : List Seat}
    (hlive : run.live = seat :: after) (hfinite : seat.generator.infinite = false)
    (hterminal : seat.current.isTerminal = true)
    (hafter : ∀ other ∈ after, other.current.isTerminal = false) (numbers : List Nat) :
    (run.wrapUp before (seat.number :: numbers)).live = after := by
  have hleft := live_retire hrun hlive hfinite
  rw [if_pos hterminal] at hleft
  rw [wrapUp_of_le hbindings, retireAll_cons, retireAll_of_unfinished (hleft ▸ hafter), hleft]

/-! ### Retired seats are gone -/

/-- If the generator is infinite, the fresh copies that it starts over from are not finished. -/
def Resumable (external : List String) (generator : Generator) : Prop :=
  generator.infinite = true →
    ∀ k, (generator.contract.freshen k external).isTerminal = false

lemma resumable_of_finite {external : List String} {generator : Generator}
    (h : generator.infinite = false) : Resumable external generator := by
  intro hinfinite
  rw [h] at hinfinite
  cases hinfinite

/-- A generator that has finished does not keep its seat when it is retired, unless it starts
over. -/
lemma isTerminal_eq_false_of_mem_retire {run : Run} (hrun : Numbered run) {number : Nat}
    {seat : Seat} (hseat : seat ∈ (run.retire number).live) (hnumber : seat.number = number)
    (hresumable : Resumable run.external seat.generator) : seat.current.isTerminal = false := by
  rcases run.retire_cases number with heq | ⟨old, hold, -, ⟨hinfinite, heq⟩ | ⟨-, heq⟩⟩
  · rw [heq] at hseat
    by_contra hnot
    rw [Bool.not_eq_false] at hnot
    have hfound : run.seat? number = some seat := hnumber ▸ hrun.seat?_eq_some hseat
    cases hinfinite : seat.generator.infinite with
    | true =>
      -- The count of restarts tells that the seat has started over.
      have hrestart : run.retire number = run.restart seat := by
        rw [Run.retire, hfound]
        simp [hnot, hinfinite]
      have hcount : run.restarts = run.restarts + 1 :=
        congrArg Run.restarts (heq.symm.trans hrestart)
      omega
    | false =>
      have hleft : run.retire number = run.leave number := by
        rw [Run.retire, hfound]
        simp [hnot, hinfinite]
      rw [← heq, hleft] at hseat
      have := (List.mem_filter.1 hseat).2
      simp [hnumber] at this
  · -- The seat that started over has the generator of the seat that finished.
    rw [heq] at hseat
    obtain ⟨other, hother, rfl⟩ := List.mem_map.1 hseat
    obtain ⟨hmem, holdnumber⟩ := mem_of_seat?_eq_some hold
    have hothernumber : other.number = number := by
      rw [← hnumber]
      split <;> rfl
    obtain rfl := hrun.eq_of_number_eq hother hmem (hothernumber.trans holdnumber.symm)
    simp only [beq_self_eq_true, if_true] at hresumable ⊢
    exact hresumable hinfinite _
  · rw [heq] at hseat
    have := (List.mem_filter.1 hseat).2
    simp [hnumber] at this

/-- Retiring a seat leaves the seats with other numbers alone. -/
lemma mem_of_mem_retire {run : Run} {number : Nat} {seat : Seat}
    (hseat : seat ∈ (run.retire number).live) (hnumber : seat.number ≠ number) :
    seat ∈ run.live := by
  rcases run.retire_cases number with heq | ⟨old, hold, -, ⟨-, heq⟩ | ⟨-, heq⟩⟩
  · exact heq ▸ hseat
  · rw [heq] at hseat
    have holdnumber := (mem_of_seat?_eq_some hold).2
    exact mem_of_mem_put hseat (holdnumber ▸ hnumber)
  · rw [heq] at hseat
    exact List.mem_of_mem_filter hseat

lemma mem_of_mem_retireAll {run : Run} {numbers : List Nat} {seat : Seat}
    (hseat : seat ∈ (run.retireAll numbers).live) (hnumber : seat.number ∉ numbers) :
    seat ∈ run.live := by
  induction numbers generalizing run with
  | nil => exact hseat
  | cons number numbers ih =>
    obtain ⟨hne, hnot⟩ := not_or.1 (mt List.mem_cons.2 hnumber)
    exact mem_of_mem_retire (ih hseat hnot) hne

/-- Of the seats that are retired together, those that have finished are gone or have started
over. -/
lemma isTerminal_eq_false_of_mem_retireAll {run : Run} (hrun : Numbered run) {numbers : List Nat}
    {seat : Seat} (hseat : seat ∈ (run.retireAll numbers).live) (hnumber : seat.number ∈ numbers)
    (hresumable : Resumable run.external seat.generator) : seat.current.isTerminal = false := by
  induction numbers generalizing run with
  | nil => cases hnumber
  | cons number numbers ih =>
    by_cases hmem : seat.number ∈ numbers
    · refine ih (hrun.retire number) hseat hmem ?_
      rw [(run.reseats_retire number).external]
      exact hresumable
    · have hfirst : seat.number = number := (List.mem_cons.1 hnumber).resolve_right hmem
      have hlive : seat ∈ (run.retire number).live := mem_of_mem_retireAll hseat hmem
      exact isTerminal_eq_false_of_mem_retire hrun hlive hfirst hresumable

/-- After the bindings have been propagated, no live seat has finished. -/
lemma isTerminal_eq_false_of_mem_propagate {run : Run} (hrun : Numbered run) {seat : Seat}
    (hseat : seat ∈ run.propagate.live) (hresumable : Resumable run.external seat.generator) :
    seat.current.isTerminal = false := by
  rw [propagate_eq] at hseat
  refine isTerminal_eq_false_of_mem_retireAll hrun.refreshed hseat ?_ hresumable
  by_contra hnot
  exact hnot (List.mem_map_of_mem (mem_of_mem_retireAll hseat hnot))

/-- At the end of a step no seat is finished, provided that all seats but those that are retired
were not finished before. -/
lemma isTerminal_eq_false_of_mem_wrapUp {run : Run} (hrun : Numbered run) {numbers : List Nat}
    (hothers : ∀ seat ∈ run.live, seat.number ∉ numbers → seat.current.isTerminal = false)
    {before : Bindings} {seat : Seat} (hseat : seat ∈ (run.wrapUp before numbers).live)
    (hresumable : Resumable run.external seat.generator) : seat.current.isTerminal = false := by
  rcases Nat.lt_or_ge before.size run.bindings.size with hlt | hle
  · rw [wrapUp_of_lt hlt] at hseat
    rw [← (run.reseats_retireAll numbers).external] at hresumable
    exact isTerminal_eq_false_of_mem_propagate (hrun.retireAll numbers) hseat hresumable
  · rw [wrapUp_of_le hle] at hseat
    by_cases hretired : seat.number ∈ numbers
    · exact isTerminal_eq_false_of_mem_retireAll hrun hseat hretired hresumable
    · exact hothers seat (mem_of_mem_retireAll hseat hretired) hretired

end Run

end ContractComposition
