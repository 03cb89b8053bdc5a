import ContractComposition.Proofs.Run.Steps

/-!
# Seating generators

Generators get seats at two occasions: all that are given at the beginning of a run, and those that
a step starts. `Run.Begins` describes the first state of a run, be it one of its own or one that is
nested in a step. Every seat gets the next number, and numbers are not given away again, so the
numbers of the live seats ascend in every state (`Run.Numbered.of_commit`) and a seat can be
followed through a run by its number.
-/

namespace ContractComposition

namespace Run

/-! ### Joining a run -/

namespace ForallSeats

variable {p : Nat → Generator → Contract → Prop} {run : Run}

lemma joinAll (h : ForallSeats p run) {generators : List Generator}
    (hg : ∀ g ∈ generators, g.contract.isTerminal = false → ∀ n, p n g g.contract) :
    ForallSeats p (run.joinAll generators) := by
  have hseated : ∀ g ∈ generators.filter fun g => !g.contract.isTerminal,
      ∀ n, p n g g.contract := by
    intro g hmem
    obtain ⟨hgenerator, hunfinished⟩ := List.mem_filter.1 hmem
    exact hg g hgenerator (by simpa using hunfinished)
  unfold Run.joinAll
  generalize generators.filter _ = seated at hseated
  induction seated generalizing run with
  | nil => exact h
  | cons g gs ih =>
    have hall := List.forall_mem_cons.1 hseated
    exact ih (h.join (hall.1 _)) hall.2

/-- Generators that are started get the numbers from the next one on. -/
lemma seatStarted (h : ForallSeats p run) {generators : List Generator}
    (hg : ∀ g ∈ generators, ∀ n, run.nextNumber ≤ n → p n g g.contract) :
    ForallSeats p (generators.foldl Run.seatStarted run) := by
  induction generators generalizing run with
  | nil => exact h
  | cons g gs ih =>
    have hall := List.forall_mem_cons.1 hg
    have hjoin : ForallSeats p (run.seatStarted g) := h.join (hall.1 _ (Nat.le_refl _))
    exact ih hjoin fun g' hg' n hn => hall.2 g' hg' n (Nat.le_of_succ_le hn)

end ForallSeats

/-- Joining a run changes nothing but its seats. -/
lemma exists_joinAll_eq (run : Run) (generators : List Generator) :
    ∃ live number,
      run.joinAll generators = { run with live := live, nextNumber := number } := by
  unfold joinAll
  generalize generators.filter _ = seated
  induction seated generalizing run with
  | nil => exact ⟨run.live, run.nextNumber, rfl⟩
  | cons g gs ih => exact ih (run.join g)

lemma joinAll_frame (run : Run) (generators : List Generator) :
    (run.joinAll generators).bindings = run.bindings ∧
      (run.joinAll generators).external = run.external ∧
      (run.joinAll generators).emitted = run.emitted := by
  obtain ⟨live, number, heq⟩ := run.exists_joinAll_eq generators
  rw [heq]
  exact ⟨rfl, rfl, rfl⟩

/-- If no generator is finished, all of them are seated in their order. -/
lemma map_live_joinAll (run : Run) {generators : List Generator}
    (hne : ∀ g ∈ generators, g.contract.isTerminal = false) :
    ((run.joinAll generators).live.map fun seat => (seat.generator, seat.current)) =
      (run.live.map fun seat => (seat.generator, seat.current)) ++
        generators.map fun g => (g, g.contract) := by
  have hall : generators.filter (fun g => !g.contract.isTerminal) = generators :=
    List.filter_eq_self.2 fun g hg => by rw [hne g hg]; rfl
  rw [joinAll, hall]
  clear hne hall
  induction generators generalizing run with
  | nil => exact (List.append_nil _).symm
  | cons g gs ih =>
    have hfirst : ((run.join g).live.map fun seat => (seat.generator, seat.current)) =
        (run.live.map fun seat => (seat.generator, seat.current)) ++ [(g, g.contract)] := by
      rw [join, List.map_append]
      rfl
    rw [List.foldl_cons, ih, hfirst, List.append_assoc]
    rfl

/-- No more numbers are given away than there are generators. -/
lemma joinAll_nextNumber_le (run : Run) (generators : List Generator) :
    (run.joinAll generators).nextNumber ≤ run.nextNumber + generators.length := by
  have hseated : ∀ seated : List Generator,
      (seated.foldl join run).nextNumber = run.nextNumber + seated.length := by
    intro seated
    induction seated generalizing run with
    | nil => rfl
    | cons g gs ih =>
      have hfirst : (run.join g).nextNumber = run.nextNumber + 1 := rfl
      rw [List.foldl_cons, ih, hfirst, List.length_cons]
      omega
  have hlength := List.length_filter_le (fun g => !g.contract.isTerminal) generators
  rw [joinAll, hseated]
  omega

/-! ### Beginnings -/

/-- The run has just begun with the given generators and bindings. It may be nested in another run,
whose counters it then goes on with. -/
def Begins (generators : List Generator) (bindings : Bindings) (first : Run) : Prop :=
  ∃ external steps restarts, first =
    ({ bindings := bindings, external := external, steps := steps,
       restarts := restarts } : Run).joinAll generators

lemma begins_start (generators : List Generator) (bindings : Bindings) :
    (start generators bindings).Begins generators bindings :=
  ⟨bindings.names, 0, 0, rfl⟩

lemma begins_nest (run : Run) (generators : List Generator) :
    (run.nest generators).Begins generators run.bindings :=
  ⟨run.external, run.steps, run.restarts, rfl⟩

namespace Begins

variable {first : Run} {generators : List Generator} {given : Bindings}

lemma bindings (h : first.Begins generators given) : first.bindings = given := by
  obtain ⟨external, steps, restarts, rfl⟩ := h
  exact (joinAll_frame _ generators).1

lemma emitted (h : first.Begins generators given) : first.emitted = #[] := by
  obtain ⟨external, steps, restarts, rfl⟩ := h
  exact (joinAll_frame _ generators).2.2

lemma warnings (h : first.Begins generators given) : first.warnings = #[] := by
  obtain ⟨external, steps, restarts, rfl⟩ := h
  obtain ⟨live, number, heq⟩ := exists_joinAll_eq _ generators
  rw [heq]

/-- At the beginning, every seat has the contract of one of the generators, one that is not
finished. -/
lemma forallSeats (h : first.Begins generators given) {p : Nat → Generator → Contract → Prop}
    (hg : ∀ g ∈ generators, g.contract.isTerminal = false → ∀ n, p n g g.contract) :
    ForallSeats p first := by
  obtain ⟨external, steps, restarts, rfl⟩ := h
  exact ForallSeats.joinAll (fun _ hseat => nomatch hseat) hg

lemma numbered (h : first.Begins generators given) : Numbered first := by
  obtain ⟨external, steps, restarts, rfl⟩ := h
  exact Numbered.joinAll ⟨List.Pairwise.nil, List.forall_mem_nil _⟩ generators

end Begins

/-! ### Numbers of seats along a run -/

/-- Seating generators keeps the numbers of seats in order. -/
lemma Numbered.seatStarted {run : Run} (h : Numbered run) (generators : List Generator) :
    Numbered (generators.foldl Run.seatStarted run) ∧
      run.nextNumber ≤ (generators.foldl Run.seatStarted run).nextNumber := by
  induction generators generalizing run with
  | nil => exact ⟨h, Nat.le_refl _⟩
  | cons g gs ih =>
    have hjoin : Numbered (run.seatStarted g) := (h.join g).of_sublist rfl (List.Sublist.refl _)
    obtain ⟨hnumbered, hnext⟩ := ih hjoin
    exact ⟨hnumbered, Nat.le_of_succ_le hnext⟩

namespace Numbered

variable {run : Run}

lemma exchanged (h : Numbered run) (offer : Offer) (receiver : Seat) (received : Received) :
    Numbered (run.exchanged offer receiver received) :=
  ((h.put _ _).put _ _).of_sublist rfl (List.Sublist.refl _)

lemma absorbed (h : Numbered run) (offer : Offer) (absorber : Seat) :
    Numbered (run.absorbed offer absorber) :=
  ((h.put _ _).put _ _).of_sublist rfl (List.Sublist.refl _)

lemma handedOut (h : Numbered run) (offer : Offer) : Numbered (run.handedOut offer) :=
  (h.put _ _).of_sublist rfl (List.Sublist.refl _)

lemma seated (h : Numbered run) (offer : Offer) (started : List Generator) :
    Numbered (run.seated offer started) ∧
      run.nextNumber ≤ (run.seated offer started).nextNumber := by
  have hyielder : Numbered (run
      |>.put offer.seat.number offer.yielded.successor |>.recordSeat .yield offer.seat) :=
    (h.put _ _).of_sublist rfl (List.Sublist.refl _)
  obtain ⟨hjoined, hgrown⟩ := hyielder.seatStarted started
  exact ⟨hjoined.of_sublist rfl (List.Sublist.refl _), hgrown⟩

/-- The run into which generators are to be seated has the seats of the old one. -/
lemma prepare (h : Numbered run) {prepared : Run} {compose : Run → Except Halt Run}
    {parent : String} {value : Ty} {generators started : List Generator}
    (hprepare : run.prepare compose parent value generators = .ok (prepared, started)) :
    Numbered prepared := by
  obtain ⟨⟨hlive, -, -, hnext⟩, -⟩ := prepare_eq_ok hprepare
  exact h.of_sublist hnext (by rw [hlive])

/-- Whatever is done, the numbers of seats stay in order, and numbers that were given away are not
given away again. -/
lemma of_commit {next : Run} {options : Options} {compose : Ty → Run → Except Halt Run}
    {action : Action} (h : Numbered run)
    (hcommit : run.commit options compose action = .ok next) :
    Numbered next ∧ run.nextNumber ≤ next.nextNumber := by
  cases action with
  | exchange offer receiver received =>
    obtain ⟨-, rfl⟩ := exchange_eq_ok hcommit
    refine ⟨(h.exchanged offer receiver received).wrapUp _ _, ?_⟩
    rw [(reseats_wrapUp _ _ _).nextNumber]
    exact Nat.le_refl run.nextNumber
  | spawn offer contracts =>
    rw [commit] at hcommit
    obtain ⟨prepared, started, numbers, hprepare, rfl⟩ := spawn_eq_ok hcommit
    obtain ⟨⟨-, -, -, hnext⟩, -⟩ := prepare_eq_ok hprepare
    obtain ⟨hseated, hgrown⟩ := (h.prepare hprepare).seated offer started
    refine ⟨hseated.wrapUp _ _, ?_⟩
    rw [(reseats_wrapUp _ _ _).nextNumber, ← hnext]
    exact hgrown
  | absorb offer absorber =>
    obtain ⟨-, rfl⟩ := absorb_eq_ok hcommit
    refine ⟨(h.absorbed offer absorber).wrapUp _ _, ?_⟩
    rw [(reseats_wrapUp _ _ _).nextNumber]
    exact Nat.le_refl run.nextNumber
  | emit offer =>
    obtain ⟨-, rfl⟩ := emit_eq_ok hcommit
    refine ⟨(h.handedOut offer).wrapUp _ _, ?_⟩
    rw [(reseats_wrapUp _ _ _).nextNumber]
    exact Nat.le_refl run.nextNumber

end Numbered

/-- The generators for some contracts have these contracts. -/
lemma contract_mem_of_mem_members {parent : String} {contracts : List Contract} {g : Generator}
    (h : g ∈ members parent contracts) : g.contract ∈ contracts := by
  obtain ⟨⟨contract, i⟩, hmem, rfl⟩ := List.mem_map.1 h
  exact List.fst_mem_of_mem_zipIdx hmem

end Run

end ContractComposition
