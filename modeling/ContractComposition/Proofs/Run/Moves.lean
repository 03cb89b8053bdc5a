import ContractComposition.Proofs.Contracts
import ContractComposition.Proofs.NormalForm
import ContractComposition.Proofs.Run.Seating

/-!
# Moves

An action is carried out in three stages: values are moved, the step is counted, and the step is
wrapped up. The step budget plays a role in the second stage only. `Run.Moves` describes the first
stage, and `Run.commit_eq_ok_iff` puts the three together: an action can be carried out exactly if
there is a move whose step is within the budget. So a run whose moves take away from a weight comes
to its end (`Run.exists_drive_of_moves`).

Moves are also what is recorded. The trace and the count of steps grow in the first stage, by the
records of a nested run if one is taken over (`Run.records_of_prepare`) and then by those of the
step itself.
-/

namespace ContractComposition

namespace Run

variable {run next prepared : Run} {options : Options}

/-! ### The three stages -/

/-- What yields in an offer has nothing left to receive. -/
lemma receives_eq_void_of_mem_offers {offer : Offer} (h : offer ∈ run.offers) :
    offer.seat.current.receives = .void := by
  obtain ⟨-, hyielded⟩ := mem_offers.1 h
  exact Ty.isVoid_iff.1 (Contract.produce?_eq_some_iff.1 hyielded).1

/-- Regardless of the budget, the action leads to the state `moved`, after which the seats with the
given numbers are to be retired. -/
def Moves (run : Run) (compose : Ty → Run → Except Halt Run) (moved : Run) (numbers : List Nat) :
    Action → Prop
  | .exchange offer receiver received =>
    moved = run.exchanged offer receiver received ∧ numbers = [offer.seat.number, receiver.number]
  | .spawn offer contracts =>
    ∃ prepared started,
      run.prepare (compose offer.value) offer.seat.generator.name offer.value
          (members offer.seat.generator.name contracts) = .ok (prepared, started) ∧
        moved = prepared.seated offer started ∧
        numbers = offer.seat.number ::
          (List.range started.length).map fun i => prepared.nextNumber + i
  | .absorb offer absorber =>
    moved = run.absorbed offer absorber ∧ numbers = [offer.seat.number]
  | .emit offer => moved = run.handedOut offer ∧ numbers = [offer.seat.number]

/-- An action leads to one state only. -/
lemma Moves.unique {compose : Ty → Run → Except Halt Run} {action : Action} {moved moved' : Run}
    {numbers numbers' : List Nat} (h : run.Moves compose moved numbers action)
    (h' : run.Moves compose moved' numbers' action) : moved = moved' ∧ numbers = numbers' := by
  cases action with
  | exchange | absorb | emit =>
    obtain ⟨rfl, rfl⟩ := h
    obtain ⟨rfl, rfl⟩ := h'
    exact ⟨rfl, rfl⟩
  | spawn offer contracts =>
    obtain ⟨prepared, started, hprepare, rfl, rfl⟩ := h
    obtain ⟨prepared', started', hprepare', rfl, rfl⟩ := h'
    rw [hprepare] at hprepare'
    cases hprepare'
    exact ⟨rfl, rfl⟩

lemma spawn_eq_ok_iff {compose : Ty → Run → Except Halt Run} {offer : Offer}
    {contracts : List Contract} :
    run.spawn options compose offer contracts = .ok next ↔
      ∃ moved numbers, run.Moves compose moved numbers (.spawn offer contracts) ∧
        moved.steps ≤ options.stepBudget ∧ next = moved.wrapUp run.bindings numbers := by
  unfold spawn
  dsimp only
  cases hprepare : run.prepare (compose offer.value) offer.seat.generator.name offer.value
      (members offer.seat.generator.name contracts) with
  | error halt =>
    constructor
    · intro h
      cases h
    · rintro ⟨moved, numbers, ⟨prepared, started, hprepared, -⟩, -⟩
      rw [hprepare] at hprepared
      cases hprepared
  | ok result =>
    obtain ⟨prepared, started⟩ := result
    have hbindings := seated_bindings prepared offer started
    refine tick_bind_eq_ok_iff.trans ?_
    constructor
    · rintro ⟨hbudget, hnext⟩
      refine ⟨_, _, ⟨prepared, started, hprepare, rfl, rfl⟩, hbudget, ?_⟩
      rw [wrapUp, hbindings]
      exact hnext
    · rintro ⟨moved, numbers, ⟨prepared', started', hprepared, rfl, rfl⟩, hbudget, hnext⟩
      rw [hprepare] at hprepared
      cases hprepared
      rw [wrapUp, hbindings] at hnext
      exact ⟨hbudget, hnext⟩

/-- An action is carried out by a move, a step within the budget, and wrapping up. -/
theorem commit_eq_ok_iff {compose : Ty → Run → Except Halt Run} {action : Action} :
    run.commit options compose action = .ok next ↔
      ∃ moved numbers, run.Moves compose moved numbers action ∧
        moved.steps ≤ options.stepBudget ∧ next = moved.wrapUp run.bindings numbers := by
  cases action with
  | spawn offer contracts => exact spawn_eq_ok_iff
  | exchange offer receiver received =>
    constructor
    · intro h
      obtain ⟨hbudget, hnext⟩ := exchange_eq_ok h
      exact ⟨_, _, ⟨rfl, rfl⟩, hbudget, hnext⟩
    · rintro ⟨moved, numbers, ⟨rfl, rfl⟩, hbudget, hnext⟩
      exact tick_bind_eq_ok_iff.2 ⟨hbudget, hnext⟩
  | absorb offer absorber =>
    constructor
    · intro h
      obtain ⟨hbudget, hnext⟩ := absorb_eq_ok h
      exact ⟨_, _, ⟨rfl, rfl⟩, hbudget, hnext⟩
    · rintro ⟨moved, numbers, ⟨rfl, rfl⟩, hbudget, hnext⟩
      have hsame : (run.absorbed offer absorber).bindings.size ≤ run.bindings.size := Nat.le_refl _
      rw [wrapUp_of_le hsame] at hnext
      exact tick_bind_eq_ok_iff.2 ⟨hbudget, hnext⟩
  | emit offer =>
    constructor
    · intro h
      obtain ⟨hbudget, hnext⟩ := emit_eq_ok h
      exact ⟨_, _, ⟨rfl, rfl⟩, hbudget, hnext⟩
    · rintro ⟨moved, numbers, ⟨rfl, rfl⟩, hbudget, hnext⟩
      have hsame : (run.handedOut offer).bindings.size ≤ run.bindings.size := Nat.le_refl _
      rw [wrapUp_of_le hsame] at hnext
      exact tick_bind_eq_ok_iff.2 ⟨hbudget, hnext⟩

/-- Whatever is carried out, the count of steps stays within the budget. -/
lemma steps_le_of_commit {compose : Ty → Run → Except Halt Run} {action : Action}
    (h : run.commit options compose action = .ok next) : next.steps ≤ options.stepBudget := by
  obtain ⟨moved, numbers, -, hbudget, rfl⟩ := commit_eq_ok_iff.1 h
  rw [(moved.reseats_wrapUp _ _).steps]
  exact hbudget

/-- A run comes to its end if every action that is chosen is carried out in one step, and takes away
from a weight that the budget allows for. -/
theorem exists_drive_of_moves {compose : Ty → Run → Except Halt Run} {p : Run → Prop}
    {μ : Run → Nat}
    (hmoves : ∀ {current : Run} {action : Action}, p current →
      current.nextAction? options.hierarchy = some action →
      ∃ moved numbers, current.Moves compose moved numbers action ∧
        moved.steps = current.steps + 1 ∧ μ (moved.wrapUp current.bindings numbers) < μ current ∧
        (current.commit options compose action = .ok (moved.wrapUp current.bindings numbers) →
          p (moved.wrapUp current.bindings numbers)))
    {fuel : Nat} (h : p run) (hfuel : μ run < fuel)
    (hbudget : run.steps + μ run ≤ options.stepBudget) :
    ∃ final, run.drive options compose fuel = .ok final := by
  induction fuel generalizing run with
  | zero => exact absurd hfuel (Nat.not_lt_zero _)
  | succ fuel ih =>
    cases haction : run.nextAction? options.hierarchy with
    | none => exact ⟨run, drive_succ_eq_ok_iff.2 (.inl ⟨haction, rfl⟩)⟩
    | some action =>
      obtain ⟨moved, numbers, hmoved, hsteps, hless, hnext⟩ := hmoves h haction
      have hcommit : run.commit options compose action = .ok (moved.wrapUp run.bindings numbers) :=
        commit_eq_ok_iff.2 ⟨moved, numbers, hmoved, by omega, rfl⟩
      have hcount : (moved.wrapUp run.bindings numbers).steps = run.steps + 1 :=
        (moved.reseats_wrapUp _ _).steps.trans hsteps
      obtain ⟨final, hfinal⟩ := ih (hnext hcommit) (by omega) (by omega)
      exact ⟨final, drive_succ_eq_ok_iff.2 (.inr ⟨action, _, haction, hcommit, hfinal⟩)⟩

/-! ### Records -/

lemma joinAll_records (run : Run) (generators : List Generator) :
    (run.joinAll generators).steps = run.steps ∧ (run.joinAll generators).trace = run.trace := by
  obtain ⟨live, number, heq⟩ := run.exists_joinAll_eq generators
  rw [heq]
  exact ⟨rfl, rfl⟩

/-- A nested run goes on counting steps and begins a trace of its own. -/
lemma nest_records (run : Run) (generators : List Generator) :
    (run.nest generators).steps = run.steps ∧ (run.nest generators).trace = #[] :=
  joinAll_records _ generators

lemma start_records (generators : List Generator) (bindings : Bindings) :
    (start generators bindings).steps = 0 ∧ (start generators bindings).trace = #[] :=
  joinAll_records _ generators

/-- At its beginning a run has one round more than the budget. -/
lemma rounds_start (generators : List Generator) (bindings : Bindings) (options : Options) :
    (start generators bindings).rounds options = options.stepBudget + 1 := by
  rw [rounds, (start_records generators bindings).1, Nat.sub_zero]

/-- What was recorded once generators are ready to be started: nothing new if they join one by one,
and the records of the nested run if it has composed them. -/
lemma records_of_prepare {compose : Run → Except Halt Run} {parent : String} {value : Ty}
    {generators started : List Generator}
    (h : run.prepare compose parent value generators = .ok (prepared, started)) :
    prepared.steps = run.steps ∧ prepared.trace = run.trace ∧ started = generators ∨
      ∃ nested composite, value.isTuple = true ∧ compose (run.nest generators) = .ok nested ∧
        prepared.steps = nested.steps ∧ prepared.trace = run.trace ++ nested.trace ∧
        started = [composite] := by
  rcases prepare_cases h with ⟨-, rfl, rfl⟩ | ⟨nested, htuple, hnested, hadopt⟩
  · exact .inl ⟨rfl, rfl, rfl⟩
  · unfold adopt at hadopt
    split at hadopt
    · cases hadopt
      exact .inr ⟨nested, _, htuple, hnested, rfl, rfl, rfl⟩
    · cases hadopt
      exact .inl ⟨rfl, rfl, rfl⟩

/-- The event that a seat did something in a step. -/
def seatEvent (step : Nat) (kind : EventKind) (seat : Seat) : Event :=
  ⟨step, kind, some seat.generator.name, seat.current⟩

/-- The event that a generator is started in a step. -/
def startEvent (step : Nat) (generator : Generator) : Event :=
  ⟨step, .resume, some generator.name, generator.contract⟩

lemma foldl_seatStarted_records (run : Run) (generators : List Generator) :
    (generators.foldl seatStarted run).steps = run.steps ∧
      (generators.foldl seatStarted run).trace.toList =
        run.trace.toList ++ generators.map (startEvent (run.steps + 1)) := by
  induction generators generalizing run with
  | nil => exact ⟨rfl, (List.append_nil _).symm⟩
  | cons g gs ih =>
    obtain ⟨hsteps, htrace⟩ := ih (run.seatStarted g)
    refine ⟨hsteps, ?_⟩
    have hfirst : (run.seatStarted g).trace.toList =
        run.trace.toList ++ [startEvent (run.steps + 1) g] := Array.toList_push
    rw [List.foldl_cons, htrace, hfirst, List.append_assoc]
    rfl

/-- Starting generators is recorded by what the seat that yields them did, followed by a record for
each of them. -/
lemma seated_records (run : Run) (offer : Offer) (started : List Generator) :
    (run.seated offer started).steps = run.steps + 1 ∧
      (run.seated offer started).trace.toList = run.trace.toList ++
        seatEvent (run.steps + 1) .yield offer.seat ::
          started.map (startEvent (run.steps + 1)) := by
  obtain ⟨hsteps, htrace⟩ := foldl_seatStarted_records
    (run |>.put offer.seat.number offer.yielded.successor |>.recordSeat .yield offer.seat) started
  refine ⟨congrArg (· + 1) hsteps, htrace.trans ?_⟩
  have hyielder : (run |>.put offer.seat.number offer.yielded.successor
      |>.recordSeat .yield offer.seat).trace.toList = run.trace.toList ++
        [seatEvent (run.steps + 1) .yield offer.seat] :=
    Array.toList_push
  rw [hyielder, List.append_assoc]
  rfl

end Run

end ContractComposition
