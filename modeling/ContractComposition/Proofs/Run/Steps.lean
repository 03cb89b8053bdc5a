import ContractComposition.Proofs.Run.Seats
import ContractComposition.Solve

/-!
# Steps, paths and reachable states

A step of a run is the action that is chosen in its state, carried out. `Run.Allows` says what is
known of an action that is chosen, and there is one lemma for each kind of action that says which
state results from it (`Run.exchange_eq_ok` and its companions): a state in which the seats have got
their new contracts, such as `Run.exchanged`, after it was wrapped up.

`Run.Steps` is the resulting step relation. Runs that are nested in a step are driven to their end
within some depth; which one does not matter. A `Run.Path` lists the actions of a run from its
beginning, and a state is `Run.Reachable` if it occurs in a run or in a run nested in it. Whatever
state `Run.settle` ends in lies at the end of a path (`Run.exists_path_of_settle`).

`Run.settleWithin_rel` is the induction over a whole run, the runs nested in it included: what holds
over each step, provided that it holds over nested runs, holds over every run.
-/

namespace ContractComposition

/-- A computation has a result if one is known after a function was applied to it. -/
lemma exists_of_map_eq_ok {ε α β : Type} {e : Except ε α} {f : α → β} {b : β}
    (h : e.map f = .ok b) : ∃ a, e = .ok a ∧ f a = b := by
  cases e with
  | error => cases h
  | ok a => exact ⟨a, rfl, Except.ok.inj h⟩

lemma exists_of_toOption_eq_some {ε α β : Type} {e : Except ε α} {f : α → β} {b : β}
    (h : e.toOption.map f = some b) : ∃ a, e = .ok a ∧ f a = b := by
  cases e with
  | error => cases h
  | ok a => exact ⟨a, rfl, Option.some.inj h⟩

/-- Checking generators never reports a deadlock. -/
lemma checkGenerators_ne_deadlock (bindings : Bindings) (generators : List Generator)
    (unmatched : List Ty) (blocked : List String) :
    checkGenerators bindings generators ≠ .error (.deadlock unmatched blocked) := by
  induction generators with
  | nil =>
    intro h
    cases h
  | cons g rest ih =>
    rw [checkGenerators]
    split
    · intro h
      cases h
    · exact ih

namespace Action

/-- The offer that an action makes use of. -/
def offer : Action → Offer
  | .exchange offer _ _ => offer
  | .spawn offer _ => offer
  | .absorb offer _ => offer
  | .emit offer => offer

end Action

namespace Run

/-! ### The choice of an action -/

/-- The offers of a run are what its live seats can yield. -/
lemma mem_offers {run : Run} {offer : Offer} :
    offer ∈ run.offers ↔
      offer.seat ∈ run.live ∧ offer.seat.current.produce? run.bindings = some offer.yielded := by
  rw [offers, List.mem_filterMap]
  constructor
  · rintro ⟨seat, hseat, hoffer⟩
    obtain ⟨yielded, hyielded, rfl⟩ := Option.map_eq_some_iff.1 hoffer
    exact ⟨hseat, hyielded⟩
  · rintro ⟨hseat, hyielded⟩
    exact ⟨offer.seat, hseat, by rw [hyielded]; rfl⟩

/-- The first seat makes the first offer. -/
lemma offers_cons {run : Run} {seat : Seat} {others : List Seat}
    (hlive : run.live = seat :: others) {yielded : Yielded}
    (hyielded : seat.current.produce? run.bindings = some yielded) :
    run.offers = ⟨seat, yielded⟩ :: others.filterMap fun other =>
      (other.current.produce? run.bindings).map (Offer.mk other) := by
  rw [offers, hlive, List.filterMap_cons_some]
  rw [hyielded]
  rfl

/-- A seat that is alone hands to the outside what it offers, unless it offers contracts or an open
stream. -/
lemma nextAction?_singleton {run : Run} {seat : Seat} (hlive : run.live = [seat])
    {yielded : Yielded} (hyielded : seat.current.produce? run.bindings = some yielded)
    (hcontracts : yielded.value.contracts? = none) (hbounded : run.isUnbounded seat = false)
    (hierarchy : Hierarchy) : run.nextAction? hierarchy = some (.emit ⟨seat, yielded⟩) := by
  have hoffers : run.offers = [⟨seat, yielded⟩] := offers_cons hlive hyielded
  have hexchange : run.findExchange? hierarchy [⟨seat, yielded⟩] = none := by
    rw [findExchange?, receivers, hlive, List.findSome?_singleton, List.findSome?_eq_none_iff]
    intro other hother
    obtain rfl := List.mem_singleton.1 (List.mem_of_mem_filter hother)
    exact if_pos (beq_self_eq_true _)
  have hspawn : findSpawn? [⟨seat, yielded⟩] = none := by
    rw [findSpawn?, List.findSome?_singleton, Offer.value, hcontracts]
    rfl
  have habsorb : run.findAbsorb? [⟨seat, yielded⟩] = none := by
    rw [findAbsorb?, List.findSome?_singleton, hbounded, hlive,
      List.find?_cons_of_neg (by simp [canAbsorb]), List.find?_nil]
    rfl
  rw [nextAction?, hoffers, hexchange, hspawn, habsorb, findEmit?, List.find?_cons, hbounded]
  rfl

/-- Without seats nothing can be done. -/
lemma nextAction?_nil {run : Run} (hlive : run.live = []) (hierarchy : Hierarchy) :
    run.nextAction? hierarchy = none := by
  rw [nextAction?, offers, hlive]
  rfl

/-- The first seat hands what it offers to the first receiver, if that one accepts it. -/
lemma nextAction?_of_accept? {run : Run} {hierarchy : Hierarchy} {seat receiver : Seat}
    {others receivers : List Seat} (hlive : run.live = seat :: others) {yielded : Yielded}
    (hyielded : seat.current.produce? run.bindings = some yielded)
    (hreceivers : run.receivers = receiver :: receivers) (hnumber : receiver.number ≠ seat.number)
    {received : Received}
    (hreceived : receiver.current.accept? yielded.value run.bindings hierarchy = some received) :
    run.nextAction? hierarchy = some (.exchange ⟨seat, yielded⟩ receiver received) := by
  rw [nextAction?, offers_cons hlive hyielded, findExchange?, hreceivers, List.findSome?_cons,
    List.findSome?_cons, if_neg (by simpa using hnumber), Offer.value, hreceived]
  rfl

/-- What holds of an action that is chosen in the state of a run. -/
def Allows (run : Run) (h : Hierarchy) : Action → Prop
  | .exchange offer receiver received =>
    offer ∈ run.offers ∧ receiver ∈ run.live ∧ receiver.number ≠ offer.seat.number ∧
      receiver.current.accept? offer.value run.bindings h = some received
  | .spawn offer contracts => offer ∈ run.offers ∧ offer.value.contracts? = some contracts
  | .absorb offer absorber =>
    offer ∈ run.offers ∧ run.isUnbounded offer.seat = false ∧ absorber ∈ run.live ∧
      run.canAbsorb offer.seat.number absorber = true
  | .emit offer => offer ∈ run.offers ∧ run.isUnbounded offer.seat = false

lemma allows_of_findExchange? {run : Run} {h : Hierarchy} {action : Action}
    (haction : run.findExchange? h run.offers = some action) : run.Allows h action := by
  obtain ⟨offer, hoffer, haction⟩ := List.exists_of_findSome?_eq_some haction
  obtain ⟨receiver, hreceiver, haction⟩ := List.exists_of_findSome?_eq_some haction
  split at haction
  · cases haction
  · rename_i hnumber
    obtain ⟨received, hreceived, rfl⟩ := Option.map_eq_some_iff.1 haction
    refine ⟨hoffer, List.mem_of_mem_filter hreceiver, ?_, hreceived⟩
    simpa using hnumber

lemma allows_of_findSpawn? {run : Run} {h : Hierarchy} {action : Action}
    (haction : findSpawn? run.offers = some action) : run.Allows h action := by
  obtain ⟨offer, hoffer, haction⟩ := List.exists_of_findSome?_eq_some haction
  obtain ⟨contracts, hcontracts, rfl⟩ := Option.map_eq_some_iff.1 haction
  exact ⟨hoffer, hcontracts⟩

lemma allows_of_findAbsorb? {run : Run} {h : Hierarchy} {action : Action}
    (haction : run.findAbsorb? run.offers = some action) : run.Allows h action := by
  obtain ⟨offer, hoffer, haction⟩ := List.exists_of_findSome?_eq_some haction
  split at haction
  · cases haction
  · rename_i hbounded
    obtain ⟨absorber, habsorber, rfl⟩ := Option.map_eq_some_iff.1 haction
    refine ⟨hoffer, Bool.not_eq_true _ ▸ hbounded, List.mem_of_find?_eq_some habsorber, ?_⟩
    exact List.find?_some habsorber

lemma allows_of_findEmit? {run : Run} {h : Hierarchy} {action : Action}
    (haction : run.findEmit? run.offers = some action) : run.Allows h action := by
  obtain ⟨offer, hoffer, rfl⟩ := Option.map_eq_some_iff.1 haction
  refine ⟨List.mem_of_find?_eq_some hoffer, ?_⟩
  simpa using List.find?_some hoffer

/-- An action that is chosen is allowed. -/
lemma allows_of_nextAction? {run : Run} {h : Hierarchy} {action : Action}
    (haction : run.nextAction? h = some action) : run.Allows h action := by
  rw [nextAction?] at haction
  rcases Option.or_eq_some_iff.1 haction with haction | ⟨-, haction⟩
  · exact allows_of_findExchange? haction
  rcases Option.or_eq_some_iff.1 haction with haction | ⟨-, haction⟩
  · exact allows_of_findSpawn? haction
  rcases Option.or_eq_some_iff.1 haction with haction | ⟨-, haction⟩
  · exact allows_of_findAbsorb? haction
  · exact allows_of_findEmit? haction

/-! ### What the actions do -/

/-- A computation that counts a step and then goes on without failing has a result exactly if the
step is within the budget. -/
lemma tick_bind_eq_ok_iff {run next : Run} {options : Options} {f : Run → Run} :
    (run.tick options >>= fun ticked => pure (f ticked)) = .ok next ↔
      run.steps + 1 ≤ options.stepBudget ∧ next = f { run with steps := run.steps + 1 } := by
  unfold tick
  split
  · rename_i hbudget
    constructor
    · intro h
      cases h
    · rintro ⟨hle, -⟩
      exact absurd hbudget (Nat.not_lt.2 hle)
  · rename_i hbudget
    constructor
    · intro h
      cases h
      exact ⟨Nat.le_of_not_lt hbudget, rfl⟩
    · rintro ⟨-, rfl⟩
      rfl

/-- The state of a run after one seat has received what another one yields, before seats are
retired. -/
def exchanged (run : Run) (offer : Offer) (receiver : Seat) (received : Received) : Run :=
  let moved := { run with bindings := received.bindings }
    |>.put offer.seat.number offer.yielded.successor
    |>.put receiver.number (received.successor.subst received.bindings)
    |>.recordSeat .yield offer.seat
    |>.recordSeat .resume receiver
  { moved with steps := run.steps + 1 }

lemma exchange_eq_ok {run next : Run} {options : Options} {offer : Offer} {receiver : Seat}
    {received : Received} (h : run.exchange options offer receiver received = .ok next) :
    run.steps + 1 ≤ options.stepBudget ∧
      next = (run.exchanged offer receiver received).wrapUp run.bindings
        [offer.seat.number, receiver.number] := by
  unfold exchange at h
  exact tick_bind_eq_ok_iff.1 h

/-- The state of a run after one seat has taken over what another one yields, before seats are
retired. -/
def absorbed (run : Run) (offer : Offer) (absorber : Seat) : Run :=
  let moved := run
    |>.put offer.seat.number offer.yielded.successor
    |>.put absorber.number (absorber.current.appendYield offer.value)
    |>.recordSeat .yield offer.seat
    |>.recordSeat .resume absorber
  { moved with steps := run.steps + 1 }

lemma absorb_eq_ok {run next : Run} {options : Options} {offer : Offer} {absorber : Seat}
    (h : run.absorb options offer absorber = .ok next) :
    run.steps + 1 ≤ options.stepBudget ∧
      next = (run.absorbed offer absorber).wrapUp run.bindings [offer.seat.number] := by
  have hsame : (run.absorbed offer absorber).bindings.size ≤ run.bindings.size := Nat.le_refl _
  rw [wrapUp_of_le hsame]
  unfold absorb at h
  exact tick_bind_eq_ok_iff.1 h

/-- The state of a run after a value has been handed to the outside, before seats are retired. -/
def handedOut (run : Run) (offer : Offer) : Run :=
  let moved := { run with emitted := run.emitted.push offer.value }
    |>.put offer.seat.number offer.yielded.successor
    |>.recordSeat .yield offer.seat
    |>.record .resume none (Contract.of offer.value .void)
  { moved with steps := run.steps + 1 }

lemma emit_eq_ok {run next : Run} {options : Options} {offer : Offer}
    (h : run.emit options offer = .ok next) :
    run.steps + 1 ≤ options.stepBudget ∧
      next = (run.handedOut offer).wrapUp run.bindings [offer.seat.number] := by
  have hsame : (run.handedOut offer).bindings.size ≤ run.bindings.size := Nat.le_refl _
  rw [wrapUp_of_le hsame]
  unfold emit at h
  exact tick_bind_eq_ok_iff.1 h

lemma foldl_seatStarted_frame (run : Run) (generators : List Generator) :
    (generators.foldl seatStarted run).bindings = run.bindings ∧
      (generators.foldl seatStarted run).external = run.external ∧
      (generators.foldl seatStarted run).emitted = run.emitted := by
  induction generators generalizing run with
  | nil => exact ⟨rfl, rfl, rfl⟩
  | cons g gs ih => exact ih (run.seatStarted g)

/-- The state of a run after generators have been started, before seats are retired. -/
def seated (run : Run) (offer : Offer) (started : List Generator) : Run :=
  let joined := started.foldl seatStarted (run
    |>.put offer.seat.number offer.yielded.successor
    |>.recordSeat .yield offer.seat)
  { joined with steps := joined.steps + 1 }

@[simp]
lemma seated_bindings (run : Run) (offer : Offer) (started : List Generator) :
    (run.seated offer started).bindings = run.bindings :=
  (foldl_seatStarted_frame _ started).1

@[simp]
lemma seated_external (run : Run) (offer : Offer) (started : List Generator) :
    (run.seated offer started).external = run.external :=
  (foldl_seatStarted_frame _ started).2.1

lemma spawn_eq_ok {run next : Run} {options : Options} {compose : Ty → Run → Except Halt Run}
    {offer : Offer} {contracts : List Contract}
    (h : run.spawn options compose offer contracts = .ok next) :
    ∃ prepared started numbers,
      run.prepare (compose offer.value) offer.seat.generator.name offer.value
          (members offer.seat.generator.name contracts) = .ok (prepared, started) ∧
        next = (prepared.seated offer started).wrapUp run.bindings
          (offer.seat.number :: numbers) := by
  unfold spawn at h
  simp only [bind, Except.bind] at h
  split at h
  · cases h
  · rename_i result hprepare
    obtain ⟨prepared, started⟩ := result
    have hnext := (tick_bind_eq_ok_iff.1 h).2
    refine ⟨prepared, started, (List.range started.length).map fun i => prepared.nextNumber + i,
      hprepare, ?_⟩
    rw [wrapUp, seated_bindings]
    exact hnext

lemma prepare_of_not_isTuple {run : Run} {compose : Run → Except Halt Run} {parent : String}
    {value : Ty} {generators : List Generator} (h : value.isTuple = false) :
    run.prepare compose parent value generators = .ok (run, generators) := by
  rw [prepare, if_neg (by rw [h]; exact Bool.false_ne_true)]
  rfl

lemma prepare_of_isTuple {run : Run} {compose : Run → Except Halt Run} {parent : String}
    {value : Ty} {generators : List Generator} (h : value.isTuple = true) {nested : Run}
    (hnested : compose (run.nest generators) = .ok nested) :
    run.prepare compose parent value generators = .ok (run.adopt parent generators nested) := by
  rw [prepare, if_pos h, hnested]
  rfl

/-- Generators that are to be started join as they are, or they are those of a tuple and come out of
a nested run. -/
lemma prepare_cases {run prepared : Run} {compose : Run → Except Halt Run} {parent : String}
    {value : Ty} {generators started : List Generator}
    (h : run.prepare compose parent value generators = .ok (prepared, started)) :
    value.isTuple = false ∧ prepared = run ∧ started = generators ∨
      ∃ nested, value.isTuple = true ∧ compose (run.nest generators) = .ok nested ∧
        run.adopt parent generators nested = (prepared, started) := by
  cases htuple : value.isTuple with
  | false =>
    rw [prepare_of_not_isTuple htuple] at h
    cases h
    exact .inl ⟨rfl, rfl, rfl⟩
  | true =>
    cases hnested : compose (run.nest generators) with
    | error halt =>
      rw [prepare, if_pos htuple, hnested] at h
      cases h
    | ok nested =>
      rw [prepare_of_isTuple htuple hnested] at h
      exact .inr ⟨nested, rfl, rfl, Except.ok.inj h⟩

/-- What becomes of generators that are to be started. The seats are not touched. The generators
join one by one under the old bindings, or a nested run has composed them: then its bindings are
taken over and the composite joins. -/
lemma prepare_eq_ok {run prepared : Run} {compose : Run → Except Halt Run} {parent : String}
    {value : Ty} {generators started : List Generator}
    (h : run.prepare compose parent value generators = .ok (prepared, started)) :
    (prepared.live = run.live ∧ prepared.external = run.external ∧
      prepared.emitted = run.emitted ∧ prepared.nextNumber = run.nextNumber) ∧
    (prepared.bindings = run.bindings ∧ started = generators ∨
      ∃ nested contract name, value.isTuple = true ∧ compose (run.nest generators) = .ok nested ∧
        nested.ending = .composed contract ∧ prepared.bindings = nested.bindings ∧
        started = [{ name := name, contract := contract }]) := by
  rcases prepare_cases h with ⟨-, rfl, rfl⟩ | ⟨nested, htuple, hnested, hadopt⟩
  · exact ⟨⟨rfl, rfl, rfl, rfl⟩, .inl ⟨rfl, rfl⟩⟩
  · unfold adopt at hadopt
    split at hadopt
    · rename_i contract hending
      cases hadopt
      exact ⟨⟨rfl, rfl, rfl, rfl⟩, .inr ⟨nested, contract, _, htuple, hnested, hending, rfl, rfl⟩⟩
    · cases hadopt
      exact ⟨⟨rfl, rfl, rfl, rfl⟩, .inl ⟨rfl, rfl⟩⟩

/-! ### Steps and paths -/

/-- The run chooses an action and carries it out, which leads to the next state. Runs nested in the
step have come to their end within some depth. -/
def Steps (options : Options) (run : Run) (action : Action) (next : Run) : Prop :=
  run.nextAction? options.hierarchy = some action ∧
    ∃ depth, run.commit options (fun _ => settleWithin options depth) action = .ok next

/-- A step that is computed is a step. -/
lemma exists_steps_of_step {options : Options} {run next : Run} {depth : Nat}
    (h : run.step options (fun _ => settleWithin options depth) = .ok (some next)) :
    ∃ action, run.Steps options action next := by
  unfold step at h
  split at h
  · cases h
  · rename_i action haction
    obtain ⟨result, hcommit, hresult⟩ := exists_of_map_eq_ok h
    obtain rfl := Option.some.inj hresult
    exact ⟨action, haction, depth, hcommit⟩

/-- The states of a run, each with the actions that led to it from the first state. -/
inductive Path (options : Options) (first : Run) : List Action → Run → Prop
  | start : Path options first [] first
  | step {actions : List Action} {run next : Run} {action : Action}
      (hpath : Path options first actions run) (hstep : run.Steps options action next) :
      Path options first (actions ++ [action]) next

/-- The states of a run and of the runs that are nested in it, at any depth. -/
inductive Reachable (options : Options) (first : Run) : Run → Prop
  | start : Reachable options first first
  | step {run next : Run} {action : Action} (hrun : Reachable options first run)
      (hstep : run.Steps options action next) : Reachable options first next
  | nest {run : Run} {offer : Offer} {contracts : List Contract}
      (hrun : Reachable options first run)
      (haction : run.nextAction? options.hierarchy = some (.spawn offer contracts))
      (htuple : offer.value.isTuple = true) :
      Reachable options first (run.nest (members offer.seat.generator.name contracts))

/-- The states of a path are reachable. -/
lemma Path.reachable {options : Options} {first run : Run} {actions : List Action}
    (h : Path options first actions run) : Reachable options first run := by
  induction h with
  | start => exact .start
  | step _ hstep ih => exact .step ih hstep

/-- Carrying out an action calls upon nested runs for the offered value only. -/
lemma commit_congr {run : Run} {options : Options} {compose compose' : Ty → Run → Except Halt Run}
    {action : Action} (h : compose action.offer.value = compose' action.offer.value) :
    run.commit options compose action = run.commit options compose' action := by
  cases action with
  | spawn offer contracts =>
    have hvalue : compose offer.value = compose' offer.value := h
    simp only [commit, spawn, hvalue]
  | exchange | absorb | emit => rfl

/-- With rounds left, a run has come to its end if no seat can act, and goes on with the next action
otherwise. -/
lemma drive_succ_eq_ok_iff {options : Options} {compose : Ty → Run → Except Halt Run} {fuel : Nat}
    {run final : Run} :
    run.drive options compose (fuel + 1) = .ok final ↔
      run.nextAction? options.hierarchy = none ∧ final = run ∨
        ∃ action next, run.nextAction? options.hierarchy = some action ∧
          run.commit options compose action = .ok next ∧
          next.drive options compose fuel = .ok final := by
  rw [drive, step]
  cases haction : run.nextAction? options.hierarchy with
  | none => simp [eq_comm]
  | some action =>
    cases hnext : run.commit options compose action with
    | error halt => simp [Except.map, hnext]
    | ok next => simp [Except.map, hnext]

/-- What every step keeps holds at the end of a run, where no seat can act. -/
lemma drive_induction {options : Options} {compose : Ty → Run → Except Halt Run} {p : Run → Prop}
    (hstep : ∀ {run next : Run} {action : Action}, p run →
      run.nextAction? options.hierarchy = some action →
      run.commit options compose action = .ok next → p next)
    (fuel : Nat) {run final : Run} (hrun : p run) (h : run.drive options compose fuel = .ok final) :
    p final ∧ final.nextAction? options.hierarchy = none := by
  induction fuel generalizing run with
  | zero => cases h
  | succ fuel ih =>
    rcases drive_succ_eq_ok_iff.1 h with ⟨hnone, rfl⟩ | ⟨action, next, haction, hnext, h⟩
    · exact ⟨hrun, hnone⟩
    · exact ih (hstep hrun haction hnext) h

lemma path_of_drive {options : Options} {depth : Ty → Nat} (fuel : Nat) {run final : Run}
    (h : run.drive options (fun value => settleWithin options (depth value)) fuel = .ok final) :
    (∃ actions, Path options run actions final) ∧
      final.nextAction? options.hierarchy = none := by
  refine drive_induction (p := fun current => ∃ actions, Path options run actions current)
    (fun {current next action} hcurrent haction hnext => ?_) fuel ⟨[], Path.start⟩ h
  obtain ⟨actions, hpath⟩ := hcurrent
  refine ⟨actions ++ [action], hpath.step ⟨haction, depth action.offer.value, ?_⟩⟩
  rw [← hnext]
  exact commit_congr rfl

/-- A run that is settled has come to its end on a path, and no seat can act. -/
lemma exists_path_of_settle {options : Options} {run final : Run}
    (h : run.settle options = .ok final) :
    (∃ actions, Path options run actions final) ∧
      final.nextAction? options.hierarchy = none :=
  path_of_drive _ h

/-- What was handed out before a deadlock. -/
lemma unmatched_of_ending {run : Run} {unmatched : List Ty} {blocked : List String}
    (h : run.ending = .deadlocked unmatched blocked) : unmatched = run.output.yields.items := by
  unfold ending at h
  split at h
  · cases h
  · cases h
  · cases h
    rfl

/-- The generators that are blocked in a deadlock are those that have a seat. -/
lemma blocked_of_ending {run : Run} {unmatched : List Ty} {blocked : List String}
    (h : run.ending = .deadlocked unmatched blocked) :
    blocked = run.live.map fun seat => seat.generator.name := by
  unfold ending at h
  split at h
  · cases h
  · cases h
  · cases h
    rfl

/-- A solution is read off a run that has been settled. -/
lemma exists_settle_of_solve_eq_ok {options : Options} {generators : List Generator}
    {bindings : Bindings} {solution : Solution}
    (h : solve options generators bindings = .ok solution) :
    ∃ final, (start generators bindings).settle options = .ok final ∧
      final.ending = .composed solution.contract ∧ solution.trace = final.trace.toList ∧
      solution.bindings = final.bindings ∧ solution.steps = final.steps := by
  unfold solve at h
  split at h
  · cases h
  split at h
  · cases h
  rename_i final hfinal
  unfold result at h
  split at h
  · rename_i contract hending
    cases h
    exact ⟨final, hfinal, hending, rfl, rfl, rfl⟩
  · cases h

/-- A deadlock is read off a run that has been settled. -/
lemma exists_settle_of_solve_eq_deadlock {options : Options} {generators : List Generator}
    {bindings : Bindings} {unmatched : List Ty} {blocked : List String}
    (h : solve options generators bindings = .error (.deadlock unmatched blocked)) :
    ∃ final, (start generators bindings).settle options = .ok final ∧
      final.ending = .deadlocked unmatched blocked := by
  unfold solve at h
  split at h
  · rename_i e hcheck
    cases h
    exact absurd hcheck (checkGenerators_ne_deadlock _ _ _ _)
  split at h
  · rename_i halt _
    cases halt <;> cases h
  rename_i final hfinal
  unfold result at h
  split at h
  · cases h
  · rename_i hending
    cases h
    exact ⟨final, hfinal, hending⟩

/-- A solution is read off the last state of a path, in which no seat can act. -/
lemma exists_path_of_solve_eq_ok {options : Options} {generators : List Generator}
    {bindings : Bindings} {solution : Solution}
    (h : solve options generators bindings = .ok solution) :
    ∃ actions final, Path options (start generators bindings) actions final ∧
      final.nextAction? options.hierarchy = none ∧ final.ending = .composed solution.contract ∧
      solution.bindings = final.bindings := by
  obtain ⟨final, hfinal, hending, -, hbindings, -⟩ := exists_settle_of_solve_eq_ok h
  obtain ⟨⟨actions, hpath⟩, hnone⟩ := exists_path_of_settle hfinal
  exact ⟨actions, final, hpath, hnone, hending, hbindings⟩

/-- A deadlock is read off the last state of a path, in which no seat can act. -/
lemma exists_path_of_solve_eq_deadlock {options : Options} {generators : List Generator}
    {bindings : Bindings} {unmatched : List Ty} {blocked : List String}
    (h : solve options generators bindings = .error (.deadlock unmatched blocked)) :
    ∃ actions final, Path options (start generators bindings) actions final ∧
      final.nextAction? options.hierarchy = none ∧
      final.ending = .deadlocked unmatched blocked := by
  obtain ⟨final, hfinal, hending⟩ := exists_settle_of_solve_eq_deadlock h
  obtain ⟨⟨actions, hpath⟩, hnone⟩ := exists_path_of_settle hfinal
  exact ⟨actions, final, hpath, hnone, hending⟩

/-! ### Induction over runs -/

section Induction

variable {options : Options} {rel : Run → Run → Prop}

/-- A relation between states holds over every step, provided that it holds over the runs that are
nested in the step. -/
def HoldsOfSteps (options : Options) (rel : Run → Run → Prop) : Prop :=
  ∀ ⦃depth : Nat⦄,
    (∀ ⦃nested final : Run⦄, nested.settleWithin options depth = .ok final → rel nested final) →
    ∀ ⦃run next : Run⦄ ⦃action : Action⦄, run.nextAction? options.hierarchy = some action →
      run.commit options (fun _ => settleWithin options depth) action = .ok next → rel run next

/-- A relation between the states of a run is kept by every step, provided that the runs nested in
the step keep it. How these are driven and why the action is chosen does not matter. -/
def KeptBySteps (options : Options) (rel : Run → Run → Prop) : Prop :=
  ∀ ⦃compose : Run → Except Halt Run⦄,
    (∀ ⦃nested final : Run⦄, compose nested = .ok final → rel nested final) →
    ∀ ⦃run next : Run⦄ ⦃action : Action⦄, run.Allows options.hierarchy action →
      run.commit options (fun _ => compose) action = .ok next → rel run next

lemma KeptBySteps.holdsOfSteps (h : KeptBySteps options rel) : HoldsOfSteps options rel := by
  intro depth hnested run next action haction hcommit
  exact h hnested (allows_of_nextAction? haction) hcommit

/-- What holds over every step, provided that it holds over nested runs, holds over every nested
run. -/
theorem settleWithin_rel (hrefl : ∀ run, rel run run)
    (htrans : ∀ {a b c}, rel a b → rel b c → rel a c) (hsteps : HoldsOfSteps options rel)
    (depth : Nat) {run final : Run} (h : run.settleWithin options depth = .ok final) :
    rel run final := by
  induction depth generalizing run final with
  | zero => cases h
  | succ depth ih =>
    rw [settleWithin] at h
    refine (drive_induction (fun {current next action} hcurrent haction hnext => ?_) _
      (hrefl run) h).1
    exact htrans hcurrent (hsteps (fun _ _ => ih) haction hnext)

/-- What holds over every step, provided that it holds over nested runs, holds over every step. -/
theorem rel_of_steps (hrefl : ∀ run, rel run run) (htrans : ∀ {a b c}, rel a b → rel b c → rel a c)
    (hsteps : HoldsOfSteps options rel) {run next : Run} {action : Action}
    (h : run.Steps options action next) : rel run next := by
  obtain ⟨haction, depth, hnext⟩ := h
  exact hsteps (fun _ _ => settleWithin_rel hrefl htrans hsteps depth) haction hnext

/-- What holds over every step, provided that it holds over nested runs, holds over every path. -/
theorem rel_of_path (hrefl : ∀ run, rel run run) (htrans : ∀ {a b c}, rel a b → rel b c → rel a c)
    (hsteps : HoldsOfSteps options rel) {first run : Run} {actions : List Action}
    (h : Path options first actions run) : rel first run := by
  induction h with
  | start => exact hrefl first
  | step _ hstep ih => exact htrans ih (rel_of_steps hrefl htrans hsteps hstep)

end Induction

end Run

end ContractComposition
