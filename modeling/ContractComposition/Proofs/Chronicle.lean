import ContractComposition.Proofs.Run.Moves

/-!
# The structure of traces

Every step records a *block* of events: the contract that yields a value, followed by the contracts
that it resumes (`Action.Block`). The events of a block carry the number of the step. They also tell
where the value went: what is resumed has a name unless the value is handed to the outside, and then
nothing else is resumed.

The trace of a run is made of such blocks in the order of their numbers, without a gap. This is so
even though a step can contain a whole run: a nested run goes on counting where the step began, and
when its result is taken over, its blocks come before the block of the step. If it ends in a
deadlock, its blocks are dropped and their numbers are given away again. `Run.Chronicle` describes
what is recorded between two counts of steps, and by induction over runs it describes every trace
(`Run.holdsOfSteps_logs`).
-/

namespace ContractComposition

namespace Action

/-- Whether the action hands its value to the outside. -/
def isEmit : Action → Bool
  | .emit _ => true
  | _ => false

/-- The events are one yield followed by at least one resume, and all carry the given number. What
yields has a name and nothing left to receive. What is resumed has a name exactly if the action does
not hand its value to the outside; if it does, a single contract is resumed, which receives just a
value. -/
structure Block (action : Action) (number : Nat) (events : List Event) : Prop where
  shape : ∃ yielded resumed, events = yielded :: resumed ∧ yielded.kind = .yield ∧
    resumed ≠ [] ∧ ∀ e ∈ resumed, e.kind = .resume
  step : ∀ e ∈ events, e.step = number
  yielder : ∀ e ∈ events, e.kind = .yield →
    e.generator.isSome = true ∧ e.contract.receives = .void
  unnamed_iff : ∀ e ∈ events, e.kind = .resume → (e.generator = none ↔ action.isEmit = true)
  emitted : action.isEmit = true → ∃ yielded resumed value, events = [yielded, resumed] ∧
    resumed.contract = Contract.of value .void

/-- A yield and some resumes form a block. -/
lemma block_cons {action : Action} {number : Nat} {name : String} {contract : Contract}
    (hvoid : contract.receives = .void) {resumed : List Event} (hne : resumed ≠ [])
    (hresumed : ∀ e ∈ resumed, e.step = number ∧ e.kind = .resume ∧
      (e.generator = none ↔ action.isEmit = true))
    (hemit : action.isEmit = true →
      ∃ value, resumed = [⟨number, .resume, none, Contract.of value .void⟩]) :
    action.Block number (⟨number, .yield, some name, contract⟩ :: resumed) where
  shape := ⟨_, resumed, rfl, rfl, hne, fun e he => (hresumed e he).2.1⟩
  step := List.forall_mem_cons.2 ⟨rfl, fun e he => (hresumed e he).1⟩
  yielder := by
    refine List.forall_mem_cons.2 ⟨fun _ => ⟨rfl, hvoid⟩, fun e he hkind => ?_⟩
    rw [(hresumed e he).2.1] at hkind
    cases hkind
  unnamed_iff := by
    refine List.forall_mem_cons.2 ⟨fun hkind => ?_, fun e he _ => (hresumed e he).2.2⟩
    cases hkind
  emitted hemitted := by
    obtain ⟨value, rfl⟩ := hemit hemitted
    exact ⟨_, _, value, rfl, rfl⟩

/-- A yield and the resume of a generator form a block. -/
lemma block_pair {action : Action} (haction : action.isEmit = false) {number : Nat}
    {name resumedName : String} {contract resumed : Contract} (hvoid : contract.receives = .void) :
    action.Block number [⟨number, .yield, some name, contract⟩,
      ⟨number, .resume, some resumedName, resumed⟩] := by
  refine block_cons hvoid (List.cons_ne_nil _ _) (List.forall_mem_singleton.2 ⟨rfl, rfl, ?_⟩) ?_
  · simp [haction]
  · simp [haction]

end Action

namespace Run

variable {options : Options} {run next first : Run}

/-! ### What a move records -/

lemma block_startEvent {offer : Offer} {contracts : List Contract} {number : Nat}
    (hvoid : offer.seat.current.receives = .void) {started : List Generator}
    (hstarted : started ≠ []) :
    (Action.spawn offer contracts).Block number
      (seatEvent number .yield offer.seat :: started.map (startEvent number)) := by
  refine Action.block_cons hvoid (by simpa using hstarted) ?_ nofun
  refine List.forall_mem_map.2 fun g _ => ⟨rfl, rfl, ?_⟩
  simp [startEvent, Action.isEmit]

/-- What has been recorded when a step comes to record its own block, and the count of steps by
then: nothing new, or the trace of a nested run that has composed what is to be started. -/
def Preceded (run : Run) (compose : Ty → Run → Except Halt Run) (action : Action) (steps : Nat)
    (events : List Event) : Prop :=
  steps = run.steps ∧ events = [] ∨
    ∃ offer contracts nested, action = .spawn offer contracts ∧ offer.value.isTuple = true ∧
      compose offer.value (run.nest (members offer.seat.generator.name contracts)) = .ok nested ∧
      steps = nested.steps ∧ events = nested.trace.toList

/-- A spawn records the trace of the nested run, if there is one to be taken over, and a block. -/
lemma exists_block_of_prepare {compose : Ty → Run → Except Halt Run} {offer : Offer}
    {contracts : List Contract} (hoffer : offer ∈ run.offers)
    (hcontracts : offer.value.contracts? = some contracts) {prepared : Run}
    {started : List Generator}
    (hprepare : run.prepare (compose offer.value) offer.seat.generator.name offer.value
      (members offer.seat.generator.name contracts) = .ok (prepared, started)) :
    ∃ steps events block, run.Preceded compose (.spawn offer contracts) steps events ∧
      (prepared.seated offer started).steps = steps + 1 ∧
      (prepared.seated offer started).trace.toList = run.trace.toList ++ (events ++ block) ∧
      (Action.spawn offer contracts).Block (steps + 1) block := by
  have hvoid := receives_eq_void_of_mem_offers hoffer
  obtain ⟨hsteps, htrace⟩ := seated_records prepared offer started
  rcases records_of_prepare hprepare with ⟨hsame, hkept, rfl⟩ |
    ⟨nested, composite, htuple, hcompose, hsame, hkept, rfl⟩
  · have hmembers : members offer.seat.generator.name contracts ≠ [] := by
      simpa [members] using Ty.ne_nil_of_contracts? hcontracts
    refine ⟨run.steps, [], _, .inl ⟨rfl, rfl⟩, by rw [hsteps, hsame], ?_,
      block_startEvent hvoid hmembers⟩
    rw [htrace, hsame, hkept, List.nil_append]
  · refine ⟨nested.steps, nested.trace.toList, _,
      .inr ⟨offer, contracts, nested, rfl, htuple, hcompose, rfl, rfl⟩, by rw [hsteps, hsame], ?_,
      block_startEvent hvoid (List.cons_ne_nil composite [])⟩
    rw [htrace, hsame, hkept, Array.toList_append, List.append_assoc]

/-- Every move records one block, after the trace of a nested run if there is one. -/
theorem Moves.exists_block {compose : Ty → Run → Except Halt Run} {action : Action} {moved : Run}
    {numbers : List Nat} {hierarchy : Hierarchy} (hallows : run.Allows hierarchy action)
    (h : run.Moves compose moved numbers action) :
    ∃ steps events block, run.Preceded compose action steps events ∧ moved.steps = steps + 1 ∧
      moved.trace.toList = run.trace.toList ++ (events ++ block) ∧
      action.Block (steps + 1) block := by
  cases action with
  | exchange offer receiver received =>
    obtain ⟨rfl, -⟩ := h
    refine ⟨run.steps, [], [seatEvent (run.steps + 1) .yield offer.seat,
      seatEvent (run.steps + 1) .resume receiver], .inl ⟨rfl, rfl⟩, rfl, ?_,
      Action.block_pair rfl (receives_eq_void_of_mem_offers hallows.1)⟩
    simp [exchanged, recordSeat, record, put, seatEvent]
  | spawn offer contracts =>
    obtain ⟨prepared, started, hprepare, rfl, -⟩ := h
    exact exists_block_of_prepare hallows.1 hallows.2 hprepare
  | absorb offer absorber =>
    obtain ⟨rfl, -⟩ := h
    refine ⟨run.steps, [], [seatEvent (run.steps + 1) .yield offer.seat,
      seatEvent (run.steps + 1) .resume absorber], .inl ⟨rfl, rfl⟩, rfl, ?_,
      Action.block_pair rfl (receives_eq_void_of_mem_offers hallows.1)⟩
    simp [absorbed, recordSeat, record, put, seatEvent]
  | emit offer =>
    obtain ⟨rfl, -⟩ := h
    refine ⟨run.steps, [], [seatEvent (run.steps + 1) .yield offer.seat,
      ⟨run.steps + 1, .resume, none, Contract.of offer.value .void⟩], .inl ⟨rfl, rfl⟩, rfl, ?_,
      Action.block_cons (receives_eq_void_of_mem_offers hallows.1) (List.cons_ne_nil _ _)
        (List.forall_mem_singleton.2 ⟨rfl, rfl, ?_⟩) fun _ => ⟨offer.value, rfl⟩⟩
    · simp [handedOut, recordSeat, record, put, seatEvent]
    · simp [Action.isEmit]

/-! ### What a run records -/

/-- In a state of the run, or of a run nested in it, a step was taken that has the given number and
recorded the given events at the end of the trace, as a block. -/
def Recorded (options : Options) (first : Run) (number : Nat) (block : List Event) : Prop :=
  ∃ run action next, Reachable options first run ∧ run.Steps options action next ∧
    next.steps = number ∧ block <:+ next.trace.toList ∧ action.Block number block

/-- The events that were recorded between two counts of steps: one block for each step. -/
inductive Chronicle (options : Options) (first : Run) : Nat → List Event → Nat → Prop
  | nil (steps : Nat) : Chronicle options first steps [] steps
  | step {before after : Nat} {events block : List Event}
      (hevents : Chronicle options first before events after)
      (hblock : Recorded options first (after + 1) block) :
      Chronicle options first before (events ++ block) (after + 1)

lemma Reachable.trans {a b c : Run} (hab : Reachable options a b) (hbc : Reachable options b c) :
    Reachable options a c := by
  induction hbc with
  | start => exact hab
  | step _ hstep ih => exact ih.step hstep
  | nest _ haction htuple ih => exact ih.nest haction htuple

/-- What is recorded in a run that has been reached is recorded in the run that reached it. -/
lemma Recorded.of_reachable (hrun : Reachable options first run) {number : Nat}
    {block : List Event} (h : Recorded options run number block) :
    Recorded options first number block := by
  obtain ⟨state, action, next, hstate, hrest⟩ := h
  exact ⟨state, action, next, hrun.trans hstate, hrest⟩

namespace Chronicle

variable {before middle after : Nat} {events more : List Event}

lemma of_reachable (hrun : Reachable options first run)
    (h : Chronicle options run before events after) :
    Chronicle options first before events after := by
  induction h with
  | nil => exact .nil _
  | step _ hblock ih => exact .step ih (hblock.of_reachable hrun)

lemma append (h : Chronicle options first before events middle)
    (hmore : Chronicle options first middle more after) :
    Chronicle options first before (events ++ more) after := by
  induction hmore with
  | nil => rwa [List.append_nil]
  | step _ hblock ih =>
    rw [← List.append_assoc]
    exact .step ih hblock

/-- A chronicle from the beginning is a list of blocks, numbered from one. -/
lemma exists_blocks (h : Chronicle options first 0 events after) :
    ∃ blocks : List (List Event), events = blocks.flatten ∧ blocks.length = after ∧
      ∀ k block, blocks[k]? = some block → Recorded options first (k + 1) block := by
  induction h with
  | nil => exact ⟨[], rfl, rfl, fun k block hk => by simp at hk⟩
  | @step _ _ last _ hblock ih =>
    obtain ⟨blocks, rfl, rfl, hblocks⟩ := ih
    refine ⟨blocks ++ [last], by simp, by simp, fun k block hk => ?_⟩
    rcases Nat.lt_or_ge k blocks.length with hlt | hge
    · rw [List.getElem?_append_left hlt] at hk
      exact hblocks k block hk
    · rw [List.getElem?_append_right hge, List.getElem?_singleton] at hk
      split at hk
      · rename_i hlast
        obtain rfl := Option.some.inj hk
        obtain rfl : k = blocks.length := by omega
        exact hblock
      · cases hk

end Chronicle

/-- From one state to the other, the run goes on and records one block for each step. -/
structure Logs (options : Options) (run final : Run) : Prop where
  reachable : Reachable options run final
  chronicle : ∃ events, final.trace.toList = run.trace.toList ++ events ∧
    Chronicle options run run.steps events final.steps

lemma logs_refl (options : Options) (run : Run) : Logs options run run :=
  ⟨.start, [], (List.append_nil _).symm, .nil _⟩

lemma Logs.trans {a b c : Run} (hab : Logs options a b) (hbc : Logs options b c) :
    Logs options a c := by
  obtain ⟨hreach, events, htrace, hevents⟩ := hab
  obtain ⟨hreach', more, htrace', hmore⟩ := hbc
  refine ⟨hreach.trans hreach', events ++ more, ?_, hevents.append (hmore.of_reachable hreach)⟩
  rw [htrace', htrace, List.append_assoc]

/-- Every step records a block, after those of a nested run that is taken over. -/
theorem holdsOfSteps_logs (options : Options) : HoldsOfSteps options (Logs options) := by
  intro depth hnested run next action haction hcommit
  have hstep : run.Steps options action next := ⟨haction, depth, hcommit⟩
  obtain ⟨moved, numbers, hmoves, -, rfl⟩ := commit_eq_ok_iff.1 hcommit
  have hframe := moved.reseats_wrapUp run.bindings numbers
  obtain ⟨steps, events, block, hpreceded, hsteps, htrace, hblock⟩ :=
    hmoves.exists_block (allows_of_nextAction? haction)
  have hbefore : Chronicle options run run.steps events steps := by
    rcases hpreceded with ⟨rfl, rfl⟩ | ⟨offer, contracts, nested, rfl, htuple, hnest, rfl, rfl⟩
    · exact .nil _
    · obtain ⟨-, inner, hinner, hchronicle⟩ := hnested hnest
      obtain ⟨hcount, hempty⟩ := run.nest_records (members offer.seat.generator.name contracts)
      rw [hempty, List.nil_append] at hinner
      rw [hinner, ← hcount]
      exact hchronicle.of_reachable (.nest .start haction htuple)
  have hrecorded : Recorded options run (steps + 1) block := by
    refine ⟨run, action, _, .start, hstep, by rw [hframe.steps, hsteps], ?_, hblock⟩
    rw [hframe.trace, htrace, ← List.append_assoc]
    exact List.suffix_append _ _
  refine ⟨.step .start hstep, events ++ block, by rw [hframe.trace, htrace], ?_⟩
  rw [hframe.steps, hsteps]
  exact .step hbefore hrecorded

end Run

/-- Traces are made of blocks. The trace of a solution consists of as many blocks as the solution
has steps. The block number `k` was recorded by a step of the run, or of a run nested in it, that
was counted as step number `k`: it is one yield, followed by at least one resume. What yields has a
name and nothing left to receive. What is resumed has no name exactly if the step hands a value to
the outside, and then it is the only contract that is resumed, and it receives just a value. -/
theorem trace_consists_of_blocks (options : Options) (generators : List Generator)
    (bindings : Bindings) (solution : Solution)
    (hsolution : solve options generators bindings = .ok solution) :
    ∃ blocks : List (List Event), solution.trace = blocks.flatten ∧
      blocks.length = solution.steps ∧
      ∀ k block, blocks[k]? = some block →
        Run.Recorded options (Run.start generators bindings) (k + 1) block := by
  obtain ⟨final, hsettle, -, htrace, -, hsteps⟩ := Run.exists_settle_of_solve_eq_ok hsolution
  obtain ⟨⟨actions, hpath⟩, -⟩ := Run.exists_path_of_settle hsettle
  obtain ⟨hzero, hempty⟩ := Run.start_records generators bindings
  have hlogs : Run.Logs options (Run.start generators bindings) final :=
    Run.rel_of_path (Run.logs_refl options) Run.Logs.trans (Run.holdsOfSteps_logs options) hpath
  obtain ⟨-, events, hevents, hchronicle⟩ := hlogs
  rw [hzero] at hchronicle
  rw [hempty, List.nil_append] at hevents
  rw [htrace, hsteps, hevents]
  exact hchronicle.exists_blocks

/-- A source starts two tuples of contracts. The first is composed in a nested run, which hands a
value to the outside as its second step. The second gets stuck after a step, which is given back, so
that three contracts are started in step five. There are nine blocks, and the two unnamed events are
in the second and in the last of them. -/
theorem trace_consists_of_blocks_nested :
    let source : Generator :=
      { name := "source"
        contract := Contract.of .void (.seq [
          .tuple [.contract (Contract.of .void (.const "A")),
            .contract (Contract.of (.const "A") (.const "B"))],
          .tuple [.contract (Contract.of .void (.const "C")),
            .contract (Contract.of (.seq [.const "C", .const "B"]) .void),
            .contract (Contract.of (.const "B") (.const "D"))]]) }
    let doubler : Generator :=
      { name := "doubler"
        contract := Contract.of (.const "B") (.seq [.const "B", .const "B"]) }
    ∃ (solution : Solution) (blocks : List (List Event)),
      solve {} [source, doubler] ∅ = .ok solution ∧
      solution.trace.map Event.step = [1, 1, 2, 2, 3, 3, 4, 4, 5, 5, 5, 5, 6, 6, 7, 7, 8, 8, 9, 9] ∧
      (solution.trace.filter fun e => e.generator.isNone).map Event.step = [2, 9] ∧
      solution.trace = blocks.flatten ∧ blocks.length = 9 ∧
      ∀ k block, blocks[k]? = some block →
        Run.Recorded {} (Run.start [source, doubler] ∅) (k + 1) block := by
  intro source doubler
  have hcomputed : (solve {} [source, doubler] ∅).toOption.map (fun s => (s.steps,
      s.trace.map Event.step, (s.trace.filter fun e => e.generator.isNone).map Event.step)) =
      some (9, [1, 1, 2, 2, 3, 3, 4, 4, 5, 5, 5, 5, 6, 6, 7, 7, 8, 8, 9, 9], [2, 9]) := by
    decide +kernel
  obtain ⟨solution, hok, hfacts⟩ := exists_of_toOption_eq_some hcomputed
  obtain ⟨hsteps, hnumbers⟩ := Prod.mk.inj hfacts
  obtain ⟨hall, hunnamed⟩ := Prod.mk.inj hnumbers
  obtain ⟨blocks, htrace, hlength, hblocks⟩ :=
    trace_consists_of_blocks {} [source, doubler] ∅ solution hok
  exact ⟨solution, blocks, hok, hall, hunnamed, htrace, hlength.trans hsteps, hblocks⟩

end ContractComposition
