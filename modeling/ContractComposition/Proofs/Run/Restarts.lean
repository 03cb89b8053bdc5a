import ContractComposition.Proofs.Run.Moves

/-!
# The restarts of a run

Generators start over in the middle of a step, while its seats are retired, and in the runs that are
nested in a step. A `Restart` records one such moment: the state of the run right before, and the
seat that starts over. `Run.RestartLog` collects the restarts along a run in the order in which they
happen. Those of a nested run come before those of the step that it is nested in, whether the nested
run was taken over or was given up.

Every reachable state has a log (`Run.Reachable.exists_restartLog`).
-/

namespace ContractComposition

/-- A generator starts over. -/
structure Restart where
  /-- The state of the run right before. -/
  before : Run
  /-- The seat whose generator starts over. -/
  seat : Seat
  /-- The states of the runs that the run is nested in, the innermost first. -/
  outer : List Run := []

namespace Restart

/-- The number that the fresh variables carry. -/
def count (r : Restart) : Nat :=
  r.before.restarts + 1

/-- The contract that the generator starts over from. -/
def fresh (r : Restart) : Contract :=
  r.seat.generator.contract.freshen r.count r.before.external

/-- The same restart, seen from the run in which the other one is nested. -/
def within (run : Run) (r : Restart) : Restart :=
  { r with outer := r.outer ++ [run] }

end Restart

namespace Run

variable {options : Options} {first run next : Run}

/-! ### The count of restarts -/

lemma joinAll_restarts (run : Run) (generators : List Generator) :
    (run.joinAll generators).restarts = run.restarts := by
  obtain ⟨live, number, heq⟩ := run.exists_joinAll_eq generators
  rw [heq]

/-- A nested run goes on counting restarts. -/
lemma nest_restarts (run : Run) (generators : List Generator) :
    (run.nest generators).restarts = run.restarts :=
  joinAll_restarts _ generators

lemma start_restarts (generators : List Generator) (bindings : Bindings) :
    (start generators bindings).restarts = 0 :=
  joinAll_restarts _ generators

lemma seated_restarts (run : Run) (offer : Offer) (started : List Generator) :
    (run.seated offer started).restarts = run.restarts := by
  have hfold : ∀ current : Run,
      (started.foldl seatStarted current).restarts = current.restarts := by
    intro current
    induction started generalizing current with
    | nil => rfl
    | cons g gs ih => exact ih (current.seatStarted g)
  exact hfold _

/-- No matter how a nested run has ended, its count of restarts is taken over. -/
lemma restarts_of_adopt {parent : String} {generators started : List Generator}
    {nested prepared : Run} (h : run.adopt parent generators nested = (prepared, started)) :
    prepared.restarts = nested.restarts := by
  unfold adopt at h
  split at h <;> cases h <;> rfl

/-! ### Restarts at the end of a step -/

/-- The restart, if any, when the seat with a number is retired. -/
def retireLog (run : Run) (number : Nat) : List Restart :=
  match run.seat? number with
  | none => []
  | some seat =>
    if seat.current.isTerminal && seat.generator.infinite then [{ before := run, seat := seat }]
    else []

/-- The restarts when seats are retired one after another. -/
def retireAllLog (run : Run) : List Nat → List Restart
  | [] => []
  | number :: numbers => run.retireLog number ++ (run.retire number).retireAllLog numbers

/-- The restarts at the end of a step that began with the bindings `before`. -/
def wrapUpLog (run : Run) (before : Bindings) (numbers : List Nat) : List Restart :=
  run.retireAllLog numbers ++
    if before.size < run.bindings.size then
      let refreshed := (run.retireAll numbers).refreshed
      refreshed.retireAllLog (refreshed.live.map Seat.number)
    else []

/-- Retiring a seat either restarts it, and this is what is logged, or logs nothing and counts no
restart. -/
lemma retireLog_cases (run : Run) (number : Nat) :
    (∃ seat, run.seat? number = some seat ∧ seat.current.isTerminal = true ∧
        seat.generator.infinite = true ∧ run.retire number = run.restart seat ∧
        run.retireLog number = [{ before := run, seat := seat }]) ∨
      run.retireLog number = [] ∧
        (run.retire number = run ∨ run.retire number = run.leave number) := by
  unfold retire retireLog
  cases hseat : run.seat? number with
  | none => exact .inr ⟨rfl, .inl rfl⟩
  | some seat =>
    cases hterminal : seat.current.isTerminal with
    | false => exact .inr ⟨by simp [hterminal], .inl (by simp [hterminal])⟩
    | true =>
      cases hinfinite : seat.generator.infinite with
      | false => exact .inr ⟨by simp [hinfinite], .inr (by simp [hterminal, hinfinite])⟩
      | true =>
        exact .inl ⟨seat, rfl, hterminal, hinfinite, by simp [hterminal, hinfinite],
          by simp [hterminal, hinfinite]⟩

/-! ### Logs -/

/-- The restarts on the way from a state to another one of the same run, or of a run that is nested
in it, in order. -/
inductive RestartLog (options : Options) : Run → List Restart → Run → Prop
  /-- Nothing has happened yet. -/
  | start (run : Run) : RestartLog options run [] run
  /-- A step in which no run is nested. -/
  | step {first run moved : Run} {log : List Restart} {numbers : List Nat} {action : Action}
      (hrun : RestartLog options first log run)
      (haction : run.nextAction? options.hierarchy = some action)
      (hmoves : run.Moves (fun _ _ => .error .outOfFuel) moved numbers action)
      (hbudget : moved.steps ≤ options.stepBudget) :
      RestartLog options first (log ++ moved.wrapUpLog run.bindings numbers)
        (moved.wrapUp run.bindings numbers)
  /-- A run that is nested in a step, on its way. -/
  | nest {first run state : Run} {log inner : List Restart} {offer : Offer}
      {contracts : List Contract} (hrun : RestartLog options first log run)
      (haction : run.nextAction? options.hierarchy = some (.spawn offer contracts))
      (htuple : offer.value.isTuple = true)
      (hinner : RestartLog options (run.nest (members offer.seat.generator.name contracts))
        inner state) :
      RestartLog options first (log ++ inner.map (Restart.within run)) state
  /-- A step in which a run is nested that has come to its end, be it composed or stuck. -/
  | resume {first run moved final : Run} {log inner : List Restart} {numbers : List Nat}
      {offer : Offer} {contracts : List Contract} (hrun : RestartLog options first log run)
      (haction : run.nextAction? options.hierarchy = some (.spawn offer contracts))
      (htuple : offer.value.isTuple = true)
      (hinner : RestartLog options (run.nest (members offer.seat.generator.name contracts))
        inner final)
      (hfinal : final.nextAction? options.hierarchy = none)
      (hmoves : run.Moves (fun _ _ => .ok final) moved numbers (.spawn offer contracts))
      (hbudget : moved.steps ≤ options.stepBudget) :
      RestartLog options first
        (log ++ inner.map (Restart.within run) ++ moved.wrapUpLog run.bindings numbers)
        (moved.wrapUp run.bindings numbers)

/-- Logs of consecutive parts of a run. -/
lemma RestartLog.trans {log more : List Restart} (h : RestartLog options first log run)
    (hmore : RestartLog options run more next) : RestartLog options first (log ++ more) next := by
  induction hmore with
  | start => rwa [List.append_nil]
  | step _ haction hmoves hbudget ih =>
    rw [← List.append_assoc]
    exact .step (ih h) haction hmoves hbudget
  | nest _ haction htuple hinner ih =>
    rw [← List.append_assoc]
    exact .nest (ih h) haction htuple hinner
  | resume _ haction htuple hinner hfinal hmoves hbudget ih =>
    rw [← List.append_assoc, ← List.append_assoc]
    exact .resume (ih h) haction htuple hinner hfinal hmoves hbudget

/-- A nested run that is driven to its end cannot act any more. -/
lemma nextAction?_of_settleWithin {depth : Nat}
    (h : run.settleWithin options depth = .ok next) :
    next.nextAction? options.hierarchy = none := by
  cases depth with
  | zero => cases h
  | succ depth =>
    rw [settleWithin] at h
    exact (drive_induction (p := fun _ => True) (fun _ _ _ => trivial) _ trivial h).2

/-- Every step has a log, provided that the runs nested in it have one. -/
lemma holdsOfSteps_restartLog (options : Options) :
    HoldsOfSteps options fun run next => ∃ log, RestartLog options run log next := by
  intro depth hnested run next action haction hcommit
  obtain ⟨moved, numbers, hmoves, hbudget, rfl⟩ := commit_eq_ok_iff.1 hcommit
  cases action with
  | exchange | absorb | emit => exact ⟨_, .step (.start run) haction hmoves hbudget⟩
  | spawn offer contracts =>
    obtain ⟨prepared, started, hprepare, hmoved, hnumbers⟩ := hmoves
    rcases prepare_cases hprepare with ⟨htuple, rfl, rfl⟩ | ⟨final, htuple, hfinal, hadopt⟩
    · refine ⟨_, .step (.start _) haction ⟨_, _, ?_, hmoved, hnumbers⟩ hbudget⟩
      exact prepare_of_not_isTuple htuple
    · obtain ⟨inner, hinner⟩ := hnested hfinal
      refine ⟨_, .resume (.start run) haction htuple hinner (nextAction?_of_settleWithin hfinal)
        ⟨prepared, started, ?_, hmoved, hnumbers⟩ hbudget⟩
      rw [← hadopt]
      exact prepare_of_isTuple htuple rfl

lemma Steps.exists_restartLog {action : Action} (h : run.Steps options action next) :
    ∃ log, RestartLog options run log next :=
  rel_of_steps (fun run => ⟨[], .start run⟩)
    (fun ⟨_, hlog⟩ ⟨_, hmore⟩ => ⟨_, hlog.trans hmore⟩) (holdsOfSteps_restartLog options) h

/-- Every reachable state has a log of the restarts that led to it. -/
theorem Reachable.exists_restartLog (h : Reachable options first run) :
    ∃ log, RestartLog options first log run := by
  induction h with
  | start => exact ⟨[], .start first⟩
  | step _ hstep ih =>
    obtain ⟨log, hlog⟩ := ih
    obtain ⟨more, hmore⟩ := hstep.exists_restartLog
    exact ⟨_, hlog.trans hmore⟩
  | nest _ haction htuple ih =>
    obtain ⟨log, hlog⟩ := ih
    exact ⟨_, .nest hlog haction htuple (.start _)⟩

end Run

end ContractComposition
