import ContractComposition.Proofs.Run.Moves

/-!
# The step budget only cuts off

A larger step budget does not change what a run does, only how long it may go on. The choice of an
action does not look at the budget, and neither does a move; so whatever a run does within one
budget, it does within a larger one (`Run.commit_of_relaxedBy`). By induction on the depth of nested
runs this goes for whole runs: one that comes to its end comes to the same end under a larger budget
(`Run.settle_of_relaxedBy`). Nested runs are covered whether they compose their generators or end in
a deadlock, since both are ends of runs. The only thing that a larger budget can change is that a
run was stopped.
-/

namespace ContractComposition

/-- The second settings allow at least as many steps, with the same classes. -/
structure Options.RelaxedBy (options options' : Options) : Prop where
  stepBudget : options.stepBudget ≤ options'.stepBudget
  hierarchy : options'.hierarchy = options.hierarchy

namespace Run

variable {options options' : Options} {run next final : Run}

/-! ### Carrying out actions -/

lemma prepare_of_imp {compose compose' : Run → Except Halt Run}
    (hcompose : ∀ ⦃nested final : Run⦄, compose nested = .ok final → compose' nested = .ok final)
    {parent : String} {value : Ty} {generators : List Generator}
    {result : Run × List Generator}
    (h : run.prepare compose parent value generators = .ok result) :
    run.prepare compose' parent value generators = .ok result := by
  unfold prepare at h ⊢
  split at h
  · rename_i htuple
    rw [if_pos htuple]
    cases hnested : compose (run.nest generators) with
    | error halt =>
      rw [hnested] at h
      cases h
    | ok nested =>
      rw [hnested] at h
      rw [hcompose hnested]
      exact h
  · rename_i htuple
    rw [if_neg htuple]
    exact h

section

variable {compose compose' : Ty → Run → Except Halt Run}
  (hcompose : ∀ ⦃value : Ty⦄ ⦃nested final : Run⦄,
    compose value nested = .ok final → compose' value nested = .ok final)

include hcompose

/-- A move can be made if the nested runs that it rests on come to the same ends. -/
lemma Moves.of_imp {moved : Run} {numbers : List Nat} {action : Action}
    (h : run.Moves compose moved numbers action) : run.Moves compose' moved numbers action := by
  cases action with
  | exchange | absorb | emit => exact h
  | spawn offer contracts =>
    obtain ⟨prepared, started, hprepare, hmoved⟩ := h
    exact ⟨prepared, started, prepare_of_imp (fun _ _ => @hcompose _ _ _) hprepare, hmoved⟩

/-- What is carried out within a budget is carried out within a larger one. -/
lemma commit_of_relaxedBy (hoptions : options.RelaxedBy options') {action : Action}
    (h : run.commit options compose action = .ok next) :
    run.commit options' compose' action = .ok next := by
  obtain ⟨moved, numbers, hmoves, hbudget, hnext⟩ := commit_eq_ok_iff.1 h
  refine commit_eq_ok_iff.2 ⟨moved, numbers, hmoves.of_imp hcompose, ?_, hnext⟩
  exact Nat.le_trans hbudget hoptions.stepBudget

/-- A run that comes to its end in some rounds does so under a larger budget, and in more rounds. -/
lemma drive_of_relaxedBy (hoptions : options.RelaxedBy options') {fuel fuel' : Nat}
    (hfuel : fuel ≤ fuel') (h : run.drive options compose fuel = .ok final) :
    run.drive options' compose' fuel' = .ok final := by
  induction fuel generalizing run fuel' with
  | zero => cases h
  | succ fuel ih =>
    obtain ⟨fuel', rfl⟩ := Nat.exists_eq_add_of_lt hfuel
    refine drive_succ_eq_ok_iff.2 ?_
    rw [hoptions.hierarchy]
    rcases drive_succ_eq_ok_iff.1 h with hend | ⟨action, next, haction, hcommit, hrest⟩
    · exact .inl hend
    · refine .inr ⟨action, next, haction, commit_of_relaxedBy hcompose hoptions hcommit, ?_⟩
      exact ih (Nat.le_add_right _ _) hrest

end

/-! ### Whole runs -/

lemma rounds_le_of_relaxedBy (hoptions : options.RelaxedBy options') (run : Run) :
    run.rounds options ≤ run.rounds options' := by
  have hbudget := hoptions.stepBudget
  unfold rounds
  omega

/-- A nested run that comes to its end comes to the same end under a larger budget. -/
theorem settleWithin_of_relaxedBy (hoptions : options.RelaxedBy options') (depth : Nat)
    (h : run.settleWithin options depth = .ok final) :
    run.settleWithin options' depth = .ok final := by
  induction depth generalizing run final with
  | zero => cases h
  | succ depth ih =>
    rw [settleWithin] at h ⊢
    exact drive_of_relaxedBy (fun _ _ _ => ih) hoptions (rounds_le_of_relaxedBy hoptions run) h

/-- A run that comes to its end comes to the same end under a larger budget. -/
theorem settle_of_relaxedBy (hoptions : options.RelaxedBy options')
    (h : run.settle options = .ok final) : run.settle options' = .ok final :=
  drive_of_relaxedBy (fun _ _ _ => settleWithin_of_relaxedBy hoptions _) hoptions
    (rounds_le_of_relaxedBy hoptions run) h

/-- The steps of a run that begins within the budget stay within the budget. -/
lemma Path.steps_le {first : Run} {actions : List Action} (h : Path options first actions run)
    (hfirst : first.steps ≤ options.stepBudget) : run.steps ≤ options.stepBudget := by
  cases h with
  | start => exact hfirst
  | step _ hstep =>
    obtain ⟨-, depth, hcommit⟩ := hstep
    exact steps_le_of_commit hcommit

end Run

/-- The step budget is a mere cut-off. Unless the budget runs out, generators are composed under a
larger budget to the same solution, or fail with the same error. The steps of a solution are within
the budget. -/
theorem solve_of_larger_budget (options : Options) (budget : Nat)
    (hbudget : options.stepBudget ≤ budget) (generators : List Generator) (bindings : Bindings) :
    ((∀ limit recent, solve options generators bindings ≠ .error (.stepLimit limit recent)) →
      solve { options with stepBudget := budget } generators bindings =
        solve options generators bindings) ∧
    ∀ solution, solve options generators bindings = .ok solution →
      solution.steps ≤ options.stepBudget := by
  constructor
  · intro hfinished
    unfold solve at hfinished ⊢
    cases hcheck : checkGenerators bindings generators with
    | error e => rfl
    | ok _ =>
      cases hsettle : (Run.start generators bindings).settle options with
      | error halt =>
        rw [hcheck, hsettle] at hfinished
        cases halt with
        | outOfSteps recent => exact absurd rfl (hfinished options.stepBudget recent)
        | outOfFuel => exact absurd rfl (hfinished options.stepBudget [])
      | ok final =>
        have hoptions : options.RelaxedBy { options with stepBudget := budget } := ⟨hbudget, rfl⟩
        rw [Run.settle_of_relaxedBy hoptions hsettle]
  · intro solution hsolution
    obtain ⟨final, hsettle, -, -, -, hsteps⟩ := Run.exists_settle_of_solve_eq_ok hsolution
    obtain ⟨⟨actions, hpath⟩, -⟩ := Run.exists_path_of_settle hsettle
    have hstart : (Run.start generators bindings).steps = 0 :=
      (Run.start_records generators bindings).1
    rw [hsteps]
    refine hpath.steps_le ?_
    rw [hstart]
    exact Nat.zero_le _

/-- A source starts two tuples of contracts, one after the other. The first is composed in a nested
run of two steps. The second gets stuck after one step, which is given back: its contracts wait for
what a feeder yields once it has received the composite's value. This takes eleven steps in all, and
a larger budget makes no difference. -/
theorem solve_of_larger_budget_nested :
    let source : Generator :=
      { name := "source"
        contract := Contract.of .void (.seq [
          .tuple [.contract (Contract.of .void (.const "D")),
            .contract (Contract.of (.const "D") (.const "E"))],
          .tuple [.contract (Contract.of .void (.const "X")),
            .contract (Contract.of (.seq [.const "X", .const "P"]) (.const "Q")),
            .contract (Contract.of (.const "R") (.const "S"))]]) }
    let feeder : Generator :=
      { name := "feeder"
        contract := Contract.of (.const "E") (.seq [.const "P", .const "R"]) }
    ∃ solution, solve { stepBudget := 11 } [source, feeder] ∅ = .ok solution ∧
      solve { stepBudget := 20 } [source, feeder] ∅ = .ok solution ∧ solution.steps ≤ 11 ∧
      solution.contract.text = "[Void; (S, Q)]" ∧ solution.warnings.length = 1 := by
  intro source feeder
  have hcomputed : (solve { stepBudget := 11 } [source, feeder] ∅).toOption.map
      (fun s => (s.contract.text, s.warnings.length)) = some ("[Void; (S, Q)]", 1) := by
    decide +kernel
  obtain ⟨solution, hok, hfacts⟩ := exists_of_toOption_eq_some hcomputed
  obtain ⟨htext, hwarnings⟩ := Prod.mk.inj hfacts
  have hfinished : ∀ limit recent, solve { stepBudget := 11 } [source, feeder] ∅ ≠
      .error (.stepLimit limit recent) := by
    intro limit recent
    rw [hok]
    exact fun h => nomatch h
  obtain ⟨hsame, hsteps⟩ :=
    solve_of_larger_budget { stepBudget := 11 } 20 (by decide) [source, feeder] ∅
  exact ⟨solution, hok, (hsame hfinished).trans hok, hsteps solution hok, htext, hwarnings⟩

end ContractComposition
