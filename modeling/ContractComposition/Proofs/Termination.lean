import ContractComposition.Proofs.Budget
import ContractComposition.Proofs.Growth
import ContractComposition.Proofs.Nesting

/-!
# Runs come to an end

A run calls itself: a step that starts a tuple of contracts drives a nested run to its end first.
The count of steps does not bound this recursion, since a nested run begins before the step is
counted, and the steps of one that gets stuck are given back. What gets smaller is the nesting of
contracts. What is yielded has no variables, so a nested run consists of plain contracts only, and
whatever is yielded in it is nested less deeply than the tuple that it was started by
(`Run.Unconstrained.nesting_lt`).

Within a run every step is counted, so there are no more of them than the budget allows
(`Run.Path.length_le`). Both together bound the recursion: `Run.settle` gives each nested run as
many levels as its tuple has, each level as many rounds as the budget leaves, and never runs out of
either (`Run.Unconstrained.settle_ne_outOfFuel`).
-/

namespace ContractComposition

namespace Run

variable {options : Options} {run next first final : Run} {action : Action}

/-! ### Every step is counted -/

/-- A move counts its step, on top of the steps of a nested run that is taken over. -/
lemma Moves.steps_lt {compose : Ty → Run → Except Halt Run}
    (hcompose : ∀ ⦃value : Ty⦄ ⦃nested final : Run⦄,
      compose value nested = .ok final → nested.steps ≤ final.steps)
    {moved : Run} {numbers : List Nat} (h : run.Moves compose moved numbers action) :
    run.steps < moved.steps := by
  cases action with
  | exchange | absorb | emit =>
    obtain ⟨rfl, -⟩ := h
    exact Nat.lt_succ_self run.steps
  | spawn offer contracts =>
    obtain ⟨prepared, started, hprepare, rfl, -⟩ := h
    rw [(seated_records prepared offer started).1]
    refine Nat.lt_succ_of_le ?_
    rcases records_of_prepare hprepare with ⟨hsame, -⟩ | ⟨nested, -, -, hnested, hsame, -⟩
    · exact Nat.le_of_eq hsame.symm
    · have hfirst := (run.nest_records (members offer.seat.generator.name contracts)).1
      rw [hsame, ← hfirst]
      exact hcompose hnested

lemma steps_lt_of_commit {compose : Ty → Run → Except Halt Run}
    (hcompose : ∀ ⦃value : Ty⦄ ⦃nested final : Run⦄,
      compose value nested = .ok final → nested.steps ≤ final.steps)
    (h : run.commit options compose action = .ok next) : run.steps < next.steps := by
  obtain ⟨moved, numbers, hmoves, -, rfl⟩ := commit_eq_ok_iff.1 h
  rw [(moved.reseats_wrapUp _ _).steps]
  exact hmoves.steps_lt hcompose

/-- The count of steps does not go down in a nested run. -/
lemma steps_le_of_settleWithin {depth : Nat} (h : run.settleWithin options depth = .ok final) :
    run.steps ≤ final.steps := by
  have hsteps : HoldsOfSteps options fun run next => run.steps ≤ next.steps := by
    intro depth hnested run next action _ hcommit
    exact Nat.le_of_lt (steps_lt_of_commit (fun _ _ _ hfinal => hnested hfinal) hcommit)
  refine settleWithin_rel ?_ ?_ hsteps depth h
  · exact fun run => Nat.le_refl run.steps
  · exact Nat.le_trans

lemma Steps.steps_lt (h : run.Steps options action next) : run.steps < next.steps := by
  obtain ⟨-, depth, hcommit⟩ := h
  exact steps_lt_of_commit (fun _ _ _ => steps_le_of_settleWithin) hcommit

/-- A run takes no more steps than the budget allows, wherever the count begins. -/
lemma Path.length_le {actions : List Action} (h : Path options first actions run) :
    actions.length ≤ options.stepBudget := by
  have hcount : ∀ {actions : List Action} {run : Run}, Path options first actions run →
      first.steps + actions.length ≤ run.steps := by
    intro actions run h
    induction h with
    | start => exact Nat.le_refl _
    | step _ hstep ih =>
      have hlt := hstep.steps_lt
      rw [List.length_append, List.length_singleton]
      omega
  cases h with
  | start => exact Nat.zero_le _
  | step hpath hstep =>
    obtain ⟨-, depth, hcommit⟩ := id hstep
    have hbudget := steps_le_of_commit hcommit
    have hlength := hcount (hpath.step hstep)
    omega

/-! ### When the bound on the recursion is too small -/

lemma tick_bind_ne_outOfFuel {f : Run → Run} :
    (run.tick options >>= fun ticked => pure (f ticked)) ≠ .error .outOfFuel := by
  unfold tick
  split <;> exact fun h => nomatch h

/-- Carrying out an action runs out of fuel only if a nested run does. -/
lemma commit_eq_outOfFuel {compose : Ty → Run → Except Halt Run}
    (h : run.commit options compose action = .error .outOfFuel) :
    ∃ offer contracts, action = .spawn offer contracts ∧
      compose offer.value (run.nest (members offer.seat.generator.name contracts)) =
        .error .outOfFuel := by
  cases action with
  | exchange | absorb | emit => exact absurd h tick_bind_ne_outOfFuel
  | spawn offer contracts =>
    refine ⟨offer, contracts, rfl, ?_⟩
    rw [commit, spawn] at h
    cases hprepare : run.prepare (compose offer.value) offer.seat.generator.name offer.value
        (members offer.seat.generator.name contracts) with
    | ok result =>
      simp only [hprepare] at h
      exact absurd h tick_bind_ne_outOfFuel
    | error halt =>
      simp only [hprepare] at h
      cases h
      unfold prepare at hprepare
      split at hprepare
      · cases hnested : compose offer.value
            (run.nest (members offer.seat.generator.name contracts)) with
        | ok nested =>
          rw [hnested] at hprepare
          cases hprepare
        | error halt =>
          rw [hnested] at hprepare
          cases hprepare
          rfl
      · cases hprepare

/-- A run does not run out of rounds, if it has one more than the budget leaves and the nested runs
do not run out of fuel. -/
lemma drive_ne_outOfFuel {compose : Ty → Run → Except Halt Run} {p : Run → Prop}
    (hstep : ∀ {run next : Run} {action : Action}, p run →
      run.nextAction? options.hierarchy = some action →
      run.commit options compose action = .ok next → p next ∧ run.steps < next.steps)
    (hfuel : ∀ {run : Run} {action : Action}, p run →
      run.nextAction? options.hierarchy = some action →
      run.commit options compose action ≠ .error .outOfFuel)
    {fuel : Nat} (hrun : p run) (hsteps : run.steps ≤ options.stepBudget)
    (hrounds : options.stepBudget < run.steps + fuel) :
    run.drive options compose fuel ≠ .error .outOfFuel := by
  induction fuel generalizing run with
  | zero => exact absurd hsteps (Nat.not_le.2 hrounds)
  | succ fuel ih =>
    rw [drive, step]
    cases haction : run.nextAction? options.hierarchy with
    | none =>
      intro hdriven
      cases hdriven
    | some action =>
      cases hcommit : run.commit options compose action with
      | error halt =>
        have hhalt := hfuel hrun haction
        rw [hcommit] at hhalt
        simpa [Except.map, hcommit] using hhalt
      | ok next =>
        obtain ⟨hnext, hlt⟩ := hstep hrun haction hcommit
        have hrest := ih hnext (steps_le_of_commit hcommit) (by omega)
        simpa [Except.map, hcommit] using hrest

lemma lt_steps_add_rounds (h : run.steps ≤ options.stepBudget) :
    options.stepBudget < run.steps + run.rounds options := by
  unfold rounds
  omega

/-! ### Nested runs -/

/-- A run whose seats have plain contracts, in which contracts are nested at most `n` deep. -/
abbrev Plain (n : Nat) (run : Run) : Prop :=
  run.Obeys (Contract.PlainWithin n) (Ty.PlainWithin n) fun _ => True

/-- A nested run has plain contracts, in which contracts are nested less deeply than in the value
that it is started by. -/
lemma exists_plain_nest (run : Run) {offer : Offer} {contracts : List Contract}
    (hvalue : offer.value.IsPlain) (hcontracts : offer.value.contracts? = some contracts) :
    ∃ n, offer.value.nesting = n + 1 ∧
      (run.nest (members offer.seat.generator.name contracts)).Plain n := by
  obtain ⟨n, hn, hplain⟩ := hvalue.exists_nesting_eq_succ hcontracts
  refine ⟨n, hn, Obeys.of_begins (run.begins_nest _) trivial fun g hg => ?_⟩
  exact hplain _ (contract_mem_of_mem_members hg)

/-- A nested run with plain contracts does not run out of fuel, if it may nest further runs as
deeply as its contracts are nested. -/
theorem Plain.settleWithin_ne_outOfFuel {depth n : Nat} (hn : n < depth) (h : run.Plain n)
    (hsteps : run.steps ≤ options.stepBudget) :
    run.settleWithin options depth ≠ .error .outOfFuel := by
  induction depth generalizing run n with
  | zero => exact absurd hn (Nat.not_lt_zero n)
  | succ depth ih =>
    rw [settleWithin]
    refine drive_ne_outOfFuel
      (p := fun current => current.Plain n ∧ current.steps ≤ options.stepBudget) ?_ ?_
      ⟨h, hsteps⟩ hsteps (lt_steps_add_rounds hsteps)
    · rintro current next action ⟨hcurrent, -⟩ haction hcommit
      refine ⟨⟨?_, steps_le_of_commit hcommit⟩, ?_⟩
      · exact hcurrent.of_steps (Contract.law_plainWithin n) ⟨haction, depth, hcommit⟩
      · exact steps_lt_of_commit (fun _ _ _ => steps_le_of_settleWithin) hcommit
    · rintro current action ⟨hcurrent, hcount⟩ haction hout
      obtain ⟨offer, contracts, rfl, hnested⟩ := commit_eq_outOfFuel hout
      obtain ⟨hoffer, hcontracts⟩ := allows_of_nextAction? haction
      have hvalue := (hcurrent.of_mem_offers (Contract.law_plainWithin n) hoffer).1
      obtain ⟨m, hm, hplain⟩ := exists_plain_nest current hvalue.plain hcontracts
      have hle := hvalue.nesting
      refine ih (by omega) hplain ?_ hnested
      rwa [(current.nest_records _).1]

/-- A run in which travelling contracts carry no constraints does not run out of fuel. -/
theorem Unconstrained.settle_ne_outOfFuel (h : run.Unconstrained)
    (hsteps : run.steps ≤ options.stepBudget) : run.settle options ≠ .error .outOfFuel := by
  refine drive_ne_outOfFuel
    (p := fun current => current.Unconstrained ∧ current.steps ≤ options.stepBudget) ?_ ?_
    ⟨h, hsteps⟩ hsteps (lt_steps_add_rounds hsteps)
  · rintro current next action ⟨hcurrent, -⟩ haction hcommit
    refine ⟨⟨?_, steps_le_of_commit hcommit⟩, ?_⟩
    · have hstep : current.Steps options action next := by
        refine ⟨haction, action.offer.value.nesting, ?_⟩
        rw [← hcommit]
        exact commit_congr rfl
      exact hcurrent.of_steps Contract.law_unconstrained hstep
    · exact steps_lt_of_commit (fun _ _ _ => steps_le_of_settleWithin) hcommit
  · rintro current action ⟨hcurrent, hcount⟩ haction hout
    obtain ⟨offer, contracts, rfl, hnested⟩ := commit_eq_outOfFuel hout
    obtain ⟨hoffer, hcontracts⟩ := allows_of_nextAction? haction
    have hvalue := (hcurrent.of_mem_offers Contract.law_unconstrained hoffer).1
    obtain ⟨n, hn, hplain⟩ := exists_plain_nest current hvalue hcontracts
    refine hplain.settleWithin_ne_outOfFuel (by omega) ?_ hnested
    rwa [(current.nest_records _).1]

/-- What is yielded in a nested run, or in a run nested in it, is nested less deeply than the value
that the nested run is started by. -/
theorem Unconstrained.nesting_lt (h : run.Unconstrained) {offer : Offer}
    {contracts : List Contract}
    (haction : run.nextAction? options.hierarchy = some (.spawn offer contracts)) {state : Run}
    (hstate : Reachable options (run.nest (members offer.seat.generator.name contracts)) state)
    {inner : Offer} (hinner : inner ∈ state.offers) :
    inner.value.nesting < offer.value.nesting := by
  obtain ⟨hoffer, hcontracts⟩ := allows_of_nextAction? haction
  have hvalue := (h.of_mem_offers Contract.law_unconstrained hoffer).1
  obtain ⟨n, hn, hplain⟩ := exists_plain_nest run hvalue hcontracts
  have hlaw := Contract.law_plainWithin n
  have hle := ((hplain.of_reachable hlaw hstate).of_mem_offers hlaw hinner).1.nesting
  omega

end Run

/-- What a variable stands for under plain bindings is found with a single look-up. -/
lemma Bindings.IsPlain.lookWithin_succ {b : Bindings} (hb : b.IsPlain) (bound : Nat) (x : String) :
    b.lookWithin (bound + 1) 0 x = b.look 0 x := by
  cases hx : b.find? x with
  | none => rw [look_of_find?_eq_none hx, lookWithin, hx]
  | some t =>
    obtain ⟨bound', hlook⟩ := look_zero_of_find?_eq_some hx
    have ht : t.IsPlain := hb x t hx
    rw [hlook, lookWithin, hx, ht.expand_congr (b.lookWithin bound') (b.lookWithin bound) 1 1]
    exact if_neg (Nat.not_lt_zero _)

/-- Solving terminates. If the given bindings are ground, and the contracts inside the values of the
generators and of the bindings carry no constraints, then the recursion of runs is well-founded:
whatever is yielded in a run nested in a step is nested less deeply than the tuple that the step
starts. Every run, be it nested or not, takes at most as many steps as the budget allows and then
attempts at most one more. Substitution is well-founded as well: what a variable stands for is found
with a single look-up, however many are allowed. So the bounds on the recursion are never
exhausted: a run is settled, or the budget has run out. -/
theorem solving_terminates (options : Options) (generators : List Generator) (bindings : Bindings)
    (hground : ∀ x t, bindings.find? x = some t → t.isGround = true)
    (hbindings : bindings.Within .unconstrained)
    (hgenerators : ∀ g ∈ generators, g.contract.SidesWithin .unconstrained .unconstrained) :
    (∀ run, Run.Reachable options (Run.start generators bindings) run →
      (∀ offer contracts, run.nextAction? options.hierarchy = some (.spawn offer contracts) →
        offer.value.isTuple = true →
        ∀ state, Run.Reachable options
            (run.nest (Run.members offer.seat.generator.name contracts)) state →
          ∀ inner ∈ state.offers, inner.value.nesting < offer.value.nesting) ∧
      (∀ actions state, Run.Path options run actions state →
        actions.length ≤ options.stepBudget) ∧
      ∀ bound x, run.bindings.lookWithin (bound + 1) 0 x = run.bindings.look 0 x) ∧
    ((∃ final, (Run.start generators bindings).settle options = .ok final) ∨
      ∃ recent, (Run.start generators bindings).settle options = .error (.outOfSteps recent)) := by
  have hstart : (Run.start generators bindings).Unconstrained :=
    Run.Obeys.start (Bindings.isPlain_of_isGround hground hbindings) hgenerators
  constructor
  · intro run hrun
    have hobeys : run.Unconstrained := hstart.of_reachable Contract.law_unconstrained hrun
    refine ⟨?_, fun _ _ => Run.Path.length_le, hobeys.bindings.lookWithin_succ⟩
    intro offer contracts haction _ state hstate inner hinner
    exact hobeys.nesting_lt haction hstate hinner
  · have hsteps : (Run.start generators bindings).steps ≤ options.stepBudget := by
      rw [(Run.start_records generators bindings).1]
      exact Nat.zero_le _
    have hfuel := hstart.settle_ne_outOfFuel hsteps
    cases hsettle : (Run.start generators bindings).settle options with
    | ok final => exact .inl ⟨final, rfl⟩
    | error halt =>
      cases halt with
      | outOfSteps recent => exact .inr ⟨recent, rfl⟩
      | outOfFuel => exact absurd hsettle hfuel

/-- A source starts three contracts, the first of which starts two more. The inner two are composed
in a run that is nested twice. The other contracts wait for what nobody yields, so the outer nested
run gets stuck after four steps, which are given back. -/
theorem solving_terminates_nested :
    let pair : Ty := .tuple [.contract (Contract.of .void (.const "D")),
      .contract (Contract.of (.const "D") (.const "E"))]
    let source : Generator :=
      { name := "source"
        contract := Contract.of .void (.tuple [.contract (Contract.of .void pair),
          .contract (Contract.of (.const "F") (.const "G")),
          .contract (Contract.of (.const "H") (.const "I"))]) }
    (∃ offer contracts, (Run.start [source] ∅).nextAction? ∅ = some (.spawn offer contracts) ∧
      offer.value.nesting = 2 ∧
      ∀ state, Run.Reachable {} ((Run.start [source] ∅).nest
          (Run.members offer.seat.generator.name contracts)) state →
        ∀ inner ∈ state.offers, inner.value.nesting < 2) ∧
    (∀ actions state, Run.Path {} (Run.start [source] ∅) actions state →
      actions.length ≤ 10000) ∧
    ∃ final, (Run.start [source] ∅).settle {} = .ok final ∧ final.steps = 5 ∧
      final.warnings.size = 1 := by
  intro pair source
  have hground : ∀ x t, (∅ : Bindings).find? x = some t → t.isGround = true := nofun
  have hbindings : (∅ : Bindings).Within .unconstrained := Bindings.within_empty
  have hgenerators : ∀ g ∈ [source], g.contract.SidesWithin .unconstrained .unconstrained := by
    have hcontract : ∀ {receives yields : Ty}, receives.Within .unconstrained →
        yields.Within .unconstrained →
        (Ty.contract (Contract.of receives yields)).Within .unconstrained := by
      intro receives yields hreceives hyields
      exact Ty.within_contract.2 ⟨.inr ⟨rfl, rfl⟩, hreceives.normalize, hyields.normalize⟩
    have hpair : pair.Within .unconstrained :=
      ⟨hcontract trivial trivial, hcontract trivial trivial, trivial⟩
    refine List.forall_mem_singleton.2 (Contract.SidesWithin.of trivial ?_)
    exact ⟨hcontract trivial hpair, hcontract trivial trivial, hcontract trivial trivial, trivial⟩
  obtain ⟨hreachable, hsettle⟩ := solving_terminates {} [source] ∅ hground hbindings hgenerators
  obtain ⟨hnesting, hlength, -⟩ := hreachable _ .start
  refine ⟨?_, hlength, ?_⟩
  · have hcomputed : ((Run.start [source] ∅).nextAction? ∅).bind
        (fun action => match action with
          | .spawn offer _ => some (offer.value.nesting, offer.value.isTuple)
          | _ => none) = some (2, true) := by decide +kernel
    obtain ⟨action, haction, hfacts⟩ := Option.bind_eq_some_iff.1 hcomputed
    cases action with
    | spawn offer contracts =>
      obtain ⟨hdepth, htuple⟩ := Prod.mk.inj (Option.some.inj hfacts)
      refine ⟨offer, contracts, haction, hdepth, fun state hstate inner hinner => ?_⟩
      rw [← hdepth]
      exact hnesting offer contracts haction htuple state hstate inner hinner
    | exchange | absorb | emit => cases hfacts
  · have hcomputed : ((Run.start [source] ∅).settle {}).toOption.map
        (fun final => (final.steps, final.warnings.size)) = some (5, 1) := by decide +kernel
    obtain ⟨final, hfinal, hfacts⟩ := exists_of_toOption_eq_some hcomputed
    obtain ⟨hsteps, hwarnings⟩ := Prod.mk.inj hfacts
    exact ⟨final, hfinal, hsteps, hwarnings⟩

end ContractComposition
