import ContractComposition.Proofs.Matching
import ContractComposition.Proofs.Run.Law
import ContractComposition.Proofs.Substitution

/-!
# The bindings of a run grow

The seats of a run share one table of bindings. No step takes a binding back or changes one
(`Run.keptBySteps_extendedBy`): a binding enters the table when a value is received, and joining
what a match has found leaves alone what is bound already.

If the run begins with ground bindings, and the contracts that travel as values carry no
constraints, more is true. What is yielded is ground, so a match binds the variables of the pattern
and no others. The bindings have been substituted into the pattern, so none of these is bound yet:
the match adds a binding for each of them, to a ground value, and joining cannot fail.
-/

namespace ContractComposition

/-- Contracts whose values carry no constraints stay so, yield plain values and bind variables to
plain values. -/
lemma Contract.law_unconstrained :
    Contract.Law (Contract.SidesWithin .unconstrained .unconstrained) Ty.IsPlain
      Bindings.IsPlain :=
  Contract.law_sidesWithin (fun _ => trivial) (Parts.Le.refl _) (Parts.Le.refl _)
    (Parts.ground_le _)

/-! ### What receiving a value binds -/

namespace Bindings

variable {b found joined : Bindings} {head offered : Ty}

/-- Ground bindings in which contracts carry no constraints are plain. -/
lemma isPlain_of_isGround (hground : ∀ x t, b.find? x = some t → t.isGround = true)
    (hwithin : b.Within .unconstrained) : b.IsPlain := by
  intro x t ht
  exact Ty.isPlain_iff.2 ⟨hground x t ht, hwithin x t ht⟩

/-- What a match of a plain value with a substituted pattern binds: the variables that are left in
the pattern. None of them is bound yet. -/
lemma contains_found_iff (ho : offered.IsPlain)
    (hfound : (head.subst b).matching? offered = some found) (x : String) :
    found.contains x = true ↔ x ∈ (head.subst b).occurrences := by
  have hground : offered.occurrences = [] := List.isEmpty_iff.1 ho.isGround
  refine Ty.contains_matching?_iff (fun y _ hy => ?_) hfound x
  rw [hground] at hy
  cases hy

/-- Joining what was found to the bindings under which it was found does not fail. -/
lemma exists_join?_of_matching? (hb : b.IsPlain) (hhead : head.Within .unconstrained)
    (ho : offered.IsPlain) (hfound : (head.subst b).matching? offered = some found) :
    ∃ joined, b.join? found = some joined := by
  refine exists_join?_of_disjoint fun x t hx => ?_
  have hcontains : found.contains x = true := NameTable.contains_iff.2 ⟨t, hx⟩
  exact Ty.find?_eq_none_of_mem_subst hb hhead ((contains_found_iff ho hfound x).1 hcontains)

/-- The variables that become bound are those that are left in the pattern. -/
lemma contains_joined_iff (hb : b.IsPlain) (hhead : head.Within .unconstrained)
    (ho : offered.IsPlain) (hfound : (head.subst b).matching? offered = some found)
    (hjoined : b.join? found = some joined) (x : String) :
    b.contains x = false ∧ joined.contains x = true ↔ x ∈ (head.subst b).freeVars := by
  rw [contains_join? hjoined, contains_found_iff ho hfound, Ty.mem_freeVars]
  constructor
  · rintro ⟨hx, hbound | hfree⟩
    · rw [hx] at hbound
      cases hbound
    · exact hfree
  · intro hfree
    have hnone : b.find? x = none := Ty.find?_eq_none_of_mem_subst hb hhead hfree
    exact ⟨NameTable.contains_eq_false_iff.2 hnone, .inr hfree⟩

end Bindings

namespace Run

/-! ### No step changes a binding -/

lemma bindings_of_exchange {run next : Run} {options : Options} {offer : Offer} {receiver : Seat}
    {received : Received} (h : run.exchange options offer receiver received = .ok next) :
    next.bindings = received.bindings := by
  obtain ⟨-, rfl⟩ := exchange_eq_ok h
  exact (reseats_wrapUp _ _ _).bindings

/-- Every step keeps all bindings, provided that the runs nested in it do. -/
theorem keptBySteps_extendedBy (options : Options) :
    KeptBySteps options fun run next => run.bindings.ExtendedBy next.bindings := by
  intro compose hcompose run next action hallows hcommit
  cases action with
  | exchange offer receiver received =>
    obtain ⟨-, -, -, hreceived⟩ := hallows
    obtain ⟨head, rest, found, -, -, hjoin, -⟩ := Contract.accept?_eq_some_iff.1 hreceived
    rw [bindings_of_exchange hcommit]
    exact Bindings.extendedBy_of_join? hjoin
  | spawn offer contracts =>
    rw [commit] at hcommit
    obtain ⟨prepared, started, numbers, hprepare, rfl⟩ := spawn_eq_ok hcommit
    have hprepared : run.bindings.ExtendedBy prepared.bindings := by
      rcases (prepare_eq_ok hprepare).2 with ⟨hsame, -⟩ | ⟨nested, -, -, -, hnested, -, hsame, -⟩
      · rw [hsame]
        exact Bindings.ExtendedBy.refl _
      · have hnest : (run.nest (members offer.seat.generator.name contracts)).bindings =
            run.bindings := (begins_nest _ _).bindings
        rw [hsame, ← hnest]
        exact hcompose hnested
    rw [(reseats_wrapUp _ _ _).bindings, seated_bindings]
    exact hprepared
  | absorb offer absorber =>
    obtain ⟨-, rfl⟩ := absorb_eq_ok hcommit
    rw [(reseats_wrapUp _ _ _).bindings]
    exact Bindings.ExtendedBy.refl _
  | emit offer =>
    obtain ⟨-, rfl⟩ := emit_eq_ok hcommit
    rw [(reseats_wrapUp _ _ _).bindings]
    exact Bindings.ExtendedBy.refl _

/-- A step keeps all bindings. -/
lemma Steps.extendedBy {options : Options} {run next : Run} {action : Action}
    (h : run.Steps options action next) : run.bindings.ExtendedBy next.bindings := by
  refine rel_of_steps ?_ ?_ (keptBySteps_extendedBy options).holdsOfSteps h
  · exact fun run => Bindings.ExtendedBy.refl run.bindings
  · exact fun hab hbc => hab.trans hbc

/-- All bindings are kept on a path. -/
lemma Path.extendedBy {options : Options} {first run : Run} {actions : List Action}
    (h : Path options first actions run) : first.bindings.ExtendedBy run.bindings := by
  refine rel_of_path ?_ ?_ (keptBySteps_extendedBy options).holdsOfSteps h
  · exact fun run => Bindings.ExtendedBy.refl run.bindings
  · exact fun hab hbc => hab.trans hbc

/-! ### What a step adds -/

/-- From one state to the next, bindings are added and none is changed. What is added is ground,
and an exchange binds the variables that the bindings leave in what the receiver waits for, and no
others. -/
structure GrowsGround (run : Run) (action : Action) (next : Run) : Prop where
  kept : run.bindings.ExtendedBy next.bindings
  ground : ∀ x t, next.bindings.find? x = some t → run.bindings.find? x = none → t.isGround = true
  bound : ∀ offer receiver received, action = .exchange offer receiver received →
    ∃ head rest, receiver.current.receives.pop? = some (head, rest) ∧
      ∀ x, run.bindings.contains x = false ∧ next.bindings.contains x = true ↔
        x ∈ (head.subst run.bindings).freeVars

/-- Whatever a seat waits for, what a match with an offered value binds can be joined to the
bindings of the run. -/
def JoinsMatches (run : Run) : Prop :=
  ∀ offer ∈ run.offers, ∀ seat ∈ run.live, ∀ head rest found,
    seat.current.receives.pop? = some (head, rest) →
      (head.subst run.bindings).matching? offer.value = some found →
        ∃ joined, run.bindings.join? found = some joined

section

variable {options : Options} {run next : Run} {action : Action}

/-- A run whose bindings are plain and in which travelling contracts carry no constraints. -/
abbrev Unconstrained (run : Run) : Prop :=
  run.Obeys (Contract.SidesWithin .unconstrained .unconstrained) Ty.IsPlain Bindings.IsPlain

lemma Unconstrained.joinsMatches (h : run.Unconstrained) : run.JoinsMatches := by
  intro offer hoffer seat hseat head rest found hpop hfound
  have hvalue : offer.value.IsPlain := (h.of_mem_offers Contract.law_unconstrained hoffer).1
  have hhead : head.Within .unconstrained := ((h.seats seat hseat).2.receives.pop? hpop).1
  exact Bindings.exists_join?_of_matching? h.bindings hhead hvalue hfound

lemma Unconstrained.growsGround (h : run.Unconstrained) (hstep : run.Steps options action next) :
    run.GrowsGround action next where
  kept := hstep.extendedBy
  ground x t ht _ := by
    have hnext : next.Unconstrained := h.of_steps Contract.law_unconstrained hstep
    have hplain : t.IsPlain := hnext.bindings x t ht
    exact hplain.isGround
  bound offer receiver received haction := by
    subst haction
    obtain ⟨haction, depth, hcommit⟩ := hstep
    obtain ⟨hoffer, hreceiver, -, hreceived⟩ := allows_of_nextAction? haction
    obtain ⟨head, rest, found, hpop, hfound, hjoin, -⟩ := Contract.accept?_eq_some_iff.1 hreceived
    have hvalue : offer.value.IsPlain := (h.of_mem_offers Contract.law_unconstrained hoffer).1
    have hhead : head.Within .unconstrained := ((h.seats _ hreceiver).2.receives.pop? hpop).1
    refine ⟨head, rest, hpop, fun x => ?_⟩
    rw [bindings_of_exchange hcommit]
    exact Bindings.contains_joined_iff h.bindings hhead hvalue hfound hjoin x

end

end Run

/-- Bindings only grow, by ground values, and by the variables that are waited for. If the given
bindings are ground, and the contracts inside the values of the generators and of the bindings carry
no constraints, then in every state of the run and of the runs nested in it, every step keeps the
bindings, adds ground ones, and binds in an exchange exactly the variables that the receiver waits
for; joining what a match has found never fails. In particular a solution has all given bindings. -/
theorem bindings_grow_ground (options : Options) (generators : List Generator)
    (bindings : Bindings) (hground : ∀ x t, bindings.find? x = some t → t.isGround = true)
    (hbindings : bindings.Within .unconstrained)
    (hgenerators : ∀ g ∈ generators, g.contract.SidesWithin .unconstrained .unconstrained) :
    (∀ run, Run.Reachable options (Run.start generators bindings) run →
      (∀ action next, run.Steps options action next → run.GrowsGround action next) ∧
        run.JoinsMatches) ∧
    ∀ solution, solve options generators bindings = .ok solution →
      bindings.ExtendedBy solution.bindings := by
  have hplain : bindings.IsPlain := Bindings.isPlain_of_isGround hground hbindings
  have hstart : (Run.start generators bindings).Unconstrained :=
    Run.Obeys.start hplain hgenerators
  constructor
  · intro run hrun
    have hobeys : run.Unconstrained := hstart.of_reachable Contract.law_unconstrained hrun
    exact ⟨fun action next hstep => hobeys.growsGround hstep, hobeys.joinsMatches⟩
  · intro solution hsolution
    obtain ⟨actions, final, hpath, -, -, hfinal⟩ := Run.exists_path_of_solve_eq_ok hsolution
    have hfirst : (Run.start generators bindings).bindings = bindings :=
      (Run.begins_start generators bindings).bindings
    rw [hfinal, ← hfirst]
    exact hpath.extendedBy

/-- A source hands a pair to a sink that waits for one with a variable in it, and then starts two
contracts. In the first step the variable is bound, and the given binding stays to the end. -/
theorem bindings_grow_ground_pair :
    let source : Generator :=
      { name := "source"
        contract := Contract.of .void (.seq [.tuple [.const "A", .const "B"],
          .tuple [.contract (Contract.of .void (.const "D")),
            .contract (Contract.of (.const "D") (.const "E"))]]) }
    let sink : Generator :=
      { name := "sink", contract := Contract.of (.tuple [.var "x", .const "B"]) (.var "x") }
    let given : Bindings := NameTable.ofList [("w", .const "C")]
    (∃ action next, (Run.start [source, sink] given).Steps {} action next ∧
      (Run.start [source, sink] given).GrowsGround action next ∧
      next.bindings.names = ["w", "x"]) ∧
    ∃ solution, solve {} [source, sink] given = .ok solution ∧
      given.ExtendedBy solution.bindings ∧ solution.contract.text = "[Void; (E, A)]" := by
  intro source sink given
  have hground : ∀ x t, given.find? x = some t → t.isGround = true := by
    rw [NameTable.forall_find?_iff]
    decide
  have hbindings : given.Within .unconstrained := by
    refine NameTable.forall_find?_iff.2 (List.forall_mem_singleton.2 ?_)
    trivial
  have hgenerators : ∀ g ∈ [source, sink],
      g.contract.SidesWithin .unconstrained .unconstrained := by
    refine List.forall_mem_cons.2 ⟨?_, List.forall_mem_singleton.2 ?_⟩
    · refine Contract.SidesWithin.of trivial ?_
      simp [Parts.unconstrained, Contract.of, Ty.normalize]
    · exact Contract.SidesWithin.of (by simp [Parts.unconstrained]) trivial
  obtain ⟨hgrowth, hsolution⟩ :=
    bindings_grow_ground {} [source, sink] given hground hbindings hgenerators
  constructor
  · have hcomputed : (((Run.start [source, sink] given).step {} fun _ => Run.settleWithin {} 1).map
        fun next => next.map fun run => run.bindings.names) = .ok (some ["w", "x"]) := by
      decide +kernel
    obtain ⟨result, hresult, hnames⟩ := exists_of_map_eq_ok hcomputed
    obtain ⟨next, rfl, hnext⟩ := Option.map_eq_some_iff.1 hnames
    obtain ⟨action, hstep⟩ := Run.exists_steps_of_step hresult
    exact ⟨action, next, hstep, (hgrowth _ .start).1 action next hstep, hnext⟩
  · have hcomputed : (solve {} [source, sink] given).toOption.map (fun s => s.contract.text) =
        some "[Void; (E, A)]" := by decide +kernel
    obtain ⟨solution, hok, htext⟩ := exists_of_toOption_eq_some hcomputed
    exact ⟨solution, hok, hsolution solution hok, htext⟩

end ContractComposition
