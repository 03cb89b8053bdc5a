import ContractComposition.Proofs.Growth
import ContractComposition.Proofs.Run.Restarts
import ContractComposition.Proofs.Variables

/-!
# Fresh variables are fresh

Each time a generator starts over, its variables are renamed with a number that counts the restarts.
If no variable has the mark of a renaming at the beginning, then every variable of a run is unmarked
or carries a number that was counted before (`Run.Named`). The contracts that a generator starts
over from are given at the beginning, or come from a yielded value and have no variables; what a
composite yields and receives may well be marked, but a composite does not start over.

So at each restart the next number is new, and so are the names that carry it (`Restart.IsFresh`).
The count of restarts is handed to nested runs and taken back from them, also from those that got
stuck. Therefore the restarts of all runs are numbered one after another, and no number is used
twice (`Run.FreshLog`).
-/

namespace ContractComposition

/-- Contracts whose values carry no constraints stay so, whatever the bindings look like, as long as
they do not bring constraints with them. -/
lemma Contract.law_unconstrained_bindings :
    Contract.Law (Contract.SidesWithin .unconstrained .unconstrained) Ty.IsPlain
      (Bindings.Within .unconstrained) :=
  Contract.law_sidesWithin (fun _ => trivial) (Parts.Le.refl _) (Parts.ground_le _)
    (Parts.Le.refl _)

/-- A contract that comes from a plain value mentions no variables. -/
lemma Ty.IsPlain.onlyMentions {p : String → Prop} {t : Ty} (h : t.IsPlain)
    {contracts : List Contract} (hcontracts : t.contracts? = some contracts) :
    ∀ c ∈ contracts, c.OnlyMentions p := by
  intro c hc
  have hbody := h.contracts? hcontracts c hc
  obtain ⟨hconstraints, hreceives, hyields⟩ := within_contract.1 hbody
  obtain ⟨hcondition, hforbidden⟩ := hconstraints.resolve_left id
  exact .of_sides (within_vars_of_isGround hreceives.isGround)
    (within_vars_of_isGround hyields.isGround) hcondition hforbidden

/-! ### Names that were counted -/

/-- What an infinite generator starts over from has no marks. -/
def Generator.IsUnmarked (g : Generator) : Prop :=
  g.infinite = true → ∀ x ∈ g.contract.allVars, ContractComposition.IsUnmarked x

namespace Run

/-- All variables of the run are unmarked or carry a number of at most `n`, and what generators
start over from is unmarked. -/
structure Named (n : Nat) (run : Run) : Prop where
  obeys : Obeys (Contract.SidesWithin .unconstrained .unconstrained) Ty.IsPlain
    (Bindings.Within .unconstrained) run
  bindings : ∀ x t, run.bindings.find? x = some t →
    NamedUpTo n x ∧ t.Within (.vars (NamedUpTo n))
  seats : ForallSeats (fun _ g c => g.IsUnmarked ∧ c.OnlyMentions (NamedUpTo n)) run

/-- What is offered mentions no variables, and neither does what remains to be offered. -/
lemma onlyMentions_of_mem_offers {run : Run} {offer : Offer} (hoffer : offer ∈ run.offers)
    (p : String → Prop) :
    offer.value.isGround = true ∧ offer.yielded.successor.OnlyMentions p :=
  Contract.OnlyMentions.produce? (mem_offers.1 hoffer).2

namespace Named

variable {run : Run} {n : Nat}

lemma mono (h : run.Named n) {m : Nat} (hnm : n ≤ m) : run.Named m where
  obeys := h.obeys
  bindings x t hx := ⟨(h.bindings x t hx).1.mono hnm,
    (h.bindings x t hx).2.mono (Parts.vars_le fun _ => NamedUpTo.mono hnm)⟩
  seats := h.seats.mono fun _ _ _ hgc => ⟨hgc.1, hgc.2.mono fun _ => NamedUpTo.mono hnm⟩

lemma values (h : run.Named n) : run.bindings.Within (.vars (NamedUpTo n)) :=
  fun x t hx => (h.bindings x t hx).2

/-! ### Actions -/

lemma exchanged (h : run.Named n) {offer : Offer} {receiver : Seat} {received : Received}
    {hierarchy : Hierarchy} (hallows : run.Allows hierarchy (.exchange offer receiver received)) :
    (run.exchanged offer receiver received).Named n := by
  have hobeys := h.obeys.exchanged Contract.law_unconstrained_bindings hallows
  obtain ⟨hoffer, hreceiver, -, hreceived⟩ := hallows
  obtain ⟨hground, hsuccessor⟩ := onlyMentions_of_mem_offers hoffer (NamedUpTo n)
  obtain ⟨hrest, hbindings⟩ :=
    (h.seats _ hreceiver).2.accept? h.bindings hground hreceived
  refine ⟨hobeys, hbindings, ?_⟩
  have hyielder : ForallSeats (fun _ g c => g.IsUnmarked ∧ c.OnlyMentions (NamedUpTo n))
      (run.put offer.seat.number offer.yielded.successor) :=
    h.seats.put fun _ _ hgc => ⟨hgc.1, hsuccessor⟩
  exact hyielder.put fun _ _ hgc => ⟨hgc.1, hrest.subst fun x t hx => (hbindings x t hx).2⟩

lemma absorbed (h : run.Named n) {offer : Offer} {absorber : Seat} {hierarchy : Hierarchy}
    (hallows : run.Allows hierarchy (.absorb offer absorber)) :
    (run.absorbed offer absorber).Named n := by
  have hobeys := h.obeys.absorbed Contract.law_unconstrained_bindings hallows
  obtain ⟨hoffer, -, habsorber, -⟩ := hallows
  obtain ⟨hground, hsuccessor⟩ := onlyMentions_of_mem_offers hoffer (NamedUpTo n)
  refine ⟨hobeys, h.bindings, ?_⟩
  have hyielder : ForallSeats (fun _ g c => g.IsUnmarked ∧ c.OnlyMentions (NamedUpTo n))
      (run.put offer.seat.number offer.yielded.successor) :=
    h.seats.put fun _ _ hgc => ⟨hgc.1, hsuccessor⟩
  exact hyielder.put fun _ _ hgc => ⟨hgc.1, (h.seats _ habsorber).2.appendYield hground⟩

lemma handedOut (h : run.Named n) {offer : Offer} {hierarchy : Hierarchy}
    (hallows : run.Allows hierarchy (.emit offer)) : (run.handedOut offer).Named n := by
  have hsuccessor := (onlyMentions_of_mem_offers hallows.1 (NamedUpTo n)).2
  exact ⟨h.obeys.handedOut Contract.law_unconstrained_bindings hallows, h.bindings,
    h.seats.put fun _ _ hgc => ⟨hgc.1, hsuccessor⟩⟩

lemma seated (h : run.Named n) {offer : Offer} {started : List Generator}
    (hobeys : Obeys (Contract.SidesWithin .unconstrained .unconstrained) Ty.IsPlain
      (Bindings.Within .unconstrained) (run.seated offer started))
    (hsuccessor : offer.yielded.successor.OnlyMentions (NamedUpTo n))
    (hstarted : ∀ g ∈ started, g.IsUnmarked ∧ g.contract.OnlyMentions (NamedUpTo n)) :
    (run.seated offer started).Named n := by
  refine ⟨hobeys, ?_, ?_⟩
  · rw [seated_bindings]
    exact h.bindings
  · have hyielder : ForallSeats (fun _ g c => g.IsUnmarked ∧ c.OnlyMentions (NamedUpTo n)) (run
        |>.put offer.seat.number offer.yielded.successor |>.recordSeat .yield offer.seat) :=
      h.seats.put fun _ _ hgc => ⟨hgc.1, hsuccessor⟩
    exact hyielder.seatStarted fun g hg _ _ => hstarted g hg

/-- The contract that a run is composed into. -/
lemma ending (h : run.Named n) {contract : Contract} (hending : run.ending = .composed contract) :
    contract.OnlyMentions (NamedUpTo n) := by
  have houtput : run.output.OnlyMentions (NamedUpTo n) :=
    .output fun v hv => (h.obeys.emitted v hv).isGround
  unfold Run.ending at hending
  split at hending
  · cases hending
    exact houtput
  · rename_i seat hlive
    cases hending
    have hseat := h.seats seat (hlive ▸ List.mem_singleton_self seat)
    exact houtput.andThen (hseat.2.subst h.values)
  · cases hending

/-- The first state of a run. -/
lemma of_begins {first : Run} {generators : List Generator} {given : Bindings}
    (hfirst : first.Begins generators given)
    (hobeys : Obeys (Contract.SidesWithin .unconstrained .unconstrained) Ty.IsPlain
      (Bindings.Within .unconstrained) first)
    (hbindings : ∀ x t, given.find? x = some t → NamedUpTo n x ∧ t.Within (.vars (NamedUpTo n)))
    (hgenerators : ∀ g ∈ generators, g.IsUnmarked ∧ g.contract.OnlyMentions (NamedUpTo n)) :
    first.Named n where
  obeys := hobeys
  bindings := hfirst.bindings ▸ hbindings
  seats := hfirst.forallSeats fun g hg _ _ => hgenerators g hg

/-- The generators for the contracts of a plain value. -/
lemma of_mem_members {parent : String} {value : Ty} (hvalue : value.IsPlain)
    {contracts : List Contract} (hcontracts : value.contracts? = some contracts) :
    ∀ g ∈ members parent contracts,
      g.IsUnmarked ∧ g.contract.OnlyMentions (NamedUpTo n) := by
  intro g hg
  have hcontract := contract_mem_of_mem_members hg
  refine ⟨fun _ => ?_, hvalue.onlyMentions hcontracts _ hcontract⟩
  exact Contract.onlyMentions_iff.1 (hvalue.onlyMentions hcontracts _ hcontract)

/-- Whatever is started, by itself or out of a nested run, leaves the run named up to its count of
restarts. -/
lemma spawned (h : run.Named run.restarts) {compose : Ty → Run → Except Halt Run} {moved : Run}
    {numbers : List Nat} {offer : Offer} {contracts : List Contract} {hierarchy : Hierarchy}
    (hallows : run.Allows hierarchy (.spawn offer contracts))
    (hcompose : ∀ ⦃nested final : Run⦄, compose offer.value nested = .ok final →
      final.Named final.restarts ∧ run.restarts ≤ final.restarts)
    (hmoves : run.Moves compose moved numbers (.spawn offer contracts)) :
    moved.Named moved.restarts := by
  obtain ⟨prepared, started, hprepare, rfl, -⟩ := hmoves
  have hlaw := Contract.law_unconstrained_bindings
  obtain ⟨hvalue, hsides⟩ := h.obeys.of_mem_offers hlaw hallows.1
  have hmembers := fun g (hg : g ∈ members offer.seat.generator.name contracts) =>
    hlaw.contracts hvalue hallows.2 _ (contract_mem_of_mem_members hg)
  obtain ⟨hprepared, hstarted⟩ := h.obeys.prepare hlaw
    (fun _ _ hfinal _ => (hcompose hfinal).1.obeys) hmembers hprepare
  have hsuccessor := fun n => (onlyMentions_of_mem_offers hallows.1 (NamedUpTo n)).2
  rw [seated_restarts]
  rcases prepare_cases hprepare with ⟨-, rfl, rfl⟩ | ⟨final, -, hfinal, hadopt⟩
  · exact h.seated (hprepared.seated hsides hstarted) (hsuccessor _)
      (of_mem_members hvalue hallows.2)
  · obtain ⟨hnamed, hle⟩ := hcompose hfinal
    rw [restarts_of_adopt hadopt]
    unfold adopt at hadopt
    split at hadopt
    · rename_i contract hending
      cases hadopt
      refine seated ⟨hprepared, hnamed.bindings, (h.mono hle).seats⟩
        (hprepared.seated hsides hstarted) (hsuccessor _) ?_
      exact List.forall_mem_singleton.2 ⟨nofun, hnamed.ending hending⟩
    · cases hadopt
      exact seated ⟨hprepared, (h.mono hle).bindings, (h.mono hle).seats⟩
        (hprepared.seated hsides hstarted) (hsuccessor _) (of_mem_members hvalue hallows.2)

end Named

end Run

/-! ### Restarts -/

/-- The variables of the contract that a generator starts over from are new, except for those in
`keep`. -/
structure Restart.IsFresh (keep : List String) (r : Restart) : Prop where
  /-- A seat has finished whose generator is infinite, in a run that keeps the variables `keep`. -/
  restarts : r.before.seat? r.seat.number = some r.seat ∧ r.seat.current.isTerminal = true ∧
    r.seat.generator.infinite = true ∧ r.before.external = keep
  /-- Retiring the seat puts the fresh contract there and counts the restart. -/
  retires : r.before.retire r.seat.number =
    { r.before.put r.seat.number r.fresh with restarts := r.count }
  /-- The generator does not start over from variables that were renamed before. -/
  unmarked : ∀ v ∈ r.seat.generator.contract.allVars, IsUnmarked v
  /-- Variables are kept, or renamed with the number of the restart. -/
  vars : ∀ x ∈ r.fresh.allVars, x ∈ keep ∧ x ∈ r.seat.generator.contract.allVars ∨
    ∃ v ∈ r.seat.generator.contract.allVars, v ∉ keep ∧ x = freshName v r.count
  /-- Different variables get different names. -/
  distinct : ∀ v ∈ r.seat.generator.contract.allVars, ∀ w ∈ r.seat.generator.contract.allVars,
    freshName v r.count = freshName w r.count → v = w
  /-- The new names are not in use, neither in the run nor in one that it is nested in. -/
  unused : ∀ v ∈ r.seat.generator.contract.allVars, ∀ run ∈ r.before :: r.outer,
    run.bindings.find? (freshName v r.count) = none ∧
      ∀ seat ∈ run.live, freshName v r.count ∉ seat.current.allVars

namespace Run

variable {keep : List String} {run middle next : Run} {log more : List Restart}

/-- A name that carries a number which was not counted is not in use. -/
lemma Named.not_mentioned {n k : Nat} (h : run.Named n) (hk : n < k) {v : String}
    (hv : IsUnmarked v) :
    run.bindings.find? (freshName v k) = none ∧
      ∀ seat ∈ run.live, freshName v k ∉ seat.current.allVars := by
  constructor
  · cases hfind : run.bindings.find? (freshName v k) with
    | none => rfl
    | some t => exact absurd (h.bindings _ t hfind).1 (not_namedUpTo_freshName hk hv)
  · intro seat hseat hmem
    have hnamed := Contract.onlyMentions_iff.1 (h.seats seat hseat).2 _ hmem
    exact not_namedUpTo_freshName hk hv hnamed

/-- The restarts of a log are fresh and counted one after another, and lead to a run that is named
up to its count. -/
structure FreshLog (keep : List String) (run : Run) (log : List Restart) (next : Run) : Prop where
  named : next.Named next.restarts
  external : next.external = keep
  restarts : next.restarts = run.restarts + log.length
  counts : log.map Restart.count = List.range' (run.restarts + 1) log.length
  fresh : ∀ r ∈ log, r.IsFresh keep

namespace FreshLog

/-- Nothing starts over. -/
lemma of_restarts_eq (hnamed : next.Named next.restarts) (hexternal : next.external = keep)
    (hrestarts : next.restarts = run.restarts) : FreshLog keep run [] next :=
  ⟨hnamed, hexternal, hrestarts, rfl, List.forall_mem_nil _⟩

lemma trans (h : FreshLog keep run log middle) (hmore : FreshLog keep middle more next) :
    FreshLog keep run (log ++ more) next where
  named := hmore.named
  external := hmore.external
  restarts := by
    rw [hmore.restarts, h.restarts, List.length_append]
    omega
  counts := by
    have hnext : middle.restarts + 1 = run.restarts + 1 + 1 * log.length := by
      rw [h.restarts]
      omega
    rw [List.map_append, h.counts, hmore.counts, hnext, List.range'_append, List.length_append]
  fresh := List.forall_mem_append.2 ⟨h.fresh, hmore.fresh⟩

/-- The restarts of a log are counted from the first state on. -/
lemma lt_count (h : FreshLog keep run log next) {r : Restart} (hr : r ∈ log) :
    run.restarts < r.count := by
  have hcount : r.count ∈ List.range' (run.restarts + 1) log.length :=
    h.counts ▸ List.mem_map_of_mem hr
  exact (List.mem_range'_1.1 hcount).1

/-- Seen from a run that is named up to the count at its beginning, a log stays fresh. -/
lemma within {outer : Run} (h : FreshLog keep run log next) (houter : outer.Named run.restarts) :
    FreshLog keep run (log.map (Restart.within outer)) next where
  named := h.named
  external := h.external
  restarts := by rw [h.restarts, List.length_map]
  counts := by
    rw [List.map_map, List.length_map, ← h.counts]
    rfl
  fresh := by
    refine List.forall_mem_map.2 fun r hr => ?_
    obtain ⟨hrestarts, hretires, hunmarked, hvars, hdistinct, hunused⟩ := h.fresh r hr
    refine ⟨hrestarts, hretires, hunmarked, hvars, hdistinct, fun v hv state hstate => ?_⟩
    rw [Restart.within, ← List.cons_append] at hstate
    rcases List.mem_append.1 hstate with hstate | hstate
    · exact hunused v hv state hstate
    · obtain rfl := List.mem_singleton.1 hstate
      exact houter.not_mentioned (h.lt_count hr) (hunmarked v hv)

/-! ### Restarts at the end of a step -/

/-- A generator that starts over in a run that is named up to its count. -/
lemma isFresh_of_named (h : run.Named run.restarts) (hkeep : run.external = keep) {number : Nat}
    {seat : Seat} (hseat : run.seat? number = some seat)
    (hterminal : seat.current.isTerminal = true) (hinfinite : seat.generator.infinite = true)
    (hretire : run.retire number = run.restart seat) :
    Restart.IsFresh keep { before := run, seat := seat } := by
  obtain ⟨hlive, rfl⟩ := mem_of_seat?_eq_some hseat
  have hunmarked := (h.seats seat hlive).1 hinfinite
  refine ⟨⟨hseat, hterminal, hinfinite, hkeep⟩, hretire, hunmarked, fun x hx => ?_, ?_, ?_⟩
  · subst hkeep
    exact Contract.mem_allVars_freshen hunmarked hx
  · intro v hv w hw heq
    exact (freshName_inj (hunmarked v hv) (hunmarked w hw) heq).1
  · intro v hv state hstate
    obtain rfl := List.mem_singleton.1 hstate
    exact h.not_mentioned (Nat.lt_succ_self _) (hunmarked v hv)

/-- Starting over adds the names that carry the next number. -/
lemma named_restart (h : run.Named run.restarts) {number : Nat} {seat : Seat}
    (hseat : run.seat? number = some seat) (hinfinite : seat.generator.infinite = true) :
    (run.restart seat).Named (run.restarts + 1) := by
  have hlive := (mem_of_seat?_eq_some hseat).1
  have hunmarked := (h.seats seat hlive).1 hinfinite
  have hgrown := h.mono (Nat.le_succ _)
  have hfresh : (seat.generator.contract.freshen (run.restarts + 1) run.external).OnlyMentions
      (NamedUpTo (run.restarts + 1)) := by
    refine Contract.onlyMentions_iff.2 fun x hx => ?_
    rcases Contract.mem_allVars_freshen hunmarked hx with ⟨-, hx⟩ | ⟨v, hv, -, rfl⟩
    · exact .inl (hunmarked x hx)
    · exact .inr ⟨v, _, hunmarked v hv, Nat.le_refl _, rfl⟩
  refine ⟨⟨h.obeys.bindings, ?_, h.obeys.emitted⟩, hgrown.bindings, ?_⟩
  · have hsides := Contract.law_unconstrained_bindings.freshen (run.restarts + 1) run.external
      (h.obeys.seats seat hlive).1
    exact h.obeys.seats.put fun _ _ hgc => ⟨hgc.1, hsides⟩
  · exact hgrown.seats.put fun _ _ hgc => ⟨hgc.1, hfresh⟩

lemma retire (h : run.Named run.restarts) (hkeep : run.external = keep) (number : Nat) :
    FreshLog keep run (run.retireLog number) (run.retire number) := by
  rcases run.retireLog_cases number with
    ⟨seat, hseat, hterminal, hinfinite, hretire, hlog⟩ | ⟨hlog, hretire | hretire⟩
  · rw [hretire, hlog]
    refine ⟨named_restart h hseat hinfinite, hkeep, rfl, rfl, ?_⟩
    exact List.forall_mem_singleton.2 (isFresh_of_named h hkeep hseat hterminal hinfinite hretire)
  · rw [hretire, hlog]
    exact of_restarts_eq h hkeep rfl
  · rw [hretire, hlog]
    refine of_restarts_eq ⟨?_, h.bindings, h.seats.leave number⟩ hkeep rfl
    exact ⟨h.obeys.bindings, h.obeys.seats.leave number, h.obeys.emitted⟩

lemma retireAll (h : run.Named run.restarts) (hkeep : run.external = keep) (numbers : List Nat) :
    FreshLog keep run (run.retireAllLog numbers) (run.retireAll numbers) := by
  induction numbers generalizing run with
  | nil => exact of_restarts_eq h hkeep rfl
  | cons number numbers ih =>
    have hfirst := retire h hkeep number
    exact hfirst.trans (ih hfirst.named hfirst.external)

lemma refreshed (h : run.Named run.restarts) (hkeep : run.external = keep) :
    FreshLog keep run [] run.refreshed := by
  have hlaw := Contract.law_unconstrained_bindings
  refine of_restarts_eq ⟨?_, h.bindings, ?_⟩ hkeep rfl
  · refine ⟨h.obeys.bindings, ?_, h.obeys.emitted⟩
    exact h.obeys.seats.refreshed fun _ _ _ hgc => ⟨hgc.1, hlaw.subst h.obeys.bindings hgc.2⟩
  · exact h.seats.refreshed fun _ _ _ hgc => ⟨hgc.1, hgc.2.subst h.values⟩

/-- The restarts at the end of a step. -/
lemma wrapUp (h : run.Named run.restarts) (hkeep : run.external = keep) (before : Bindings)
    (numbers : List Nat) :
    FreshLog keep run (run.wrapUpLog before numbers) (run.wrapUp before numbers) := by
  have hretired := retireAll h hkeep numbers
  rw [wrapUpLog, Run.wrapUp]
  split
  · have hrefreshed := refreshed hretired.named hretired.external
    refine hretired.trans ?_
    exact hrefreshed.trans (retireAll hrefreshed.named hrefreshed.external _)
  · rwa [List.append_nil]

end FreshLog

/-! ### Restarts along a run -/

/-- An action without a nested run starts nothing over. -/
lemma FreshLog.of_moves (h : run.Named run.restarts) (hkeep : run.external = keep)
    {hierarchy : Hierarchy} {action : Action} (hallows : run.Allows hierarchy action) {moved : Run}
    {numbers : List Nat}
    (hmoves : run.Moves (fun _ _ => .error .outOfFuel) moved numbers action) :
    FreshLog keep run [] moved := by
  cases action with
  | exchange =>
    obtain ⟨rfl, -⟩ := hmoves
    exact of_restarts_eq (h.exchanged hallows) hkeep rfl
  | absorb =>
    obtain ⟨rfl, -⟩ := hmoves
    exact of_restarts_eq (h.absorbed hallows) hkeep rfl
  | emit =>
    obtain ⟨rfl, -⟩ := hmoves
    exact of_restarts_eq (h.handedOut hallows) hkeep rfl
  | spawn offer contracts =>
    have hnamed := h.spawned hallows (fun _ _ hfinal => by cases hfinal) hmoves
    obtain ⟨prepared, started, hprepare, rfl, -⟩ := hmoves
    rcases prepare_cases hprepare with ⟨-, rfl, -⟩ | ⟨final, -, hfinal, -⟩
    · refine of_restarts_eq hnamed ?_ (seated_restarts _ _ _)
      rw [seated_external, hkeep]
    · cases hfinal

/-- An action with a nested run starts nothing over once the nested run has come to its end. -/
lemma FreshLog.of_moves_nested (h : run.Named run.restarts) (hkeep : run.external = keep)
    {hierarchy : Hierarchy} {offer : Offer} {contracts : List Contract}
    (hallows : run.Allows hierarchy (.spawn offer contracts)) (htuple : offer.value.isTuple = true)
    {final moved : Run} (hfinal : final.Named final.restarts) (hle : run.restarts ≤ final.restarts)
    {numbers : List Nat}
    (hmoves : run.Moves (fun _ _ => .ok final) moved numbers (.spawn offer contracts)) :
    FreshLog keep final [] moved := by
  have hnamed : moved.Named moved.restarts := by
    refine h.spawned hallows (fun nested last hlast => ?_) hmoves
    cases hlast
    exact ⟨hfinal, hle⟩
  obtain ⟨prepared, started, hprepare, rfl, -⟩ := hmoves
  obtain ⟨⟨-, hexternal, -⟩, -⟩ := prepare_eq_ok hprepare
  have hcount : prepared.restarts = final.restarts := by
    rcases prepare_cases hprepare with ⟨hsingle, -⟩ | ⟨nested, -, hnested, hadopt⟩
    · rw [htuple] at hsingle
      cases hsingle
    · cases hnested
      exact restarts_of_adopt hadopt
  refine of_restarts_eq hnamed ?_ ((seated_restarts _ _ _).trans hcount)
  rw [seated_external, hexternal, hkeep]

/-- The first state of a nested run. -/
lemma FreshLog.nest (h : run.Named run.restarts) (hkeep : run.external = keep)
    {hierarchy : Hierarchy} {offer : Offer} {contracts : List Contract}
    (hallows : run.Allows hierarchy (.spawn offer contracts)) :
    FreshLog keep run [] (run.nest (members offer.seat.generator.name contracts)) := by
  have hlaw := Contract.law_unconstrained_bindings
  have hvalue := (h.obeys.of_mem_offers hlaw hallows.1).1
  refine of_restarts_eq ?_ ?_ (nest_restarts _ _)
  · rw [nest_restarts]
    refine .of_begins (begins_nest _ _) (h.obeys.nest fun g hg => ?_) h.bindings
      (Named.of_mem_members hvalue hallows.2)
    exact hlaw.contracts hvalue hallows.2 _ (contract_mem_of_mem_members hg)
  · exact ((joinAll_frame _ _).2.1).trans hkeep

/-- The restarts of a nested run, seen from the run that it is nested in. -/
lemma FreshLog.inside (h : run.Named run.restarts) {generators : List Generator}
    (hnest : FreshLog keep run [] (run.nest generators))
    (hinner : FreshLog keep (run.nest generators) log next) :
    FreshLog keep run (log.map (Restart.within run)) next :=
  hnest.trans (hinner.within ((run.nest_restarts generators).symm ▸ h))

/-- Along a run all restarts are fresh and counted one after another, those of nested runs
included. -/
theorem RestartLog.freshLog {options : Options} (hlog : RestartLog options run log next)
    (h : run.Named run.restarts) (hkeep : run.external = keep) : FreshLog keep run log next := by
  induction hlog with
  | start => exact .of_restarts_eq h hkeep rfl
  | step _ haction hmoves _ ih =>
    have hrun := ih h hkeep
    have hmoved := FreshLog.of_moves hrun.named hrun.external (allows_of_nextAction? haction) hmoves
    exact hrun.trans (hmoved.trans (.wrapUp hmoved.named hmoved.external _ _))
  | nest _ haction _ _ ih ihinner =>
    have hrun := ih h hkeep
    have hnest := FreshLog.nest hrun.named hrun.external (allows_of_nextAction? haction)
    exact hrun.trans (.inside hrun.named hnest (ihinner hnest.named hnest.external))
  | resume _ haction htuple _ _ hmoves _ ih ihinner =>
    have hrun := ih h hkeep
    have hallows := allows_of_nextAction? haction
    have hnest := FreshLog.nest hrun.named hrun.external hallows
    have hinner := FreshLog.inside hrun.named hnest (ihinner hnest.named hnest.external)
    have hmoved := FreshLog.of_moves_nested hrun.named hrun.external hallows htuple hinner.named
      (hinner.restarts ▸ Nat.le_add_right _ _) hmoves
    rw [List.append_assoc]
    exact hrun.trans (hinner.trans (hmoved.trans (.wrapUp hmoved.named hmoved.external _ _)))

end Run

/-- Generators start over with fresh variables. If no variable of the generators and the given
bindings has the mark of a renaming, and the contracts inside their values carry no constraints,
then at each restart of the run, or of a run nested in it, the variables of the new contract are
those that were bound from the start, which are kept, and new names of the others, which are
different for different variables. At this moment the new names are not bound, and no seat mentions
them. They carry the number of the restart; the restarts are numbered one after another, those of
nested runs that are composed or get stuck included, so no number is used twice. -/
theorem restarts_are_fresh (options : Options) (generators : List Generator) (bindings : Bindings)
    (hnames : ∀ g ∈ generators, ∀ x ∈ g.contract.allVars, IsUnmarked x)
    (hbound : ∀ x t, bindings.find? x = some t → IsUnmarked x ∧ ∀ y ∈ t.occurrences, IsUnmarked y)
    (hgenerators : ∀ g ∈ generators, g.contract.SidesWithin .unconstrained .unconstrained)
    (hbindings : bindings.Within .unconstrained) :
    (∀ run, Run.Reachable options (Run.start generators bindings) run →
      ∃ log, Run.RestartLog options (Run.start generators bindings) log run) ∧
    ∀ log run, Run.RestartLog options (Run.start generators bindings) log run →
      (∀ r ∈ log, r.IsFresh bindings.names) ∧ (log.map Restart.count).Nodup ∧
        log.map Restart.count = List.range' 1 log.length ∧ run.restarts = log.length := by
  refine ⟨fun run hrun => hrun.exists_restartLog, fun log run hlog => ?_⟩
  have hstart : (Run.start generators bindings).Named 0 := by
    refine .of_begins (Run.begins_start _ _) (.start hbindings hgenerators) ?_ ?_
    · intro x t hx
      obtain ⟨hname, hvalue⟩ := hbound x t hx
      exact ⟨.inl hname, Ty.within_vars_iff.2 fun y hy => .inl (hvalue y hy)⟩
    · intro g hg
      exact ⟨fun _ => hnames g hg, Contract.onlyMentions_iff.2 fun x hx => .inl (hnames g hg x hx)⟩
  have hexternal : (Run.start generators bindings).external = bindings.names :=
    (Run.joinAll_frame _ _).2.1
  have hcount := Run.start_restarts generators bindings
  have hfresh := hlog.freshLog (hcount.symm ▸ hstart) hexternal
  have hcounts := hfresh.counts
  have hrestarts := hfresh.restarts
  rw [hcount, Nat.zero_add] at hcounts hrestarts
  refine ⟨hfresh.fresh, ?_, hcounts, hrestarts⟩
  rw [hcounts]
  exact List.nodup_range'

/-- A nested run, in which a contract starts over, is composed and taken over. Then the echo starts
over, with the next number. The variable that was bound from the start is kept, and the other one is
renamed. -/
theorem restarts_are_fresh_nested :
    let pair : Ty := .tuple [.const "A", .const "E"]
    let echo : Generator :=
      { name := "echo"
        contract := ((Contract.of (.tuple [.var "x"]) (.tuple [.var "x", .var "e"])).withCondition
          (.inherits "x" "A")).withForbidden [⟨[.var "x"], [[.var "e"]]⟩]
        infinite := true }
    let feeder : Generator :=
      { name := "feeder", contract := Contract.of .void (.tuple [.const "A"]) }
    let starter : Generator :=
      { name := "starter"
        contract := Contract.of .void (.tuple [.contract (Contract.of .void pair),
          .contract (Contract.of pair (.const "B")).restoring]) }
    let given : Bindings := Bindings.bind ∅ "e" (.const "E")
    ∃ final log, (Run.start [starter, feeder, echo] given).settle {} = .ok final ∧
      Run.RestartLog {} (Run.start [starter, feeder, echo] given) log final ∧
      log.map Restart.count = [1, 2] ∧ (∀ r ∈ log, r.IsFresh ["e"]) ∧
      final.live.map (fun seat => seat.current.allVars) = [["e", "x#2"]] := by
  intro pair echo feeder starter given
  have hnames : ∀ g ∈ [starter, feeder, echo], ∀ x ∈ g.contract.allVars, IsUnmarked x := by
    decide +kernel
  have hbound : ∀ x t, given.find? x = some t →
      IsUnmarked x ∧ ∀ y ∈ t.occurrences, IsUnmarked y :=
    NameTable.forall_find?_iff.2 (by decide +kernel)
  have hgenerators : ∀ g ∈ [starter, feeder, echo],
      g.contract.SidesWithin .unconstrained .unconstrained := by
    have hpair : pair.Within .unconstrained := ⟨trivial, trivial, trivial⟩
    have hstarter : starter.contract.SidesWithin .unconstrained .unconstrained :=
      .of trivial ⟨Ty.within_contract.2 ⟨.inr ⟨rfl, rfl⟩, trivial, hpair⟩,
        Ty.within_contract.2 ⟨.inr ⟨rfl, rfl⟩, hpair, trivial⟩, trivial⟩
    have hfeeder : feeder.contract.SidesWithin .unconstrained .unconstrained :=
      .of trivial ⟨trivial, trivial⟩
    have hecho : echo.contract.SidesWithin .unconstrained .unconstrained :=
      ⟨⟨trivial, trivial⟩, ⟨trivial, trivial, trivial⟩⟩
    simpa using ⟨hstarter, hfeeder, hecho⟩
  have hbindings : given.Within .unconstrained :=
    Bindings.within_bind Bindings.within_empty trivial
  obtain ⟨hexists, hlogs⟩ :=
    restarts_are_fresh {} [starter, feeder, echo] given hnames hbound hgenerators hbindings
  have hcomputed : ((Run.start [starter, feeder, echo] given).settle {}).toOption.map
      (fun final => (final.restarts, final.live.map fun seat => seat.current.allVars)) =
        some (2, [["e", "x#2"]]) := by decide +kernel
  obtain ⟨final, hfinal, hfacts⟩ := exists_of_toOption_eq_some hcomputed
  obtain ⟨hrestarts, hlive⟩ := Prod.mk.inj hfacts
  obtain ⟨⟨actions, hpath⟩, -⟩ := Run.exists_path_of_settle hfinal
  obtain ⟨log, hlog⟩ := hexists final hpath.reachable
  obtain ⟨hfresh, -, hcounts, hlength⟩ := hlogs log final hlog
  rw [← hlength, hrestarts] at hcounts
  exact ⟨final, log, hfinal, hlog, hcounts, hfresh, hlive⟩

end ContractComposition
