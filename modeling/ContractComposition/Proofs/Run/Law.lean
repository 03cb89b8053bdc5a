import ContractComposition.Proofs.Contracts
import ContractComposition.Proofs.Run.Seating

/-!
# Properties that runs keep

Many properties of runs are about contracts, values and tables of bindings one by one: every live
seat has a contract of some kind, every value that is handed out is of some kind, and so are the
bindings. A `Contract.Law` collects what such properties have to satisfy, operation by operation.
From there on the choice of actions, the bookkeeping of seats and the nesting of runs no longer
matter: a run that obeys a law at its beginning obeys it in every reachable state
(`Run.Obeys.of_reachable`).
-/

namespace ContractComposition

/-- A property `C` of contracts, a property `V` of values and a property `B` of bindings that are
kept by everything that runs do with contracts. -/
structure Contract.Law (C : Contract → Prop) (V : Ty → Prop) (B : Bindings → Prop) : Prop where
  /-- Substituting bindings. -/
  subst : ∀ {c : Contract} {b : Bindings}, B b → C c → C (c.subst b)
  /-- Renaming variables. -/
  freshen : ∀ {c : Contract} (suffix : Nat) (keep : List String), C c → C (c.freshen suffix keep)
  /-- Yielding a value. -/
  produce : ∀ {c : Contract} {b : Bindings} {y : Yielded}, B b → C c → c.produce? b = some y →
    V y.value ∧ C y.successor
  /-- Receiving a value. -/
  accept : ∀ {c : Contract} {v : Ty} {b : Bindings} {h : Hierarchy} {r : Received}, B b → C c →
    V v → c.accept? v b h = some r → C r.successor ∧ B r.bindings
  /-- Taking over a value. -/
  append : ∀ {c : Contract} {v : Ty}, C c → V v → C (c.appendYield v)
  /-- Starting the contracts of a value. -/
  contracts : ∀ {v : Ty} {cs : List Contract}, V v → v.contracts? = some cs → ∀ c ∈ cs, C c
  /-- Handing out values. -/
  output : ∀ {vs : List Ty}, (∀ v ∈ vs, V v) → C (Contract.of .void (Ty.sequence vs))
  /-- Handing out values in front of a contract. -/
  andThen : ∀ {vs : List Ty} {c : Contract}, (∀ v ∈ vs, V v) → C c →
    C ((Contract.of .void (Ty.sequence vs)).andThen c)

/-- Contracts stay made of the parts that they are made of, as long as these do not restrict
variables. What is yielded has no variables; the bindings may have some, or none. -/
theorem Contract.law_sidesWithin {P Q G : Parts} (hvars : ∀ x, P.var x) (hPQ : P.Le Q)
    (hPG : P.ground.Le G) (hGP : G.Le P) :
    Contract.Law (Contract.SidesWithin P Q) (Ty.Within P.ground) (Bindings.Within G) where
  subst hb h := h.subst hb hGP hPQ
  freshen suffix keep h := h.freshen hvars hPQ suffix keep
  produce hb h hyielded := h.produce? hb hGP hyielded
  accept hb h hoffered hreceived := h.accept? hb hPG hoffered hreceived
  append h hvalue := h.appendYield (hvalue.mono P.ground_le)
  contracts hvalue hcs c hc := by
    have hbody := Ty.within_contract.1 ((hvalue.mono P.ground_le).contracts? hcs c hc)
    exact ⟨hbody.2.1.mono hPQ, hbody.2.2⟩
  output h := Contract.SidesWithin.output fun v hv => (h v hv).mono P.ground_le
  andThen h hc :=
    (Contract.SidesWithin.output fun v hv => (h v hv).mono P.ground_le).andThen hc

namespace Run

/-! ### Runs that obey a law -/

/-- The bindings, the contracts of all seats and the values handed out have the properties. -/
structure Obeys (C : Contract → Prop) (V : Ty → Prop) (B : Bindings → Prop) (run : Run) :
    Prop where
  bindings : B run.bindings
  seats : ForallSeats (fun _ g c => C g.contract ∧ C c) run
  emitted : ∀ v ∈ run.emitted.toList, V v

section

variable {C : Contract → Prop} {V : Ty → Prop} {B : Bindings → Prop}

lemma survivesRestarts_of_law (law : Contract.Law C V B) (external : List String) :
    SurvivesRestarts (fun _ g c => C g.contract ∧ C c) external := by
  intro n g g' c c' k hgc hgc' _
  exact ⟨hgc.1, law.freshen k external hgc'.1⟩

namespace Obeys

variable {run : Run}

lemma of_reseats (h : Obeys C V B run) {run' : Run} (hframe : Reseats run run')
    (hseats : ForallSeats (fun _ g c => C g.contract ∧ C c) run') : Obeys C V B run' where
  bindings := hframe.bindings ▸ h.bindings
  seats := hseats
  emitted := hframe.emitted ▸ h.emitted

lemma wrapUp (law : Contract.Law C V B) (h : Obeys C V B run) (before : Bindings)
    (numbers : List Nat) : Obeys C V B (run.wrapUp before numbers) :=
  h.of_reseats (run.reseats_wrapUp before numbers)
    (h.seats.wrapUp (fun _ _ _ hgc => ⟨hgc.1, law.subst h.bindings hgc.2⟩)
      (survivesRestarts_of_law law _) before numbers)

/-- The value of an offer and what is left of the seat's contract. -/
lemma of_mem_offers (law : Contract.Law C V B) (h : Obeys C V B run) {offer : Offer}
    (hoffer : offer ∈ run.offers) : V offer.value ∧ C offer.yielded.successor := by
  obtain ⟨hseat, hyielded⟩ := mem_offers.1 hoffer
  exact law.produce h.bindings (h.seats _ hseat).2 hyielded

lemma exchanged (law : Contract.Law C V B) (h : Obeys C V B run) {offer : Offer}
    {receiver : Seat} {received : Received} {hierarchy : Hierarchy}
    (hallows : run.Allows hierarchy (.exchange offer receiver received)) :
    Obeys C V B (run.exchanged offer receiver received) := by
  obtain ⟨hoffer, hreceiver, -, hreceived⟩ := hallows
  obtain ⟨hvalue, hsuccessor⟩ := h.of_mem_offers law hoffer
  obtain ⟨hrest, hbindings⟩ := law.accept h.bindings (h.seats _ hreceiver).2 hvalue hreceived
  refine ⟨hbindings, ?_, h.emitted⟩
  have hyielder : ForallSeats (fun _ g c => C g.contract ∧ C c)
      (run.put offer.seat.number offer.yielded.successor) :=
    h.seats.put fun _ _ hgc => ⟨hgc.1, hsuccessor⟩
  exact hyielder.put fun _ _ hgc => ⟨hgc.1, law.subst hbindings hrest⟩

lemma absorbed (law : Contract.Law C V B) (h : Obeys C V B run) {offer : Offer}
    {absorber : Seat} {hierarchy : Hierarchy}
    (hallows : run.Allows hierarchy (.absorb offer absorber)) :
    Obeys C V B (run.absorbed offer absorber) := by
  obtain ⟨hoffer, -, habsorber, -⟩ := hallows
  obtain ⟨hvalue, hsuccessor⟩ := h.of_mem_offers law hoffer
  refine ⟨h.bindings, ?_, h.emitted⟩
  have hyielder : ForallSeats (fun _ g c => C g.contract ∧ C c)
      (run.put offer.seat.number offer.yielded.successor) :=
    h.seats.put fun _ _ hgc => ⟨hgc.1, hsuccessor⟩
  exact hyielder.put fun _ _ hgc => ⟨hgc.1, law.append (h.seats _ habsorber).2 hvalue⟩

lemma handedOut (law : Contract.Law C V B) (h : Obeys C V B run) {offer : Offer}
    {hierarchy : Hierarchy} (hallows : run.Allows hierarchy (.emit offer)) :
    Obeys C V B (run.handedOut offer) := by
  obtain ⟨hvalue, hsuccessor⟩ := h.of_mem_offers law hallows.1
  refine ⟨h.bindings, h.seats.put fun _ _ hgc => ⟨hgc.1, hsuccessor⟩, ?_⟩
  intro v hv
  rcases List.mem_append.1 (Array.toList_push ▸ hv) with hv | hv
  · exact h.emitted v hv
  · exact List.mem_singleton.1 hv ▸ hvalue

lemma of_begins {first : Run} {generators : List Generator} {bindings : Bindings}
    (h : first.Begins generators bindings) (hb : B bindings)
    (hg : ∀ g ∈ generators, C g.contract) : Obeys C V B first where
  bindings := h.bindings ▸ hb
  seats := h.forallSeats fun g hmem _ _ => ⟨hg g hmem, hg g hmem⟩
  emitted := by
    rw [h.emitted]
    intro _ hv
    cases hv

lemma start {generators : List Generator} {bindings : Bindings} (hb : B bindings)
    (hg : ∀ g ∈ generators, C g.contract) : Obeys C V B (Run.start generators bindings) :=
  of_begins (begins_start generators bindings) hb hg

lemma nest (h : Obeys C V B run) {generators : List Generator}
    (hg : ∀ g ∈ generators, C g.contract) : Obeys C V B (run.nest generators) :=
  of_begins (run.begins_nest generators) h.bindings hg

/-- The contract that a run is composed into. -/
lemma ending (law : Contract.Law C V B) (h : Obeys C V B run) {contract : Contract}
    (hending : run.ending = .composed contract) : C contract := by
  unfold Run.ending at hending
  split at hending
  · cases hending
    exact law.output h.emitted
  · rename_i seat hlive
    cases hending
    have hseat := h.seats seat (hlive ▸ List.mem_singleton_self seat)
    exact law.andThen h.emitted (law.subst h.bindings hseat.2)
  · cases hending

/-- The generators that are started, and the run that they join. -/
lemma prepare (law : Contract.Law C V B) (h : Obeys C V B run) {compose : Run → Except Halt Run}
    (hcompose : ∀ ⦃nested final : Run⦄, compose nested = .ok final → Obeys C V B nested →
      Obeys C V B final)
    {parent : String} {value : Ty} {generators started : List Generator} {prepared : Run}
    (hg : ∀ g ∈ generators, C g.contract)
    (hprepare : run.prepare compose parent value generators = .ok (prepared, started)) :
    Obeys C V B prepared ∧ ∀ g ∈ started, C g.contract := by
  obtain ⟨⟨hlive, -, hemitted, -⟩, hcases⟩ := prepare_eq_ok hprepare
  have hseats : ForallSeats (fun _ g c => C g.contract ∧ C c) prepared :=
    fun seat hseat => h.seats seat (hlive ▸ hseat)
  have hvalues : ∀ v ∈ prepared.emitted.toList, V v := hemitted ▸ h.emitted
  rcases hcases with ⟨hbindings, rfl⟩ |
    ⟨nested, contract, name, -, hnested, hending, hbindings, rfl⟩
  · exact ⟨⟨hbindings ▸ h.bindings, hseats, hvalues⟩, hg⟩
  · have hfinal : Obeys C V B nested := hcompose hnested (h.nest hg)
    exact ⟨⟨hbindings ▸ hfinal.bindings, hseats, hvalues⟩,
      List.forall_mem_singleton.2 (hfinal.ending law hending)⟩

lemma seated (h : Obeys C V B run) {offer : Offer} {started : List Generator}
    (hsuccessor : C offer.yielded.successor) (hstarted : ∀ g ∈ started, C g.contract) :
    Obeys C V B (run.seated offer started) := by
  obtain ⟨hbindings, -, hemitted⟩ := foldl_seatStarted_frame
    (run |>.put offer.seat.number offer.yielded.successor |>.recordSeat .yield offer.seat) started
  refine ⟨?_, ?_, ?_⟩
  · rw [Run.seated, hbindings]
    exact h.bindings
  · have hyielder : ForallSeats (fun _ g c => C g.contract ∧ C c) (run
        |>.put offer.seat.number offer.yielded.successor |>.recordSeat .yield offer.seat) :=
      h.seats.put fun _ _ hgc => ⟨hgc.1, hsuccessor⟩
    exact hyielder.seatStarted fun g hmem _ _ => ⟨hstarted g hmem, hstarted g hmem⟩
  · rw [Run.seated, hemitted]
    exact h.emitted

end Obeys

/-- Every step keeps a law, provided that the runs nested in it do. -/
theorem keptBySteps_obeys (law : Contract.Law C V B) (options : Options) :
    KeptBySteps options fun run next => Obeys C V B run → Obeys C V B next := by
  intro compose hcompose run next action hallows hcommit h
  cases action with
  | exchange offer receiver received =>
    obtain ⟨-, rfl⟩ := exchange_eq_ok hcommit
    exact (h.exchanged law hallows).wrapUp law _ _
  | spawn offer contracts =>
    rw [commit] at hcommit
    obtain ⟨prepared, started, numbers, hprepare, rfl⟩ := spawn_eq_ok hcommit
    obtain ⟨hvalue, hsuccessor⟩ := h.of_mem_offers law hallows.1
    have hmembers : ∀ g ∈ members offer.seat.generator.name contracts, C g.contract := by
      intro g hmem
      exact law.contracts hvalue hallows.2 _ (contract_mem_of_mem_members hmem)
    obtain ⟨hprepared, hstarted⟩ := h.prepare law hcompose hmembers hprepare
    exact (hprepared.seated hsuccessor hstarted).wrapUp law _ _
  | absorb offer absorber =>
    obtain ⟨-, rfl⟩ := absorb_eq_ok hcommit
    exact (h.absorbed law hallows).wrapUp law _ _
  | emit offer =>
    obtain ⟨-, rfl⟩ := emit_eq_ok hcommit
    exact (h.handedOut law hallows).wrapUp law _ _

/-- A run that obeys a law obeys it after a step. -/
theorem Obeys.of_steps (law : Contract.Law C V B) {options : Options} {run next : Run}
    {action : Action} (h : Obeys C V B run) (hstep : run.Steps options action next) :
    Obeys C V B next :=
  rel_of_steps (fun _ => id) (fun hab hbc ha => hbc (hab ha))
    (keptBySteps_obeys law options).holdsOfSteps hstep h

/-- A run that obeys a law at its beginning obeys it in every reachable state. -/
theorem Obeys.of_reachable (law : Contract.Law C V B) {options : Options} {first run : Run}
    (h : Obeys C V B first) (hrun : Reachable options first run) : Obeys C V B run := by
  induction hrun with
  | start => exact h
  | step _ hstep ih => exact ih.of_steps law hstep
  | nest _ haction _ ih =>
    obtain ⟨hoffer, hcontracts⟩ := allows_of_nextAction? haction
    refine ih.nest fun g hmem => ?_
    exact law.contracts (ih.of_mem_offers law hoffer).1 hcontracts _
      (contract_mem_of_mem_members hmem)

end

end Run

end ContractComposition
