import ContractComposition.Proofs.CatalogComposition
import ContractComposition.Proofs.Deliveries
import ContractComposition.Proofs.Variables
import ContractComposition.Workload

/-!
# Workloads of every size

The workloads are deliveries. In a chain of relays each generator hands its token to the next one,
and in a fan-in the sources hand theirs to the sink, one source after another. So the step budget
decides whether they are composed, and nothing else does (`workloads_of_every_size`).

A delivery from a catalog takes two steps more than the same delivery without one
(`Catalog.settlesIn_of_delivers`). The operations are carried through a nested run. After that the
starter hands over what they were composed into, and this is handed out.
-/

namespace ContractComposition

namespace Contract

/-- A contract that receives constants and yields one serves the corresponding station. -/
lemma serves_of {receives : Ty} {station : Station}
    (hreceives : receives.normalize = Ty.sequence (station.awaits.map .const)) :
    (of receives (.const station.gives)).Serves station :=
  ⟨hreceives, rfl, rfl, rfl⟩

namespace Serves

variable {station : Station} {c c' : Contract}

lemma of_sameSides (h : c.Serves station) (hsides : c.SameSides c') : c'.Serves station where
  receives := hsides.receives ▸ h.receives
  yields := hsides.yields ▸ h.yields
  condition := hsides.right.condition
  forbidden := hsides.right.forbidden

lemma selfContained (h : c.Serves station) (hrestorable : c.restorable = false) :
    c.SelfContained where
  receives_normal := h.elementary.normal.normalize_eq
  yields_normal := by rw [h.yields]; rfl
  receives_ground := (Ty.isPlain_iff.1 h.elementary.plain.receives.plain).1
  yields_ground := by rw [h.yields]; rfl
  receives_nesting := Nat.le_zero.1 h.elementary.plain.receives.2
  yields_nesting := by rw [h.yields]; rfl
  unfinished := h.isTerminal_eq_false
  condition := h.condition
  forbidden := h.forbidden
  restorable := hrestorable

end Serves

end Contract

/-! ### Deliveries from a catalog -/

namespace Catalog

variable {operations : List Generator} {stations : List Station} {value : String} {b : Bindings}

/-- The operations serve their stations in the nested run as well. -/
lemma serves_startedBy
    (hoperations : ∀ operation ∈ operations, operation.contract.SelfContained)
    (hserve : List.Forall₂ Generator.Serves stations operations) :
    List.Forall₂ Generator.Serves stations (startedBy operations) := by
  have halike := startedBy_alike hoperations ∅ ∅ [] []
  generalize startedBy operations = started at halike
  clear hoperations
  induction hserve generalizing started with
  | nil => exact List.forall₂_nil_left_iff.1 halike ▸ .nil
  | cons hfirst _ ih =>
    obtain ⟨g, rest, hg, hrest, rfl⟩ := List.forall₂_cons_left_iff.1 halike
    exact .cons ⟨hg.infinite ▸ hfirst.1, hfirst.2.of_sameSides hg.contract⟩ (ih rest hrest)

lemma tally_start (operations : List Generator) (b : Bindings) :
    (Run.start [starter operations] b).Tally b #[] 0 :=
  (Run.begins_start _ b).tally (Run.start_records _ b)

/-- The operations are carried through in the nested run. -/
lemma exists_nested_line (hdelivers : Delivers stations value)
    (hserve : List.Forall₂ Generator.Serves stations (startedBy operations)) {options : Options}
    (hbudget : stations.length ≤ options.stepBudget) (b : Bindings) (depth : Nat) :
    ∃ nested, ((Run.start [starter operations] b).nest (startedBy operations)).settleWithin options
        (depth + 1) = .ok nested ∧
      nested.Line b [] #[.const value] stations.length := by
  have hstart := tally_start operations b
  have hrecords := (Run.start [starter operations] b).nest_records (startedBy operations)
  rw [hstart.steps] at hrecords
  have hbegins := (Run.start [starter operations] b).begins_nest (startedBy operations)
  rw [hstart.bindings] at hbegins
  have hfits : 0 + stations.length ≤ options.stepBudget := by rwa [Nat.zero_add]
  have hdrive := (hbegins.line hrecords hserve).exists_drive hdelivers
    (fun _ => Run.settleWithin options depth) (Nat.lt_succ_of_le hbudget) hfits
  rw [Nat.zero_add] at hdrive
  rwa [Run.settleWithin, Run.rounds, hrecords.1, Nat.sub_zero]

/-- The starter hands over what the operations were composed into, and leaves. -/
lemma exists_spawn {options : Options} {compose : Ty → Run → Except Halt Run} {nested : Run}
    {n : Nat}
    (hnested : compose (tupleOf operations)
      ((Run.start [starter operations] b).nest (startedBy operations)) = .ok nested)
    (hline : nested.Line b [] #[.const value] n) (hbudget : n + 1 ≤ options.stepBudget) :
    ∃ next, (Run.start [starter operations] b).commit options compose
        (.spawn (starterOffer operations) (operations.map contractValue)) = .ok next ∧
      next.Line b [⟨[], value⟩] #[] (n + 1) := by
  have hstart := tally_start operations b
  obtain ⟨prepared, hadopt, hprepared, hlive⟩ :=
    hline.exists_adopt hstart starterName (startedBy operations)
  have hprepare : (Run.start [starter operations] b).prepare (compose (tupleOf operations))
      starterName (tupleOf operations) (startedBy operations) = .ok (prepared, _) :=
    hadopt ▸ Run.prepare_of_isTuple rfl hnested
  have hmoved := hprepared.seated (starterOffer operations)
    ⟨Run.compositeName (startedBy operations), Contract.of .void (.const value), false⟩
  have honly : prepared.live = [(starterOffer operations).seat] := by
    rw [hlive, start_starter]
    rfl
  have hserves : (Contract.of .void (.const value)).Serves ⟨[], value⟩ := Contract.serves_of rfl
  have hnext := Run.Line.of_moved hmoved (Run.live_seated honly _) rfl rfl
    (.cons ⟨rfl, hserves⟩ .nil) [prepared.nextNumber]
  refine ⟨_, Run.commit_eq_ok_iff.2 ⟨_, _, ⟨_, _, hprepare, rfl, rfl⟩, ?_, rfl⟩, ?_⟩
  · rw [hmoved.steps]
    exact hbudget
  · rw [hstart.bindings]
    exact hnext

/-- A delivery from a catalog takes two steps more than there are operations. -/
theorem settlesIn_of_delivers (hnodup : (operations.map Generator.name).Nodup)
    (hrestorable : ∀ operation ∈ operations, operation.contract.restorable = false)
    (hdelivers : Delivers stations value)
    (hserve : List.Forall₂ Generator.Serves stations operations) (options : Options) :
    SettlesIn options.stepBudget (operations.length + 2) (.const value)
      (solve options [starter operations] (bindingsOf operations)) := by
  have hoperations : ∀ operation ∈ operations, operation.contract.SelfContained := by
    have hserves := forall_mem_of_forall₂ (p := fun g => ∃ station, g.Serves station) hserve
      fun h => ⟨_, h⟩
    intro operation hmem
    obtain ⟨station, -, hstation⟩ := hserves operation hmem
    exact hstation.selfContained (hrestorable operation hmem)
  have hne : operations ≠ [] := by
    rintro rfl
    cases hdelivers <;> cases hserve
  have hcheck : checkGenerators (bindingsOf operations) [starter operations] = .ok () :=
    checkGenerators_eq_ok (List.forall_mem_singleton.2 (check_starter operations))
  refine settlesIn_of_line (b := bindingsOf operations) hcheck (fun options hbudget => ?_) options
  obtain ⟨depth, hdepth, -⟩ :=
    (isPlain_tupleOf hoperations).exists_nesting_eq_succ (contracts?_tupleOf hne)
  rw [← hserve.length_eq] at hbudget ⊢
  obtain ⟨nested, hnested, hline⟩ := exists_nested_line hdelivers
    (serves_startedBy hoperations hserve) (Nat.le_of_add_right_le hbudget) (bindingsOf operations)
    depth
  rw [← hdepth] at hnested
  have hfuel : 1 < options.stepBudget := by omega
  obtain ⟨next, hcommit, hnext⟩ := @exists_spawn _ _ _ options
    (fun value => Run.settleWithin options value.nesting) _ _ hnested hline
    (Nat.le_of_succ_le hbudget)
  obtain ⟨final, hdrive, hfinal⟩ := hnext.exists_drive (.last value)
    (fun value => Run.settleWithin options value.nesting) hfuel hbudget
  refine ⟨final, ?_, hfinal⟩
  rw [Run.settle, Run.rounds_start]
  exact Run.drive_succ_eq_ok_iff.2
    (.inr ⟨_, next, nextAction?_start hnodup hoperations hne _, hcommit, hdrive⟩)

end Catalog

/-! ### The workloads as deliveries -/

namespace Workload

/-- The stations of relays, behind a source of the token that the first of them awaits. -/
def relayStations (first length : Nat) : List Station :=
  ⟨[], "T" ++ toString first⟩ ::
    (List.range' first length).map fun i => ⟨["T" ++ toString i], "T" ++ toString (i + 1)⟩

/-- The stations of sources, in front of a sink that awaits a token from each of them. -/
def fanStations (width : Nat) : List Station :=
  List.replicate width ⟨[], "Token"⟩ ++ [⟨List.replicate width "Token", "Done"⟩]

/-- Each token is handed to the next relay. -/
lemma delivers_relayStations (first length : Nat) :
    Delivers (relayStations first length) ("T" ++ toString (first + length)) := by
  induction length generalizing first with
  | zero => exact .last _
  | succ length ih =>
    have hrest := ih (first + 1)
    rw [Nat.succ_add_eq_add_succ] at hrest
    exact @Delivers.pass _ _ [] _ ⟨[], _⟩ (List.forall_mem_nil _) hrest

/-- Each source hands its token to the sink, past the sources behind it. -/
lemma delivers_fanStations (width : Nat) : Delivers (fanStations width) "Done" := by
  induction width with
  | zero => exact .last _
  | succ width ih =>
    refine @Delivers.pass _ _ _ [] ⟨List.replicate width "Token", "Done"⟩ (fun s hs => ?_) ih
    rw [List.eq_of_mem_replicate hs]

lemma serves_relayChain (length : Nat) :
    List.Forall₂ Generator.Serves (relayStations 0 length) (relayChain length) := by
  refine .cons ⟨rfl, Contract.serves_of rfl⟩ ?_
  rw [List.range_eq_range', List.forall₂_map_left_iff, List.forall₂_map_right_iff,
    List.forall₂_same]
  exact fun i _ => ⟨rfl, Contract.serves_of rfl⟩

lemma serves_fanIn (width : Nat) :
    List.Forall₂ Generator.Serves (fanStations width) (fanIn width) := by
  have hsources : List.replicate width (⟨[], "Token"⟩ : Station) =
      (List.range width).map fun _ => ⟨[], "Token"⟩ := by
    rw [List.map_const', List.length_range]
  refine List.rel_append ?_ (.cons ⟨rfl, Contract.serves_of ?_⟩ .nil)
  · rw [hsources, List.forall₂_map_left_iff, List.forall₂_map_right_iff, List.forall₂_same]
    exact fun i _ => ⟨rfl, Contract.serves_of rfl⟩
  · rw [List.map_replicate]
    refine (Ty.isNormal_sequence fun v hv => ?_).normalize_eq
    rw [List.eq_of_mem_replicate hv]
    exact (Ty.FirstOrder.const _).isNormal

lemma length_relayChain (length : Nat) : (relayChain length).length = length + 1 := by
  rw [relayChain, List.length_cons, List.length_map, List.length_range]

lemma length_fanIn (width : Nat) : (fanIn width).length = width + 1 := by
  rw [fanIn, List.length_append, List.length_map, List.length_range, List.length_singleton]

/-- The source and the relays have different names, so all of them are in the catalog. -/
lemma nodup_names_relayChain (length : Nat) :
    ((relayChain length).map Generator.name).Nodup := by
  have hinjective : Function.Injective fun i => (relay i).name := fun i j h =>
    toString_injective ((String.append_right_inj "relay").1 h)
  rw [relayChain, List.map_cons, List.map_map, List.nodup_cons]
  refine ⟨fun hmem => ?_, List.nodup_range.map hinjective⟩
  obtain ⟨i, -, heq⟩ := List.mem_map.1 hmem
  have hchars : ("relay" ++ toString i).toList = "source".toList := congrArg String.toList heq
  rw [String.toList_append] at hchars
  cases hchars

lemma settlesIn_relayChain (options : Options) (length : Nat) :
    SettlesIn options.stepBudget (length + 1) (token length)
      (solve options (relayChain length) ∅) := by
  have hrelays := delivers_relayStations 0 length
  rw [Nat.zero_add] at hrelays
  have hsettles := settlesIn_of_delivers hrelays (serves_relayChain length) ∅ options
  rwa [length_relayChain] at hsettles

lemma settlesIn_fanIn (options : Options) (width : Nat) :
    SettlesIn options.stepBudget (width + 1) (.const "Done") (solve options (fanIn width) ∅) := by
  have hsettles :=
    settlesIn_of_delivers (delivers_fanStations width) (serves_fanIn width) ∅ options
  rwa [length_fanIn] at hsettles

lemma settlesIn_relayCatalog (options : Options) (length : Nat) :
    SettlesIn options.stepBudget (length + 3) (token length)
      ((relayCatalog length).compose options (relayCatalog length).names []) := by
  have hrelays := delivers_relayStations 0 length
  rw [Nat.zero_add] at hrelays
  have hnodup := nodup_names_relayChain length
  have hrestorable : ∀ operation ∈ relayChain length, operation.contract.restorable = false :=
    List.forall_mem_cons.2 ⟨rfl, List.forall_mem_map.2 fun _ _ => rfl⟩
  have hsettles := Catalog.settlesIn_of_delivers hnodup hrestorable hrelays
    (serves_relayChain length) options
  rw [length_relayChain] at hsettles
  rwa [Catalog.compose_names, relayCatalog, Catalog.operations_ofList hnodup]

end Workload

/-- The workloads of every size are composed exactly if the step budget allows one step for each
generator, and two more if the generators are taken from a catalog. Then nothing is left to receive,
the last token is yielded, there are two records for each step, and there are no warnings. With a
smaller budget, composing them stops at the limit. -/
theorem workloads_of_every_size (options : Options) (n w : Nat) :
    SettlesIn options.stepBudget (n + 1) (Workload.token n)
      (solve options (Workload.relayChain n) ∅) ∧
    SettlesIn options.stepBudget (w + 1) (.const "Done") (solve options (Workload.fanIn w) ∅) ∧
    SettlesIn options.stepBudget (n + 3) (Workload.token n)
      ((Workload.relayCatalog n).compose options (Workload.relayCatalog n).names []) :=
  ⟨Workload.settlesIn_relayChain options n, Workload.settlesIn_fanIn options w,
    Workload.settlesIn_relayCatalog options n⟩

-- A budget that is enough for two relays is not enough for the same relays in a catalog.
example :
    (solve { stepBudget := 4 } (Workload.relayChain 2) ∅).isOk = true ∧
    ((Workload.relayCatalog 2).compose { stepBudget := 4 }
      (Workload.relayCatalog 2).names []).isOk = false := by
  decide +kernel

end ContractComposition
