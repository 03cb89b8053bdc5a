import ContractComposition.Proofs.Elementary
import ContractComposition.Proofs.Readiness

/-!
# Handing out what a run was composed into

A run that has come to its end is composed into one contract. If this contract takes part in another
run, on a seat of its own and with no other seats, then it is handed out member by member, as far as
this goes. In the end the other run is composed into the same contract again
(`Run.Unwinding.exists_result`).

There is one contract for which this is not so: one that just yields a list of a concrete length
that can be spread. It would be handed out as the sequence of its elements. But no run is composed
into such a contract (`Contract.unwinds_of_ending`), because it would have handed them out itself.
-/

namespace ContractComposition

/-- An elementary contract in normal form. If there is nothing left to receive and a list on its own
left to yield, then it is an open stream. -/
structure Contract.Unwinds (c : Contract) : Prop where
  elementary : c.Elementary
  yields : c.yields.IsNormal
  stream : c.receives = .void → ∀ element length, c.yields = .list element length →
    c.yields.isOpenStream = true

/-- There is nothing to substitute and nothing to normalize. -/
lemma Contract.Unwinds.subst_eq {c : Contract} (h : c.Unwinds) (b : Bindings) : c.subst b = c := by
  rw [h.elementary.subst_eq, h.elementary.normal.normalize_eq, h.yields.normalize_eq]
  cases c
  rfl

namespace Run

variable {run next : Run} {options : Options}

/-! ### What a run is composed into -/

lemma isNormal_output (run : Run) : run.output.yields.IsNormal :=
  Ty.isNormal_normalize _

lemma output_yields_ne_list (run : Run) (element length : Ty) :
    run.output.yields ≠ .list element length := by
  intro hlist
  obtain ⟨element', length', hsequence⟩ := Ty.exists_eq_list_of_normalize hlist
  exact Ty.sequence_ne_list _ _ _ hsequence

/-- A list on its own that is left in the end is an open stream. -/
lemma isOpenStream_of_nextAction?_eq_none {hierarchy : Hierarchy}
    (hstop : run.nextAction? hierarchy = none) {seat : Seat} (hlive : run.live = [seat])
    (hseat : seat.current.Elementary) (hvoid : seat.current.receives.isVoid = true)
    {element length : Ty} (hlist : seat.current.yields.normalize = .list element length) :
    (Ty.list element length).isOpenStream = true := by
  by_contra hclosed
  rw [Bool.not_eq_true] at hclosed
  have hbounded : run.isUnbounded seat = false := by
    rw [isUnbounded, hseat.plain.yields.plain.subst_eq, hlist, hclosed]
  have hnormal : (Ty.list element length).IsNormal := hlist ▸ Ty.isNormal_normalize _
  obtain ⟨p, hpop⟩ := hnormal.exists_pop?_list hclosed
  have hproduce := hseat.produce?_eq run.bindings
  rw [if_pos hvoid, hlist, hpop] at hproduce
  have hoffer : Offer.mk seat _ ∈ run.offers :=
    mem_offers.2 ⟨hlive ▸ List.mem_singleton_self seat, hproduce⟩
  rw [(nextAction?_eq_none_iff (hlive ▸ List.forall_mem_singleton.2 hbounded)).1 hstop] at hoffer
  cases hoffer

end Run

/-- The contract that a run of elementary contracts is composed into can be handed out. -/
theorem Contract.unwinds_of_ending {run : Run} {hierarchy : Hierarchy} {c : Contract}
    (h : run.Elementary) (hstop : run.nextAction? hierarchy = none)
    (hending : run.ending = .composed c) : c.Unwinds := by
  have helementary := h.ending Contract.law_elementary hending
  unfold Run.ending at hending
  split at hending
  · cases hending
    refine ⟨helementary, run.isNormal_output, fun _ element length hlist => ?_⟩
    exact absurd hlist (run.output_yields_ne_list element length)
  · rename_i seat hlive
    cases hending
    have hseat : seat.current.Elementary :=
      (h.seats seat (hlive ▸ List.mem_singleton_self seat)).2
    have hsubst := hseat.subst_eq run.bindings
    refine ⟨helementary, ?_, fun hreceives element length hlist => ?_⟩
    · rw [andThen, hsubst]
      exact run.isNormal_output.concat (Ty.isNormal_normalize _)
    · rw [andThen, hsubst] at hreceives hlist ⊢
      dsimp only at hreceives hlist ⊢
      rw [hlist]
      have hvoid : seat.current.receives.isVoid = true := by
        rw [← hseat.normal.normalize_eq]
        exact Ty.isVoid_iff.2 hreceives
      rcases Ty.eq_void_of_concat_eq_list hlist with houtput | hrest
      · rw [houtput] at hlist
        exact Run.isOpenStream_of_nextAction?_eq_none hstop hlive hseat hvoid hlist
      · rw [hrest, Ty.concat_void] at hlist
        exact absurd hlist (run.output_yields_ne_list element length)
  · cases hending

namespace Run

variable {run next : Run} {options : Options} {K : Contract} {record : List Event}

/-! ### Handing out a contract -/

/-- The only seat of a run starts a generator, which is seated behind it. -/
lemma live_seated {offer : Offer} (hlive : run.live = [offer.seat]) (g : Generator) :
    (run.seated offer [g]).live =
      [{ offer.seat with current := offer.yielded.successor },
        ⟨run.nextNumber, g, g.contract⟩] := by
  have hjoined : (run.seated offer [g]).live =
      (run.put offer.seat.number offer.yielded.successor).live ++
        [⟨run.nextNumber, g, g.contract⟩] := rfl
  rw [hjoined, put, hlive, List.map_singleton, if_pos (beq_self_eq_true _)]
  rfl

/-- At most one seat is left. What was handed out, followed by what is left on the seat, amounts to
the contract `K`. There are no warnings, and the trace begins with `record`. -/
structure Unwinding (K : Contract) (record : List Event) (run : Run) : Prop where
  seats : run.live = [] ∧ K.receives = .void ∧ K.yields = Ty.sequence run.emitted.toList ∨
    ∃ seat, run.live = [seat] ∧ seat.generator.infinite = false ∧ seat.current.Unwinds ∧
      K.receives = seat.current.receives ∧
      K.yields = (Ty.sequence run.emitted.toList).concat seat.current.yields
  emitted : ∀ v ∈ run.emitted.toList, v.IsNormal
  warnings : run.warnings = #[]
  trace : ∃ rest, run.trace.toList = record ++ rest

namespace Unwinding

lemma elementary (h : run.Unwinding K record) {seat : Seat} (hseat : seat ∈ run.live) :
    seat.current.Elementary := by
  rcases h.seats with ⟨hlive, -⟩ | ⟨only, hlive, -, hunwinds, -⟩
  · rw [hlive] at hseat
    cases hseat
  · rw [hlive, List.mem_singleton] at hseat
    exact hseat ▸ hunwinds.elementary

/-- A seat that is finished leaves. -/
lemma retire (h : run.Unwinding K record) (number : Nat) :
    (run.retire number).Unwinding K record := by
  rcases run.retire_cases number with hsame | ⟨seat, hfound, hterminal, hretire⟩
  · rwa [hsame]
  obtain ⟨hmem, hnumber⟩ := mem_of_seat?_eq_some hfound
  rcases h.seats with ⟨hlive, -⟩ | ⟨only, hlive, hfinite, hunwinds, hreceives, hyields⟩
  · rw [hlive] at hmem
    cases hmem
  rw [hlive, List.mem_singleton] at hmem
  subst hmem
  rcases hretire with ⟨hinfinite, -⟩ | ⟨-, hleave⟩
  · rw [hfinite] at hinfinite
    cases hinfinite
  rw [Contract.isTerminal, hunwinds.elementary.normal.normalize_eq, hunwinds.yields.normalize_eq,
    Bool.and_eq_true, Ty.isVoid_iff, Ty.isVoid_iff] at hterminal
  rw [hleave]
  refine ⟨.inl ⟨?_, hreceives.trans hterminal.1, ?_⟩, h.emitted, h.warnings, h.trace⟩
  · rw [leave, hlive, List.filter_cons_of_neg (by simp [hnumber]), List.filter_nil]
  · rw [hyields, hterminal.2, Ty.concat_void]
    rfl

/-- The only seat hands out its next value. -/
lemma handedOut (h : run.Unwinding K record) {offer : Offer} {hierarchy : Hierarchy}
    (hallows : run.Allows hierarchy (.emit offer)) :
    (run.handedOut offer).Unwinding K record := by
  obtain ⟨hoffer, hbounded⟩ := hallows
  obtain ⟨hseat, hyielded⟩ := mem_offers.1 hoffer
  rcases h.seats with ⟨hlive, -⟩ | ⟨only, hlive, hfinite, hunwinds, hreceives, hyields⟩
  · rw [hlive] at hseat
    cases hseat
  rw [hlive, List.mem_singleton] at hseat
  rw [hseat] at hyielded hbounded
  have hsame : only.current.yields.subst run.bindings = only.current.yields := by
    rw [hunwinds.elementary.plain.yields.plain.subst_eq, hunwinds.yields.normalize_eq]
  obtain ⟨hvoid, -, rest, hpop, hsuccessor⟩ := Contract.produce?_eq_some_iff.1 hyielded
  rw [Ty.isVoid_iff] at hvoid
  rw [hsame] at hpop
  rw [isUnbounded, hsame] at hbounded
  have hlist : ∀ element length, only.current.yields ≠ .list element length := by
    intro element length hlist
    rw [hunwinds.stream hvoid element length hlist] at hbounded
    cases hbounded
  have hemitted : (run.handedOut offer).emitted.toList = run.emitted.toList ++ [offer.value] :=
    Array.toList_push
  obtain ⟨hvalue, hrest⟩ := hunwinds.yields.pop? hpop
  obtain ⟨hwhole, hmembers⟩ := hunwinds.yields.concat_pop? hlist hpop run.emitted.toList
  have hleft : offer.yielded.successor.Unwinds := by
    refine ⟨(Contract.law_elementary.produce trivial hunwinds.elementary hyielded).2, ?_, ?_⟩
    · rw [hsuccessor]
      exact Ty.isNormal_normalize rest
    · rw [hsuccessor]
      intro _ element length hlist
      exact absurd (hrest.normalize_eq ▸ hlist) (hmembers element length)
  refine ⟨.inr ⟨⟨only.number, only.generator, offer.yielded.successor⟩, ?_, hfinite, hleft, ?_, ?_⟩,
    ?_, h.warnings, ?_⟩
  · have hput : (run.handedOut offer).live =
        (run.put offer.seat.number offer.yielded.successor).live := rfl
    rw [hput, put, hlive, hseat, List.map_singleton, if_pos (beq_self_eq_true _)]
  · rw [hreceives, hvoid, hsuccessor]
  · rw [hemitted, hyields, ← hwhole, hsuccessor]
    exact congrArg _ hrest.normalize_eq.symm
  · rw [hemitted]
    exact List.forall_mem_append.2 ⟨h.emitted, List.forall_mem_singleton.2 hvalue⟩
  · obtain ⟨later, htrace⟩ := h.trace
    have hpushed : (run.handedOut offer).trace.toList = run.trace.toList ++
        [seatEvent (run.steps + 1) .yield offer.seat,
          ⟨run.steps + 1, .resume, none, Contract.of offer.value .void⟩] := by
      rw [List.append_cons, ← Array.toList_push, ← Array.toList_push]
      rfl
    exact ⟨_, by rw [hpushed, htrace, List.append_assoc]⟩

/-- The only seat of a run starts a generator, is finished, and leaves. The contract of the
generator is what is handed out from there on. -/
lemma retire_seated {prepared : Run} {offer : Offer} {g : Generator}
    (hlive : prepared.live = [offer.seat]) (hnumber : offer.seat.number < prepared.nextNumber)
    (hfinite : offer.seat.generator.infinite = false)
    (hterminal : offer.yielded.successor.isTerminal = true) (hemitted : prepared.emitted = #[])
    (hwarnings : prepared.warnings = #[]) (hg : g.infinite = false)
    (hunwinds : g.contract.Unwinds) :
    ((prepared.seated offer [g]).retire offer.seat.number).Unwinding g.contract
      prepared.trace.toList := by
  have hseats := live_seated hlive g
  have hretire : (prepared.seated offer [g]).retire offer.seat.number =
      (prepared.seated offer [g]).leave offer.seat.number := by
    rw [Run.retire, seat?, hseats, List.find?_cons_of_pos (by simp)]
    dsimp only
    rw [if_pos hterminal, hfinite, if_neg Bool.false_ne_true]
  have hleft : ((prepared.seated offer [g]).leave offer.seat.number).live =
      [⟨prepared.nextNumber, g, g.contract⟩] := by
    rw [leave, hseats, List.filter_cons_of_neg (by simp), List.filter_cons_of_pos, List.filter_nil]
    simpa using Nat.ne_of_gt hnumber
  rw [hretire]
  refine ⟨.inr ⟨_, hleft, hg, hunwinds, rfl, ?_⟩, ?_, hwarnings, ?_⟩
  · have hnone : ((prepared.seated offer [g]).leave offer.seat.number).emitted = #[] := hemitted
    rw [hnone]
    rfl
  · have hnone : ((prepared.seated offer [g]).leave offer.seat.number).emitted = #[] := hemitted
    rw [hnone]
    exact List.forall_mem_nil _
  · exact ⟨_, (prepared.seated_records offer [g]).2⟩

/-- Nothing can be done but to hand out the next value. -/
theorem of_commit (h : run.Unwinding K record) {compose : Ty → Run → Except Halt Run}
    {action : Action} (haction : run.nextAction? options.hierarchy = some action)
    (hcommit : run.commit options compose action = .ok next) : next.Unwinding K record := by
  have hallows := allows_of_nextAction? haction
  have honly : ∀ {seat seat' : Seat}, seat ∈ run.live → seat' ∈ run.live → seat = seat' := by
    intro seat seat' hseat hseat'
    rcases h.seats with ⟨hlive, -⟩ | ⟨only, hlive, -⟩
    · rw [hlive] at hseat
      cases hseat
    · rw [hlive, List.mem_singleton] at hseat hseat'
      rw [hseat, hseat']
  cases action with
  | exchange offer receiver received =>
    obtain ⟨hoffer, hreceiver, hnumber, -⟩ := hallows
    exact absurd (congrArg Seat.number (honly hreceiver (mem_offers.1 hoffer).1)) hnumber
  | spawn offer contracts =>
    obtain ⟨hoffer, hcontracts⟩ := hallows
    obtain ⟨hseat, hyielded⟩ := mem_offers.1 hoffer
    have hvalue := (Contract.law_elementary.produce trivial (h.elementary hseat) hyielded).1
    rw [Offer.value, hvalue.contracts?_eq_none] at hcontracts
    cases hcontracts
  | absorb offer absorber =>
    obtain ⟨hoffer, -, habsorber, hcan⟩ := hallows
    rw [honly habsorber (mem_offers.1 hoffer).1, canAbsorb, bne_self_eq_false] at hcan
    cases hcan
  | emit offer =>
    obtain ⟨-, rfl⟩ := emit_eq_ok hcommit
    have hsize : (run.handedOut offer).bindings.size ≤ run.bindings.size := Nat.le_refl _
    rw [wrapUp_of_le hsize]
    exact (h.handedOut hallows).retire offer.seat.number

/-- In the end the contract is what the run is composed into. -/
theorem exists_result (h : run.Unwinding K record) :
    ∃ s, run.result = .ok s ∧ s.contract.receives = K.receives ∧ s.contract.yields = K.yields ∧
      s.warnings = [] ∧ ∃ rest, s.trace = record ++ rest := by
  have houtput : run.output.yields = Ty.sequence run.emitted.toList :=
    (Ty.isNormal_sequence h.emitted).normalize_eq
  have hresult : ∀ c, run.ending = .composed c → c.receives = K.receives → c.yields = K.yields →
      ∃ s, run.result = .ok s ∧ s.contract.receives = K.receives ∧
        s.contract.yields = K.yields ∧ s.warnings = [] ∧ ∃ rest, s.trace = record ++ rest := by
    intro c hending hreceives hyields
    refine ⟨_, by rw [result, hending], hreceives, hyields, ?_, h.trace⟩
    rw [h.warnings]
  rcases h.seats with ⟨hlive, hreceives, hyields⟩ | ⟨seat, hlive, -, hunwinds, hreceives, hyields⟩
  · refine hresult run.output (by rw [ending, hlive]) hreceives.symm ?_
    rw [houtput, hyields]
  · have hending : run.ending = .composed (run.output.andThen seat.current) := by
      rw [ending, hlive]
      dsimp only
      rw [hunwinds.subst_eq]
    refine hresult _ hending hreceives.symm ?_
    rw [Contract.andThen, houtput, hyields]

end Unwinding

end Run

end ContractComposition
