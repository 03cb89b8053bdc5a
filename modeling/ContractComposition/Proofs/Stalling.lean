import Mathlib.Data.Prod.Lex
import ContractComposition.Proofs.Discrete
import ContractComposition.Proofs.StepBound

/-!
# Runs that stall

Finite generators whose contracts are made of constants, variables, lengths, tuples and sequences
should use up what they have to yield. They do, with one exception. A length on its own is a stream
that is not empty but has no first element. A generator that is left with it *stalls*
(`Contract.Stalls`): it cannot yield, but it still takes over what others yield, and then it can
yield again. Two such generators pass a value back and forth for ever, and no step budget is enough
(`lengths_are_passed_back_and_forth`).

Unless a generator stalls, the run comes to its end (`finite_run_ends_unless_it_stalls`). Every step
lowers a rank of two components. The first one is the number of variables that can still be bound.
Binding a variable may add values, because it may stand for several of them in a sequence; but there
are finitely many variables. As long as no variable becomes bound, the second component falls, which
is the weight of all values that are left to be yielded. The argument is that of first-order
generators: a value is absorbed by a later seat only, since every seat with nothing left to receive
can yield.
-/

namespace ContractComposition

/-! ### Contracts that yield what they have received -/

/-- The contract has nothing left to receive, and what it has left to yield is a length on its own,
which has no first element. -/
def Contract.Stalls (c : Contract) : Prop :=
  c.receives = .void ∧ c.yields.normalize.isLength = true

namespace Ty.Discrete

/-- The variables of a stream are those of its first element and of what remains. -/
lemma occurrences_of_pop? {L : Prop} {t head rest : Ty} (h : t.Discrete L)
    (hpop : t.pop? = some (head, rest)) : t.occurrences = head.occurrences ++ rest.occurrences := by
  cases h with
  | void | int | star => cases hpop
  | const | var | tuple => cases hpop; exact (List.append_nil _).symm
  | @seq items _ =>
    cases items with
    | nil => cases hpop
    | cons first others =>
      cases hpop
      rw [occurrences, occurrencesAll, occurrences_sequence]

end Ty.Discrete

namespace Contract.Discrete

variable {L : Prop} {c : Contract} {b : Bindings}

/-- Substituting ground bindings removes the same variables from both sides. -/
lemma binds_subst (hb : b.Tokens L) (hc : c.Discrete L) (h : c.Binds fun _ => False) :
    (c.subst b).Binds fun _ => False := by
  intro x hx
  rcases c.subst_sides b with ⟨-, hyields⟩ | ⟨hreceives, hyields⟩
  · rw [hyields] at hx
    cases hx
  · rw [hyields, hc.yields.mem_occurrences_subst hb] at hx
    have hreceived : x ∈ c.receives.occurrences := (h x hx.1).resolve_right id
    rw [hreceives, hc.receives.mem_occurrences_subst hb]
    exact .inl ⟨hreceived, hx.2⟩

/-- What is left after yielding has no variables. -/
lemma binds_successor (hb : b.Tokens L) (hc : c.Discrete L) {yielded : Yielded}
    (hyielded : c.produce? b = some yielded) : yielded.successor.Binds fun _ => False := by
  obtain ⟨-, hground, rest, hpop, hsuccessor⟩ := produce?_eq_some_iff.1 hyielded
  have hplain : (c.yields.subst b).IsPlain :=
    (hc.yields.subst hb.discrete).unconstrained.ground_of_isGround hground
  have hrest : rest.normalize.isGround = true := (hplain.pop? hpop).2.normalize.isGround
  intro x hx
  rw [hsuccessor] at hx
  exact absurd hx (Ty.isGround_iff.1 hrest x)

/-- The variables of what is received are bound from then on, so that they are gone on both sides
after substituting. -/
lemma binds_resumed (hb : b.Tokens L) (hc : c.Discrete L) (h : c.Binds fun _ => False)
    {offered : Ty} (hoffered : offered.Token L) {hierarchy : Hierarchy} {received : Received}
    (hreceived : c.accept? offered b hierarchy = some received) :
    (received.successor.subst received.bindings).Binds fun _ => False := by
  obtain ⟨hsuccessor, htokens⟩ := hc.accept? hb hoffered hreceived
  obtain ⟨head, rest, found, hpop, hfound, hjoin, -, -, heq⟩ := accept?_eq_some_iff.1 hreceived
  have hplain : offered.IsPlain :=
    hoffered.discrete.unconstrained.ground_of_isGround hoffered.isGround
  intro x hx
  rcases received.successor.subst_sides received.bindings with
    ⟨-, hyields⟩ | ⟨hreceives, hyields⟩
  · rw [hyields] at hx
    cases hx
  rw [hyields, hsuccessor.yields.mem_occurrences_subst htokens] at hx
  rw [hreceives, hsuccessor.receives.mem_occurrences_subst htokens]
  obtain ⟨hyielded, hfree⟩ := hx
  refine .inl ⟨?_, hfree⟩
  rw [heq] at hyielded ⊢
  have hsides : x ∈ head.occurrences ∨ x ∈ rest.occurrences := by
    rw [← List.mem_append, ← hc.receives.occurrences_of_pop? hpop]
    exact (h x hyielded).resolve_right id
  refine hsides.resolve_left fun hhead => ?_
  -- A variable of the first element that was not bound before is bound by the match.
  rw [Bindings.find?_join? hjoin, Option.or_eq_none_iff] at hfree
  have hleft : x ∈ (head.subst b).occurrences :=
    ((hc.receives.pop? hpop).1.mem_occurrences_subst hb).2 ⟨hhead, hfree.1⟩
  have hbound := (Bindings.contains_found_iff hplain hfound x).2 hleft
  rw [NameTable.contains_eq_false_iff.2 hfree.2] at hbound
  cases hbound

/-- A value that is taken over is yielded last. -/
lemma flatten_appendYield (hc : c.Discrete L) {value : Ty} (hvalue : value.Discrete L)
    (hmember : value.IsMember) :
    (c.appendYield value).yields.flatten = c.yields.flatten ++ [value] := by
  have hsequence : (Ty.sequence [value]).Discrete L :=
    .sequence (List.forall_mem_singleton.2 hvalue)
  rw [appendYield, Ty.flatten_concat hc.yields.ne_list hsequence.ne_list, Ty.flatten_sequence,
    Ty.flattenAll, Ty.flattenAll, hmember.flatten_eq, List.append_nil]

lemma occurrences_appendYield (hc : c.Discrete L) {value : Ty} (hvalue : value.Token L)
    (hmember : value.IsMember) :
    (c.appendYield value).yields.occurrences = c.yields.occurrences := by
  have hground : value.occurrences = [] := List.isEmpty_iff.1 hvalue.isGround
  rw [← Ty.flatMap_occurrences_flatten, hc.flatten_appendYield hvalue.discrete hmember,
    List.flatMap_append, Ty.flatMap_occurrences_flatten, List.flatMap_singleton, hground,
    List.append_nil]

lemma isTerminal_appendYield (hc : c.Discrete L) {value : Ty} (hvalue : value.Token L)
    (hmember : value.IsMember) : (c.appendYield value).isTerminal = false := by
  have hyields := ((law_discrete L).append hc hvalue).yields
  have hlength := hyields.length_flatten_normalize
  rw [hc.flatten_appendYield hvalue.discrete hmember, List.length_append,
    List.length_singleton] at hlength
  rw [isTerminal, Bool.and_eq_false_iff]
  right
  rw [Bool.eq_false_iff, Ne, Ty.isVoid_iff]
  intro hvoid
  rw [hvoid] at hlength
  cases hlength

/-- A contract with nothing left to receive can yield, unless it is finished or stalls. -/
lemma exists_produce? (hc : c.Discrete L) (h : c.Binds fun _ => False)
    (hterminal : c.isTerminal = false) (hstalls : ¬c.Stalls) (hvoid : c.receives = .void) :
    ∃ yielded, c.produce? b = some yielded := by
  have hnone : ∀ x, x ∉ c.yields.occurrences := by
    intro x hx
    have hreceived : x ∈ c.receives.occurrences := (h x hx).resolve_right id
    rw [hvoid] at hreceived
    cases hreceived
  have hyields : c.yields.subst b = c.yields.normalize :=
    hc.yields.unconstrained.subst_eq_normalize fun x hx => absurd hx (hnone x)
  have hground : (c.yields.subst b).isGround = true := by
    rw [hyields, Ty.isGround_iff, hc.yields.occurrences_normalize]
    exact hnone
  have hsome : c.yields.subst b ≠ .void := by
    intro hempty
    rw [isTerminal, hvoid, ← hyields, hempty] at hterminal
    cases hterminal
  have hlength : (c.yields.subst b).isLength = false := by
    rw [hyields, Bool.eq_false_iff]
    exact fun hlength => hstalls ⟨hvoid, hlength⟩
  have hdiscrete : (c.yields.subst b).Discrete L := hyields ▸ hc.yields.normalize
  obtain ⟨⟨value, rest⟩, hpop⟩ :=
    hdiscrete.exists_pop? (Ty.isNormal_normalize _) hsome hlength
  exact ⟨⟨value, _⟩, produce?_eq_some_iff.2 ⟨Ty.isVoid_iff.2 hvoid, hground, rest, hpop, rfl⟩⟩

end Contract.Discrete

namespace Run

variable {run next first : Run} {options : Options} {names : List String} {places : Nat}

/-! ### The invariant -/

/-- The seat has one of the given number of places, its generator is finite, and its contract is
discrete and yields what it has received, for which it uses the given variables. -/
structure Posted (names : List String) (places : Nat) (number : Nat) (g : Generator)
    (c : Contract) : Prop where
  placed : Placed places number g c
  discrete : c.Discrete True
  names : c.receives.occurrences ⊆ names
  binds : c.Binds fun _ => False

/-- No variable of what is received is bound. -/
def Unbound (b : Bindings) (c : Contract) : Prop :=
  ∀ x ∈ c.receives.occurrences, b.find? x = none

lemma survivesRestarts_posted (external : List String) :
    SurvivesRestarts (Posted names places) external := by
  intro n g g' c c' k _ hseat hinfinite
  rw [hseat.placed.2] at hinfinite
  cases hinfinite

section

variable {b : Bindings} {number : Nat} {g : Generator} {c : Contract}

lemma Posted.subst (hb : b.Tokens True) (h : Posted names places number g c) :
    Posted names places number g (c.subst b) := by
  refine ⟨h.placed, h.discrete.subst hb.discrete, fun x hx => ?_,
    h.discrete.binds_subst hb h.binds⟩
  rcases c.subst_sides b with ⟨hreceives, -⟩ | ⟨hreceives, -⟩
  · rw [hreceives] at hx
    cases hx
  · rw [hreceives, h.discrete.receives.mem_occurrences_subst hb] at hx
    exact h.names hx.1

lemma unbound_subst (hb : b.Tokens True) (h : c.Discrete True) : Unbound b (c.subst b) := by
  intro x hx
  rcases c.subst_sides b with ⟨hreceives, -⟩ | ⟨hreceives, -⟩
  · rw [hreceives] at hx
    cases hx
  · rw [hreceives, h.receives.mem_occurrences_subst hb] at hx
    exact hx.2

/-- Bindings of other variables do not change what is yielded. -/
lemma Posted.yields_subst_eq (h : Posted names places number g c) (hunbound : Unbound b c) :
    c.yields.subst b = c.yields.normalize := by
  refine h.discrete.yields.unconstrained.subst_eq_normalize fun x hx => ?_
  exact hunbound x ((h.binds x hx).resolve_right id)

end

/-- What a seat has left after yielding receives nothing. -/
lemma unbound_put_successor {b : Bindings} (h : ForallSeats (fun _ _ c => Unbound b c) run)
    {offer : Offer} (hoffer : offer ∈ run.offers) :
    ForallSeats (fun _ _ c => Unbound b c)
      (run.put offer.seat.number offer.yielded.successor) := by
  obtain ⟨-, hyielded⟩ := mem_offers.1 hoffer
  obtain ⟨-, -, rest, -, hsuccessor⟩ := Contract.produce?_eq_some_iff.1 hyielded
  refine h.put fun _ _ _ x hx => ?_
  rw [hsuccessor] at hx
  cases hx

/-- A run of finite generators with discrete contracts that yield what they have received. All
variables that are bound are among the given ones. -/
structure Underway (names : List String) (places : Nat) (run : Run) : Prop where
  obeys : run.Obeys (Contract.Discrete True) (Ty.Token True) (Bindings.Tokens True)
  numbered : run.Numbered
  seats : ForallSeats (Posted names places) run
  bound : ∀ x, run.bindings.contains x = true → x ∈ names

/-- The state of such a run between two steps: the bindings have been substituted, and no seat is
finished. -/
structure Rested (names : List String) (places : Nat) (run : Run) : Prop extends
    Underway names places run where
  unbound : ForallSeats (Transient (Unbound run.bindings)) run
  unfinished : ForallSeats (fun _ _ c => c.isTerminal = false) run

namespace Underway

lemma finite (h : run.Underway names places) :
    ForallSeats (fun _ g _ => g.infinite = false) run :=
  h.seats.mono fun _ _ _ hseat => hseat.placed.2

lemma token_of_mem_offers (h : run.Underway names places) {offer : Offer}
    (hoffer : offer ∈ run.offers) : offer.value.Token True :=
  (h.obeys.of_mem_offers (Contract.law_discrete True) hoffer).1

/-- What is yielded is one member. -/
lemma isMember_of_mem_offers (h : run.Underway names places) {offer : Offer}
    (hoffer : offer ∈ run.offers) : offer.value.IsMember := by
  obtain ⟨hseat, hyielded⟩ := mem_offers.1 hoffer
  obtain ⟨-, -, rest, hpop, -⟩ := Contract.produce?_eq_some_iff.1 hyielded
  have hdiscrete : (offer.seat.current.yields.subst run.bindings).Discrete True :=
    (h.seats _ hseat).discrete.yields.subst h.obeys.bindings.discrete
  have hmembers := (Ty.isNormal_normalize _).flatten_of_pop? hdiscrete.ne_list hpop
  exact Ty.isMember_of_mem_flatten (hmembers ▸ List.mem_cons_self)

/-- Contracts are not yielded, so they do not start. -/
lemma not_spawn (h : run.Underway names places) {hierarchy : Hierarchy} {offer : Offer}
    {contracts : List Contract} : ¬run.Allows hierarchy (.spawn offer contracts) := by
  rintro ⟨hoffer, hcontracts⟩
  rw [(h.token_of_mem_offers hoffer).discrete.contracts?_eq_none] at hcontracts
  cases hcontracts

/-- There are no more bindings than variables. -/
lemma size_le (h : run.Underway names places) : run.bindings.size ≤ names.length := by
  have hnodup : run.bindings.names.Nodup := by
    refine List.Pairwise.imp (fun {x y} (hlt : x < y) => ?_)
      (List.pairwise_map.2 run.bindings.ascending)
    rintro rfl
    exact String.lt_irrefl _ hlt
  have hsubset : run.bindings.names ⊆ names :=
    fun x hx => h.bound x (NameTable.mem_names_iff.1 hx)
  have hlength := (List.subperm_of_subset hnodup hsubset).length_le
  rwa [NameTable.names, List.length_map] at hlength

lemma wrapUp (h : run.Underway names places) (before : Bindings) (numbers : List Nat) :
    (run.wrapUp before numbers).Underway names places := by
  refine ⟨h.obeys.wrapUp (Contract.law_discrete True) before numbers,
    h.numbered.wrapUp before numbers, ?_, ?_⟩
  · exact h.seats.wrapUp (fun _ _ _ hseat => hseat.subst h.obeys.bindings)
      (survivesRestarts_posted _) before numbers
  · rw [(run.reseats_wrapUp before numbers).bindings]
    exact h.bound

/-- What a seat has left after yielding has no variables. -/
lemma put_successor (h : run.Underway names places) {offer : Offer} (hoffer : offer ∈ run.offers) :
    ForallSeats (Posted names places) (run.put offer.seat.number offer.yielded.successor) := by
  obtain ⟨hseat, hyielded⟩ := mem_offers.1 hoffer
  obtain ⟨-, -, rest, -, hsuccessor⟩ := Contract.produce?_eq_some_iff.1 hyielded
  have hdiscrete := (h.seats _ hseat).discrete
  refine h.seats.put fun g c hposted => ⟨hposted.placed, ?_, ?_, ?_⟩
  · exact (hdiscrete.produce? h.obeys.bindings hyielded).2
  · rw [hsuccessor]
    exact List.nil_subset _
  · exact hdiscrete.binds_successor h.obeys.bindings hyielded

lemma exchanged (h : run.Underway names places) {offer : Offer} {receiver : Seat}
    {received : Received} {hierarchy : Hierarchy}
    (hallows : run.Allows hierarchy (.exchange offer receiver received)) :
    (run.exchanged offer receiver received).Underway names places := by
  have hobeys := h.obeys.exchanged (Contract.law_discrete True) hallows
  obtain ⟨hoffer, hreceiver, -, hreceived⟩ := hallows
  have hvalue := h.token_of_mem_offers hoffer
  have hposted := h.seats receiver hreceiver
  obtain ⟨hsuccessor, htokens⟩ :=
    hposted.discrete.accept? h.obeys.bindings hvalue hreceived
  obtain ⟨head, rest, found, hpop, hfound, hjoin, -, -, heq⟩ :=
    Contract.accept?_eq_some_iff.1 hreceived
  have hsides := hposted.discrete.receives.occurrences_of_pop? hpop
  refine ⟨hobeys, h.numbered.exchanged _ _ _, ?_, fun x hx => ?_⟩
  · refine (h.put_successor hoffer).put fun g c hseat => ⟨hseat.placed, ?_, fun x hx => ?_, ?_⟩
    · exact hsuccessor.subst htokens.discrete
    · rcases received.successor.subst_sides received.bindings with ⟨hreceives, -⟩ | ⟨hreceives, -⟩
      · rw [hreceives] at hx
        cases hx
      · rw [hreceives, hsuccessor.receives.mem_occurrences_subst htokens, heq] at hx
        apply hposted.names
        rw [hsides]
        exact List.mem_append_right _ hx.1
    · exact hposted.discrete.binds_resumed h.obeys.bindings hposted.binds hvalue hreceived
  · have hplain : offer.value.IsPlain :=
      hvalue.discrete.unconstrained.ground_of_isGround hvalue.isGround
    rcases (Bindings.contains_join? hjoin x).1 hx with hx | hx
    · exact h.bound x hx
    · rw [Bindings.contains_found_iff hplain hfound,
        (hposted.discrete.receives.pop? hpop).1.mem_occurrences_subst h.obeys.bindings] at hx
      apply hposted.names
      rw [hsides]
      exact List.mem_append_left _ hx.1

lemma absorbed (h : run.Underway names places) {offer : Offer} {absorber : Seat}
    {hierarchy : Hierarchy} (hallows : run.Allows hierarchy (.absorb offer absorber)) :
    (run.absorbed offer absorber).Underway names places := by
  have hobeys := h.obeys.absorbed (Contract.law_discrete True) hallows
  obtain ⟨hoffer, -, habsorber, -⟩ := hallows
  have hvalue := h.token_of_mem_offers hoffer
  have hposted := h.seats absorber habsorber
  refine ⟨hobeys, h.numbered.absorbed _ _, ?_, h.bound⟩
  refine (h.put_successor hoffer).put fun g c hseat => ⟨hseat.placed, ?_, hposted.names, ?_⟩
  · exact (Contract.law_discrete True).append hposted.discrete hvalue
  · intro x hx
    rw [hposted.discrete.occurrences_appendYield hvalue (h.isMember_of_mem_offers hoffer)] at hx
    exact hposted.binds x hx

lemma handedOut (h : run.Underway names places) {offer : Offer} {hierarchy : Hierarchy}
    (hallows : run.Allows hierarchy (.emit offer)) :
    (run.handedOut offer).Underway names places :=
  ⟨h.obeys.handedOut (Contract.law_discrete True) hallows, h.numbered.handedOut _,
    h.put_successor hallows.1, h.bound⟩

/-- At the end of a step no variable that is bound is left on a seat, and no seat is finished,
provided that this was so for the old bindings if these are still in force, and for the seats that
are not retired. -/
lemma rested_wrapUp (h : run.Underway names places) {before : Bindings} {numbers : List Nat}
    (hext : before.ExtendedBy run.bindings)
    (hunbound : run.bindings = before → ForallSeats (fun _ _ c => Unbound run.bindings c) run)
    (hothers : ∀ seat ∈ run.live, seat.number ∉ numbers → seat.current.isTerminal = false) :
    (run.wrapUp before numbers).Rested names places := by
  have hwrapped := h.wrapUp before numbers
  refine ⟨hwrapped, ?_, fun seat hseat => ?_⟩
  · rw [(run.reseats_wrapUp before numbers).bindings]
    rcases Nat.lt_or_ge before.size run.bindings.size with hlt | hle
    · rw [wrapUp_of_lt hlt]
      have hretired := h.seats.retireAll (survivesRestarts_posted _) numbers
      refine hretired.propagate (fun n g c hseat => ⟨hseat.placed.2, ?_⟩)
        (survivesRestarts_transient _)
      rw [(run.reseats_retireAll numbers).bindings]
      exact unbound_subst h.obeys.bindings hseat.discrete
    · rw [wrapUp_of_le hle]
      have hsame := hunbound (hext.eq_of_size_le hle)
      have htransient : ForallSeats (Transient (Unbound run.bindings)) run :=
        fun seat hseat => ⟨h.finite seat hseat, hsame seat hseat⟩
      exact htransient.retireAll (survivesRestarts_transient _) numbers
  · exact isTerminal_eq_false_of_mem_wrapUp h.numbered hothers hseat
      (resumable_of_finite (hwrapped.finite seat hseat))

end Underway

/-! ### The rank -/

/-- The number of values that are left to be yielded. -/
def remaining (c : Contract) : Nat :=
  c.yields.flatten.length

/-- What every step lowers: the number of variables that can still be bound, then the weight of the
values that are left to be yielded. -/
def rank (names : List String) (places : Nat) (run : Run) : Nat ×ₗ Nat :=
  toLex (names.length - run.bindings.size, (run.sumSeats (weigh places remaining)).toNat)

/-- A step lowers the rank if it binds variables, or if it takes away some weight. -/
lemma rank_wrapUp_lt {moved : Run} (h : moved.Underway names places)
    (hmoved : run.bindings.size < moved.bindings.size ∨ moved.bindings = run.bindings ∧
      moved.sumSeats (weigh places remaining) < run.sumSeats (weigh places remaining))
    (numbers : List Nat) :
    (moved.wrapUp run.bindings numbers).rank names places < run.rank names places := by
  have hbindings := (moved.reseats_wrapUp run.bindings numbers).bindings
  have hsize := h.size_le
  rw [rank, rank, Prod.Lex.toLex_lt_toLex, hbindings]
  rcases hmoved with hgrown | ⟨hsame, hless⟩
  · left
    dsimp only
    omega
  · right
    have hle : moved.bindings.size ≤ run.bindings.size := Nat.le_of_eq (by rw [hsame])
    have htransient : ForallSeats (Transient fun _ => True) moved :=
      fun seat hseat => ⟨h.finite seat hseat, trivial⟩
    have hretired := sumSeats_retireAll_le (fun seat _ _ => weigh_nonneg places remaining seat)
      h.numbered htransient numbers
    have hnonneg := sumSeats_weigh_nonneg places remaining (moved.retireAll numbers)
    rw [wrapUp_of_le hle, hsame]
    refine ⟨rfl, ?_⟩
    dsimp only
    omega

namespace Rested

/-- A seat with nothing left to receive can yield, unless it stalls. -/
lemma exists_produce? (h : run.Rested names places)
    (hstalls : ForallSeats (fun _ _ c => ¬c.Stalls) run) {seat : Seat} (hseat : seat ∈ run.live)
    (hvoid : seat.current.receives = .void) :
    ∃ yielded, seat.current.produce? run.bindings = some yielded := by
  have hposted := h.seats seat hseat
  exact hposted.discrete.exists_produce? hposted.binds (h.unfinished seat hseat)
    (hstalls seat hseat) hvoid

lemma isUnbounded_eq_false (h : run.Rested names places) {seat : Seat} (hseat : seat ∈ run.live) :
    run.isUnbounded seat = false :=
  ((h.seats seat hseat).discrete.yields.subst
    h.obeys.bindings.discrete).isOpenStream_eq_false

/-- Yielding takes one value away. -/
lemma remaining_successor (h : run.Rested names places) {offer : Offer}
    (hoffer : offer ∈ run.offers) :
    remaining offer.yielded.successor < remaining offer.seat.current := by
  obtain ⟨hseat, hyielded⟩ := mem_offers.1 hoffer
  obtain ⟨-, -, rest, hpop, hsuccessor⟩ := Contract.produce?_eq_some_iff.1 hyielded
  have hposted := h.seats _ hseat
  rw [hposted.yields_subst_eq (h.unbound _ hseat).2] at hpop
  have hnormal : offer.seat.current.yields.normalize.Discrete True :=
    hposted.discrete.yields.normalize
  have hmembers := (Ty.isNormal_normalize _).flatten_of_pop? hnormal.ne_list hpop
  have hlength := hposted.discrete.yields.length_flatten_normalize
  rw [hmembers, List.length_cons] at hlength
  rw [remaining, remaining, hsuccessor, (hnormal.pop? hpop).2.length_flatten_normalize, ← hlength]
  exact Nat.lt_succ_self _

/-- As long as no variable becomes bound, what the receiver has to yield does not get more. -/
lemma remaining_resumed (h : run.Rested names places) {offer : Offer} {receiver : Seat}
    {received : Received} {hierarchy : Hierarchy}
    (hallows : run.Allows hierarchy (.exchange offer receiver received))
    (hsame : received.bindings = run.bindings) :
    remaining (received.successor.subst received.bindings) ≤ remaining receiver.current := by
  obtain ⟨-, hreceiver, -, hreceived⟩ := hallows
  obtain ⟨_, rest, _, _, _, _, _, _, heq⟩ := Contract.accept?_eq_some_iff.1 hreceived
  have hposted := h.seats receiver hreceiver
  have hkept : received.successor.yields = receiver.current.yields := by rw [heq]
  rw [remaining, remaining]
  rcases received.successor.subst_sides received.bindings with ⟨-, hyields⟩ | ⟨-, hyields⟩
  · rw [hyields]
    exact Nat.zero_le _
  · rw [hyields, hkept, hsame, hposted.yields_subst_eq (h.unbound receiver hreceiver).2,
      hposted.discrete.yields.length_flatten_normalize]

lemma forallSeats_unbound (h : run.Rested names places) :
    ForallSeats (fun _ _ c => Unbound run.bindings c) run :=
  h.unbound.mono fun _ _ _ hc => hc.2

/-- An exchange binds variables, or it uses up a value. -/
lemma exchanged (h : run.Rested names places) {offer : Offer} {receiver : Seat}
    {received : Received} {hierarchy : Hierarchy}
    (hallows : run.Allows hierarchy (.exchange offer receiver received)) :
    ((run.exchanged offer receiver received).wrapUp run.bindings
        [offer.seat.number, receiver.number]).Rested names places ∧
      ((run.exchanged offer receiver received).wrapUp run.bindings
        [offer.seat.number, receiver.number]).rank names places < run.rank names places := by
  have hunderway := h.toUnderway.exchanged hallows
  have hresumed := h.remaining_resumed hallows
  obtain ⟨hoffer, hreceiver, hne, hreceived⟩ := hallows
  have hseat : offer.seat ∈ run.live := (mem_offers.1 hoffer).1
  have hdiscrete := (h.seats receiver hreceiver).discrete.accept? h.obeys.bindings
    (h.token_of_mem_offers hoffer) hreceived
  obtain ⟨_, _, _, _, _, hjoin, _⟩ := Contract.accept?_eq_some_iff.1 hreceived
  have hext : run.bindings.ExtendedBy received.bindings := Bindings.extendedBy_of_join? hjoin
  constructor
  · refine hunderway.rested_wrapUp hext (fun hsame => ?_) fun seat hmem hnumber => ?_
    · have hbefore : ForallSeats (fun _ _ c => Unbound received.bindings c) run := by
        have hkept : received.bindings = run.bindings := hsame
        rw [hkept]
        exact h.forallSeats_unbound
      exact (unbound_put_successor hbefore hoffer).put fun _ _ _ =>
        unbound_subst hdiscrete.2 hdiscrete.1
    · obtain ⟨hyielder, hreceives⟩ :
          seat.number ≠ offer.seat.number ∧ seat.number ≠ receiver.number := by
        simpa using hnumber
      exact h.unfinished seat (mem_of_mem_put (mem_of_mem_put hmem hreceives) hyielder)
  · refine rank_wrapUp_lt hunderway ?_ _
    rcases Nat.lt_or_ge run.bindings.size received.bindings.size with hlt | hle
    · exact .inl hlt
    · have hsame : received.bindings = run.bindings := hext.eq_of_size_le hle
      refine .inr ⟨hsame, ?_⟩
      exact sumSeats_weigh_move_lt h.numbered hseat hreceiver hne (h.seats _ hseat).placed.1
        (h.remaining_successor hoffer) (.inl (hresumed hsame))

/-- An absorption moves a value to a later seat, where it weighs less, provided that no seat
stalls. -/
lemma absorbed (h : run.Rested names places) (hstalls : ForallSeats (fun _ _ c => ¬c.Stalls) run)
    {offer : Offer} {absorber : Seat} {hierarchy : Hierarchy}
    (haction : run.nextAction? hierarchy = some (.absorb offer absorber)) :
    ((run.absorbed offer absorber).wrapUp run.bindings [offer.seat.number]).Rested names places ∧
      ((run.absorbed offer absorber).wrapUp run.bindings [offer.seat.number]).rank names places <
        run.rank names places := by
  have hlater : offer.seat.number < absorber.number :=
    number_lt_of_absorb h.numbered (fun _ => h.exists_produce? hstalls)
      (fun _ => h.isUnbounded_eq_false) h.finite haction
  have hallows := allows_of_nextAction? haction
  have hunderway := h.toUnderway.absorbed hallows
  obtain ⟨hoffer, -, habsorber, -⟩ := hallows
  have hseat : offer.seat ∈ run.live := (mem_offers.1 hoffer).1
  have hvalue := h.token_of_mem_offers hoffer
  have hdiscrete := (h.seats absorber habsorber).discrete
  have hmember : offer.value.IsMember := h.isMember_of_mem_offers hoffer
  constructor
  · refine hunderway.rested_wrapUp (Bindings.ExtendedBy.refl _) (fun _ => ?_)
      fun seat hmem hnumber => ?_
    · have hbefore := h.forallSeats_unbound
      exact (unbound_put_successor hbefore hoffer).put fun _ _ _ => hbefore absorber habsorber
    · have hyielder : seat.number ≠ offer.seat.number := by simpa using hnumber
      by_cases hsame : seat.number = absorber.number
      · rw [current_of_mem_put hmem hsame]
        exact hdiscrete.isTerminal_appendYield hvalue hmember
      · exact h.unfinished seat (mem_of_mem_put (mem_of_mem_put hmem hsame) hyielder)
  · refine rank_wrapUp_lt hunderway ?_ _
    refine .inr ⟨rfl, sumSeats_weigh_move_lt h.numbered hseat habsorber (Nat.ne_of_gt hlater)
      (h.seats _ hseat).placed.1 (h.remaining_successor hoffer) (.inr ⟨?_, hlater⟩)⟩
    rw [remaining, remaining, hdiscrete.flatten_appendYield hvalue.discrete hmember,
      List.length_append, List.length_singleton]

/-- A value that is handed to the outside is used up. -/
lemma handedOut (h : run.Rested names places) {offer : Offer} {hierarchy : Hierarchy}
    (hallows : run.Allows hierarchy (.emit offer)) :
    ((run.handedOut offer).wrapUp run.bindings [offer.seat.number]).Rested names places ∧
      ((run.handedOut offer).wrapUp run.bindings [offer.seat.number]).rank names places <
        run.rank names places := by
  have hunderway := h.toUnderway.handedOut hallows
  obtain ⟨hoffer, -⟩ := hallows
  have hseat : offer.seat ∈ run.live := (mem_offers.1 hoffer).1
  constructor
  · refine hunderway.rested_wrapUp (Bindings.ExtendedBy.refl _) (fun _ => ?_)
      fun seat hmem hnumber => ?_
    · exact unbound_put_successor h.forallSeats_unbound hoffer
    · have hyielder : seat.number ≠ offer.seat.number := by simpa using hnumber
      exact h.unfinished seat (mem_of_mem_put hmem hyielder)
  · refine rank_wrapUp_lt hunderway ?_ _
    exact .inr ⟨rfl, sumSeats_weigh_take_lt h.numbered hseat (h.seats _ hseat).placed.1
      (h.remaining_successor hoffer)⟩

/-- The action that is chosen can be carried out as one step, without a nested run. If no seat
stalls, the run goes on with a lower rank. -/
theorem exists_moves (h : run.Rested names places)
    (hstalls : ForallSeats (fun _ _ c => ¬c.Stalls) run) {action : Action} {hierarchy : Hierarchy}
    (haction : run.nextAction? hierarchy = some action) :
    ∃ moved numbers, (∀ compose, run.Moves compose moved numbers action) ∧
      moved.steps = run.steps + 1 ∧ (moved.wrapUp run.bindings numbers).Rested names places ∧
      (moved.wrapUp run.bindings numbers).rank names places < run.rank names places := by
  have hallows := allows_of_nextAction? haction
  cases action with
  | exchange offer receiver received =>
    exact ⟨_, _, fun _ => ⟨rfl, rfl⟩, rfl, h.exchanged hallows⟩
  | spawn offer contracts => exact absurd hallows h.not_spawn
  | absorb offer absorber => exact ⟨_, _, fun _ => ⟨rfl, rfl⟩, rfl, h.absorbed hstalls haction⟩
  | emit offer => exact ⟨_, _, fun _ => ⟨rfl, rfl⟩, rfl, h.handedOut hallows⟩

/-- If no seat stalls in any state that can be reached, some number of steps is enough to come to
the end. -/
theorem exists_bound (options : Options)
    (hstalls : ∀ budget state, Reachable { options with stepBudget := budget } first state →
      ForallSeats (fun _ _ c => ¬c.Stalls) state)
    (h : run.Rested names places)
    (hrun : ∀ budget, run.steps ≤ budget →
      Reachable { options with stepBudget := budget } first run) :
    ∃ bound, ∀ budget fuel, run.steps + bound ≤ budget → bound < fuel →
      ∃ final, run.drive { options with stepBudget := budget }
        (fun value => settleWithin { options with stepBudget := budget } value.nesting) fuel =
          .ok final := by
  induction hrank : run.rank names places using WellFoundedLT.induction generalizing run with
  | ind r ih =>
    cases haction : run.nextAction? options.hierarchy with
    | none =>
      refine ⟨0, fun budget fuel _ hfuel => ?_⟩
      obtain ⟨rounds, rfl⟩ := Nat.exists_eq_succ_of_ne_zero (Nat.ne_of_gt hfuel)
      exact ⟨run, drive_succ_eq_ok_iff.2 (.inl ⟨haction, rfl⟩)⟩
    | some action =>
      have hfree := hstalls _ run (hrun _ (Nat.le_refl _))
      obtain ⟨moved, numbers, hmoves, hsteps, hnext, hless⟩ := h.exists_moves hfree haction
      have hcount : (moved.wrapUp run.bindings numbers).steps = run.steps + 1 :=
        (moved.reseats_wrapUp _ _).steps.trans hsteps
      have hreachable : ∀ budget, (moved.wrapUp run.bindings numbers).steps ≤ budget →
          Reachable { options with stepBudget := budget } first
            (moved.wrapUp run.bindings numbers) := by
        intro budget hbudget
        rw [hcount] at hbudget
        refine .step (hrun budget (Nat.le_of_succ_le hbudget)) ⟨haction, 0, ?_⟩
        exact commit_eq_ok_iff.2 ⟨moved, numbers, hmoves _, hsteps ▸ hbudget, rfl⟩
      obtain ⟨bound, hbound⟩ := ih _ (hrank ▸ hless) hnext hreachable rfl
      refine ⟨bound + 1, fun budget fuel hbudget hfuel => ?_⟩
      obtain ⟨rounds, rfl⟩ := Nat.exists_eq_succ_of_ne_zero (Nat.ne_of_gt (Nat.zero_lt_of_lt hfuel))
      have hwithin : run.steps + 1 ≤ budget := by omega
      obtain ⟨final, hfinal⟩ := hbound budget rounds (by omega) (by omega)
      refine ⟨final, drive_succ_eq_ok_iff.2 (.inr ⟨action, _, haction, ?_, hfinal⟩)⟩
      exact commit_eq_ok_iff.2 ⟨moved, numbers, hmoves _, hsteps ▸ hwithin, rfl⟩

lemma start {generators : List Generator} (hfinite : ∀ g ∈ generators, g.infinite = false)
    (hcontracts : ∀ g ∈ generators, g.contract.Discrete True)
    (hcheck : ∀ g ∈ generators, g.contract.check ∅ = .ok ()) :
    (Run.start generators ∅).Rested
      (generators.flatMap fun g => g.contract.receives.occurrences) generators.length := by
  have hbegins := begins_start generators ∅
  have hempty : ∀ x t, (∅ : Bindings).find? x = some t → t.Token True := by
    intro x t hx
    simp at hx
  refine ⟨⟨Obeys.start hempty hcontracts, hbegins.numbered, ?_, ?_⟩, ?_, ?_⟩
  · have hseats : ForallSeats (fun _ g c => c.Discrete True ∧ (c.receives.occurrences ⊆
        generators.flatMap fun g => g.contract.receives.occurrences) ∧ c.Binds fun _ => False)
        (Run.start generators ∅) := by
      refine hbegins.forallSeats fun g hg _ _ => ⟨hcontracts g hg, fun x hx => ?_, ?_⟩
      · exact List.mem_flatMap.2 ⟨g, hg, hx⟩
      · refine (Contract.check_eq_ok_iff.1 (hcheck g hg)).mono fun x hx => ?_
        simp [NameTable.contains] at hx
    intro seat hseat
    obtain ⟨hdiscrete, hnames, hbinds⟩ := hseats seat hseat
    exact ⟨placed_start hfinite seat hseat, hdiscrete, hnames, hbinds⟩
  · rw [hbegins.bindings]
    intro x hx
    simp [NameTable.contains] at hx
  · rw [hbegins.bindings]
    exact hbegins.forallSeats fun g hg _ _ => ⟨hfinite g hg, fun x _ => rfl⟩
  · exact hbegins.forallSeats fun g _ hunfinished _ => hunfinished

end Rested

end Run

/-! ### Step budgets -/

/-- Some step budget is large enough, and so is every larger one. -/
def SomeBudgetSuffices (options : Options) (generators : List Generator) (bindings : Bindings) :
    Prop :=
  ∃ bound, ∀ budget, bound ≤ budget → ∀ limit recent,
    solve { options with stepBudget := budget } generators bindings ≠
      .error (.stepLimit limit recent)

/-- If no seat stalls in any state that can be reached, some step budget is enough. -/
theorem someBudgetSuffices_of_never_stalls {options : Options} {generators : List Generator}
    (hfinite : ∀ g ∈ generators, g.infinite = false)
    (hcontracts : ∀ g ∈ generators, g.contract.Discrete True)
    (hcheck : ∀ g ∈ generators, g.contract.check ∅ = .ok ())
    (hstalls : ∀ budget run, Run.Reachable { options with stepBudget := budget }
      (Run.start generators ∅) run → Run.ForallSeats (fun _ _ c => ¬c.Stalls) run) :
    SomeBudgetSuffices options generators ∅ := by
  have hzero : (Run.start generators ∅).steps = 0 := (Run.start_records generators ∅).1
  have hrested := Run.Rested.start hfinite hcontracts hcheck
  obtain ⟨bound, hbound⟩ := hrested.exists_bound options hstalls fun _ _ => .start
  refine ⟨bound, fun budget hbudget => ?_⟩
  obtain ⟨final, hfinal⟩ := hbound budget (budget + 1) (by omega) (by omega)
  have hsettle : (Run.start generators ∅).settle { options with stepBudget := budget } =
      .ok final := by
    rw [Run.settle, Run.rounds, hzero]
    exact hfinal
  exact solve_ne_stepLimit hcheck hsettle

/-- If no lengths are yielded, on their own or inside other values, no seat ever stalls. -/
lemma never_stalls_of_no_lengths {options : Options} {generators : List Generator}
    (hcontracts : ∀ g ∈ generators, g.contract.Discrete False) {run : Run}
    (hrun : Run.Reachable options (Run.start generators ∅) run) :
    Run.ForallSeats (fun _ _ c => ¬c.Stalls) run := by
  have hstart : (Run.start generators ∅).Obeys (Contract.Discrete False) (Ty.Token False)
      (Bindings.Tokens False) := by
    refine Run.Obeys.start (fun x t hx => ?_) hcontracts
    simp at hx
  intro seat hseat hstalls
  have hyields := ((hstart.of_reachable (Contract.law_discrete False) hrun).seats seat
    hseat).2.yields.normalize
  have hlength := hstalls.2
  generalize seat.current.yields.normalize = yields at hyields hlength
  cases hyields with
  | int h | star h => exact h
  | void | const | var | seq | tuple => cases hlength

/-- Finite generators whose contracts are made of constants, variables, lengths, tuples and
sequences come to an end within some step budget, unless a generator stalls on the way: it is left
with a length on its own. This does not happen if no lengths are yielded, on their own or inside
other values. Conditions and exclusions do not matter. -/
theorem finite_run_ends_unless_it_stalls (options : Options) (generators : List Generator)
    (hfinite : ∀ g ∈ generators, g.infinite = false)
    (hsides : ∀ g ∈ generators,
      g.contract.receives.Discrete True ∧ g.contract.yields.Discrete True)
    (hcheck : ∀ g ∈ generators, g.contract.check ∅ = .ok ()) :
    (SomeBudgetSuffices options generators ∅ ∨
      ∃ budget run seat, Run.Reachable { options with stepBudget := budget }
        (Run.start generators ∅) run ∧ seat ∈ run.live ∧ seat.current.Stalls) ∧
    ((∀ g ∈ generators, g.contract.yields.Discrete False) →
      SomeBudgetSuffices options generators ∅) := by
  have hcontracts : ∀ g ∈ generators, g.contract.Discrete True :=
    fun g hg => ⟨(hsides g hg).1, (hsides g hg).2⟩
  constructor
  · by_cases hstalls : ∃ budget run seat, Run.Reachable { options with stepBudget := budget }
        (Run.start generators ∅) run ∧ seat ∈ run.live ∧ seat.current.Stalls
    · exact .inr hstalls
    · left
      apply someBudgetSuffices_of_never_stalls hfinite hcontracts hcheck
      intro budget run hrun seat hseat hseatStalls
      exact hstalls ⟨budget, run, seat, hrun, hseat, hseatStalls⟩
  · intro hlengths
    apply someBudgetSuffices_of_never_stalls hfinite hcontracts hcheck
    intro budget run hrun
    exact never_stalls_of_no_lengths (fun g hg => ⟨(hsides g hg).1, hlengths g hg⟩) hrun

/-- A variable that stands for a sequence of two values is yielded twice, so that there are more
values to be yielded after it was bound. Still some step budget is enough. -/
theorem finite_run_ends_unless_it_stalls_doubling :
    let generators : List Generator :=
      [{ name := "first"
         contract := Contract.of .void (.tuple [.seq [.const "A", .const "B"], .const "C"]) },
        { name := "second"
          contract := Contract.of (.seq [.tuple [.var "x", .var "y"], .star])
            (.seq [.var "x", .var "x", .var "y"]) }]
    (∀ g ∈ generators, g.infinite = false) ∧
      (∀ g ∈ generators, g.contract.check ∅ = .ok ()) ∧
      SomeBudgetSuffices {} generators ∅ := by
  intro generators
  have hfinite : ∀ g ∈ generators, g.infinite = false := by decide
  have hcheck : ∀ g ∈ generators, g.contract.check ∅ = .ok () := by decide +kernel
  have hyields : ∀ g ∈ generators, g.contract.yields.Discrete False := by
    refine List.forall_mem_cons.2 ⟨?_, List.forall_mem_singleton.2 ?_⟩
    · refine .tuple (List.forall_mem_cons.2 ⟨.seq ?_, List.forall_mem_singleton.2 (.const "C")⟩)
      exact List.forall_mem_cons.2 ⟨.const "A", List.forall_mem_singleton.2 (.const "B")⟩
    · exact .seq (List.forall_mem_cons.2 ⟨.var "x",
        List.forall_mem_cons.2 ⟨.var "x", List.forall_mem_singleton.2 (.var "y")⟩⟩)
  have hreceives : ∀ g ∈ generators, g.contract.receives.Discrete True := by
    refine List.forall_mem_cons.2 ⟨.void, List.forall_mem_singleton.2 (.seq ?_)⟩
    refine List.forall_mem_cons.2 ⟨.tuple ?_, List.forall_mem_singleton.2 (.star trivial)⟩
    exact List.forall_mem_cons.2 ⟨.var "x", List.forall_mem_singleton.2 (.var "y")⟩
  have hsides : ∀ g ∈ generators,
      g.contract.receives.Discrete True ∧ g.contract.yields.Discrete True :=
    fun g hg => ⟨hreceives g hg, (hyields g hg).mono fun _ => trivial⟩
  exact ⟨hfinite, hcheck,
    (finite_run_ends_unless_it_stalls {} generators hfinite hsides hcheck).2 hyields⟩

/-! ### Lengths that are passed back and forth -/

namespace Run

/-- Of two seats, one is left with a length and the other one with the same length twice. No
variable is bound. -/
def Passing (n : Int64) (g g' : Generator) (run : Run) : Prop :=
  run.bindings = ∅ ∧
    (run.live = [⟨0, g, { receives := .void, yields := .int n }⟩,
        ⟨1, g', { receives := .void, yields := .seq [.int n, .int n] }⟩] ∨
      run.live = [⟨0, g, { receives := .void, yields := .seq [.int n, .int n] }⟩,
        ⟨1, g', { receives := .void, yields := .int n }⟩])

/-- The seat with two lengths yields one of them, and the seat that stalls takes it over. -/
lemma Passing.exists_absorb {n : Int64} {g g' : Generator} (hg : g.infinite = false)
    (hg' : g'.infinite = false) {run : Run} (h : run.Passing n g g') (hierarchy : Hierarchy) :
    ∃ offer absorber, run.nextAction? hierarchy = some (.absorb offer absorber) ∧
      ((run.absorbed offer absorber).wrapUp run.bindings [offer.seat.number]).Passing n g g' := by
  obtain ⟨name, contract, infinite⟩ := g
  obtain ⟨name', contract', infinite'⟩ := g'
  obtain ⟨live, number, bindings, external, emitted, steps, restarts, trace, warnings⟩ := run
  cases hg
  cases hg'
  obtain ⟨hbindings, hlive | hlive⟩ := h
  · cases hbindings
    cases hlive
    exact ⟨⟨_, _⟩, _, rfl, rfl, .inr rfl⟩
  · cases hbindings
    cases hlive
    exact ⟨⟨_, _⟩, _, rfl, rfl, .inl rfl⟩

/-- Such a run never comes to its end. -/
lemma Passing.drive_ne_ok {n : Int64} {g g' : Generator} (hg : g.infinite = false)
    (hg' : g'.infinite = false) {run : Run} (h : run.Passing n g g') (options : Options)
    (compose : Ty → Run → Except Halt Run) (fuel : Nat) (final : Run) :
    run.drive options compose fuel ≠ .ok final := by
  intro hfinal
  have hkept : ∀ {current next : Run} {action : Action}, current.Passing n g g' →
      current.nextAction? options.hierarchy = some action →
      current.commit options compose action = .ok next → next.Passing n g g' := by
    intro current next action hcurrent haction hnext
    obtain ⟨offer, absorber, hchosen, hpassed⟩ := hcurrent.exists_absorb hg hg' options.hierarchy
    rw [haction] at hchosen
    obtain rfl := Option.some.inj hchosen
    obtain ⟨-, rfl⟩ := absorb_eq_ok hnext
    exact hpassed
  obtain ⟨hpassing, hnone⟩ := drive_induction hkept fuel h hfinal
  obtain ⟨offer, absorber, hchosen, -⟩ := hpassing.exists_absorb hg hg' options.hierarchy
  rw [hnone] at hchosen
  cases hchosen

end Run

/-- Two finite generators that yield nothing but lengths exhaust every step budget, though they pass
their check: one of them stalls, takes over what the other one yields, and hands it back. -/
theorem lengths_are_passed_back_and_forth (n : Int64) (options : Options) :
    let generators : List Generator :=
      [{ name := "a", contract := { receives := .void, yields := .int n } },
        { name := "b", contract := { receives := .void, yields := .seq [.int n, .int n] } }]
    (∀ g ∈ generators, g.infinite = false ∧ g.contract.check ∅ = .ok () ∧
      g.contract.receives.Discrete True ∧ g.contract.yields.Discrete True) ∧
    ∀ budget, ∃ recent, solve { options with stepBudget := budget } generators ∅ =
      .error (.stepLimit budget recent) := by
  intro generators
  constructor
  · refine List.forall_mem_cons.2 ⟨⟨rfl, rfl, .void, .int trivial n⟩,
      List.forall_mem_singleton.2 ⟨rfl, rfl, .void, .seq ?_⟩⟩
    exact List.forall_mem_cons.2 ⟨.int trivial n, List.forall_mem_singleton.2 (.int trivial n)⟩
  · intro budget
    have hstart : (Run.start generators ∅).Passing n ⟨"a", _, false⟩ ⟨"b", _, false⟩ :=
      ⟨rfl, .inl rfl⟩
    have hcheck : checkGenerators ∅ generators = .ok () := rfl
    cases hsettle : (Run.start generators ∅).settle { options with stepBudget := budget } with
    | ok final => exact absurd hsettle (hstart.drive_ne_ok rfl rfl _ _ _ final)
    | error halt =>
      rw [solve, hcheck, hsettle]
      cases halt with
      | outOfSteps recent => exact ⟨recent, rfl⟩
      | outOfFuel => exact ⟨[], rfl⟩

end ContractComposition
