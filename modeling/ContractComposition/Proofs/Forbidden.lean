import ContractComposition.Proofs.Exclusions
import ContractComposition.Proofs.Growth

/-!
# Forbidden bindings do not arise

A contract may forbid bindings by a table of exclusions. While it takes part in a run, its seat
keeps a table into which the bindings are substituted again and again, and from which settled
exclusions are dropped. Nevertheless it is the table of the original contract that is observed: as
long as a finite generator has not yielded, the bindings of the run do not violate it
(`forbidden_bindings_never_violated`).

The invariant has two parts. The table on the seat *guards* the original one: all extensions of the
present bindings violate both or none of them. And the present bindings violate none. When the
bindings grow, the first part is kept by every operation on the seat; the second part is restored by
propagating the new bindings to all seats, because a contract with a violated table collapses and
its seat is retired. When they do not grow, they are the same as before.
-/

namespace ContractComposition

/-! ### Flat values -/

/-- No sequence and no contract occurs in the value. -/
inductive Ty.Flat : Ty → Prop
  | void : Flat .void
  | const (name : String) : Flat (.const name)
  | var (name : String) : Flat (.var name)
  | int (n : Int64) : Flat (.int n)
  | star : Flat .star
  | tuple {items : List Ty} (hitems : ∀ t ∈ items, Flat t) : Flat (.tuple items)
  | list {element length : Ty} (helement : Flat element) (hlength : Flat length) :
    Flat (.list element length)
  | func {fn : LengthFn} {args : List Ty} (hargs : ∀ t ∈ args, Flat t) : Flat (.func fn args)

lemma Ty.Flat.isSteady {t : Ty} (h : t.Flat) : t.IsSteady := by
  induction h with
  | void | const | var | int | star => trivial
  | tuple _ ih => exact Ty.isSteady_tuple.2 ih
  | list _ _ ihe ihl => exact ⟨ihe, ihl⟩
  | func _ ih => exact Ty.isSteady_func.2 ih

/-- No sequence and no contract occurs in the tuples of the exclusion. -/
structure Exclusion.Flat (e : Exclusion) : Prop where
  key : ∀ t ∈ e.key, t.Flat
  values : ∀ row ∈ e.values, ∀ t ∈ row, t.Flat

lemma Exclusion.Flat.isSteady {e : Exclusion} (h : e.Flat) : e.IsSteady :=
  ⟨fun t ht => (h.key t ht).isSteady, fun row hrow t ht => (h.values row hrow t ht).isSteady⟩

/-! ### Tables that stand for other tables -/

/-- The table is violated by the same extensions of the bindings as the original one. -/
structure Exclusions.Guards (original : List Exclusion) (b : Bindings) (table : List Exclusion) :
    Prop where
  isSteady : IsSteady table
  violatedBy_eq : ∀ θ, b.ExtendedBy θ → violatedBy table θ = violatedBy original θ

namespace Exclusions.Guards

variable {original table : List Exclusion} {b b' : Bindings}

lemma mono (h : Guards original b table) (hbb' : b.ExtendedBy b') : Guards original b' table :=
  ⟨h.isSteady, fun θ hθ => h.violatedBy_eq θ (hbb'.trans hθ)⟩

/-- Substituting bindings into a contract that guards a table: if the bindings violate the table,
the contract collapses, and otherwise it goes on guarding the table. -/
lemma subst {c : Contract} (hb : b.IsPlain) (h : Guards original b c.forbidden) :
    violatedBy original b = true ∧ (c.subst b).isTerminal = true ∨
      violatedBy original b = false ∧ Guards original b (c.subst b).forbidden := by
  rw [← h.violatedBy_eq b (Bindings.ExtendedBy.refl b)]
  rcases Contract.subst_cases hb h.isSteady with ⟨hviolated, hcollapsed⟩ |
    ⟨hviolated, -, -, htable, hsame⟩
  · refine .inl ⟨hviolated, ?_⟩
    rw [hcollapsed]
    rfl
  · exact .inr ⟨hviolated, htable, fun θ hθ => (hsame θ hθ).trans (h.violatedBy_eq θ hθ)⟩

end Exclusions.Guards

namespace Run

/-! ### The seat of a generator -/

/-- A seat with the given number belongs to the given generator, and its contract guards the table
of the generator's contract. The proposition `P` is a side condition that is carried along. -/
def Watched (number : Nat) (generator : Generator) (b : Bindings) (P : Prop) (n : Nat)
    (g : Generator) (c : Contract) : Prop :=
  n = number → g = generator ∧
    Exclusions.Guards generator.contract.forbidden b c.forbidden ∧ P

section Watched

variable {number : Nat} {generator : Generator} {P : Prop} {run : Run}

/-- A finite generator does not start over, so what is said of its contract is not affected. -/
lemma survivesRestarts_watched (hfinite : generator.infinite = false) (Q : Contract → Prop)
    (external : List String) :
    SurvivesRestarts (fun n g c => n = number → g = generator ∧ Q c) external := by
  intro n g g' c c' k _ hgc' hinfinite hn
  obtain ⟨rfl, -⟩ := hgc' hn
  rw [hfinite] at hinfinite
  cases hinfinite

/-- Whatever is put on another seat does not matter. -/
lemma put_watched {b : Bindings} (h : ForallSeats (Watched number generator b P) run) {other : Nat}
    (hother : other ≠ number) (contract : Contract) :
    ForallSeats (Watched number generator b P) (run.put other contract) :=
  h.put fun _ _ _ hn => absurd hn hother

lemma watched_exchanged (hrun : run.Unconstrained)
    (h : ForallSeats (Watched number generator run.bindings P) run) {offer : Offer}
    {receiver : Seat} {received : Received} {hierarchy : Hierarchy}
    (hallows : run.Allows hierarchy (.exchange offer receiver received))
    (hoffer : offer.seat.number ≠ number) :
    ForallSeats (Watched number generator received.bindings P)
      (run.exchanged offer receiver received) := by
  have hplain : received.bindings.IsPlain :=
    (hrun.exchanged Contract.law_unconstrained hallows).bindings
  obtain ⟨-, hreceiver, -, hreceived⟩ := hallows
  obtain ⟨head, rest, found, -, -, hjoin, hviolated, -, hsuccessor⟩ :=
    Contract.accept?_eq_some_iff.1 hreceived
  have hext : run.bindings.ExtendedBy received.bindings := Bindings.extendedBy_of_join? hjoin
  have hlater : ForallSeats (Watched number generator received.bindings P) run :=
    h.mono fun n g c hw hn => ⟨(hw hn).1, (hw hn).2.1.mono hext, (hw hn).2.2⟩
  have hyielder := put_watched hlater hoffer offer.yielded.successor
  refine hyielder.put fun g c hw hn => ⟨(hw hn).1, ?_, (hw hn).2.2⟩
  -- The receiver's own check has made sure that the new bindings do not violate its table.
  have hguards : Exclusions.Guards generator.contract.forbidden received.bindings
      received.successor.forbidden := by
    rw [hsuccessor]
    exact (hlater receiver hreceiver hn).2.1
  rcases hguards.subst hplain with ⟨hviolates, -⟩ | ⟨-, hsubst⟩
  · rw [← (hlater receiver hreceiver hn).2.1.violatedBy_eq _ (Bindings.ExtendedBy.refl _),
      hviolated] at hviolates
    cases hviolates
  · exact hsubst

lemma watched_absorbed (h : ForallSeats (Watched number generator run.bindings P) run)
    {offer : Offer} {absorber : Seat} {hierarchy : Hierarchy}
    (hallows : run.Allows hierarchy (.absorb offer absorber))
    (hoffer : offer.seat.number ≠ number) :
    ForallSeats (Watched number generator run.bindings P) (run.absorbed offer absorber) := by
  obtain ⟨-, -, habsorber, -⟩ := hallows
  have hyielder := put_watched h hoffer offer.yielded.successor
  exact hyielder.put fun g c hw hn => ⟨(hw hn).1, (h absorber habsorber hn).2.1, (hw hn).2.2⟩

lemma watched_seated {b : Bindings} (h : ForallSeats (Watched number generator b P) run)
    (hnumber : number < run.nextNumber) {offer : Offer} (hoffer : offer.seat.number ≠ number)
    (started : List Generator) :
    ForallSeats (Watched number generator b P) (run.seated offer started) := by
  have hyielder : ForallSeats (Watched number generator b P) (run
      |>.put offer.seat.number offer.yielded.successor |>.recordSeat .yield offer.seat) :=
    put_watched h hoffer offer.yielded.successor
  exact hyielder.seatStarted fun g _ n hn heq =>
    absurd (Nat.lt_of_lt_of_le hnumber hn) (heq ▸ Nat.lt_irrefl _)

/-- At the end of a step the bindings do not violate the table of a generator that is still
there. -/
lemma watched_wrapUp (hfinite : generator.infinite = false) {before : Bindings}
    (hplain : run.bindings.IsPlain) (hnumbered : Numbered run)
    (hext : before.ExtendedBy run.bindings)
    (h : ForallSeats (Watched number generator run.bindings
      (Exclusions.violatedBy generator.contract.forbidden before = false)) run)
    (numbers : List Nat) :
    ForallSeats (Watched number generator run.bindings
      (Exclusions.violatedBy generator.contract.forbidden run.bindings = false))
      (run.wrapUp before numbers) := by
  have hretired := h.retireAll (survivesRestarts_watched hfinite _ _) numbers
  have hbindings := (run.reseats_retireAll numbers).bindings
  rcases Nat.lt_or_ge before.size run.bindings.size with hlt | hle
  · rw [wrapUp_of_lt hlt]
    have hpropagated : ForallSeats (fun n g c => n = number → g = generator ∧
        (c.isTerminal = true ∨
          Exclusions.violatedBy generator.contract.forbidden run.bindings = false ∧
            Exclusions.Guards generator.contract.forbidden run.bindings c.forbidden))
        (run.retireAll numbers).propagate := by
      refine hretired.propagate (fun n g c hw hn => ⟨(hw hn).1, ?_⟩)
        (survivesRestarts_watched hfinite _ _)
      rw [hbindings]
      exact ((hw hn).2.1.subst hplain).imp And.right id
    intro seat hseat hn
    obtain ⟨hgenerator, hcases⟩ := hpropagated seat hseat hn
    have hnotTerminal := isTerminal_eq_false_of_mem_propagate (hnumbered.retireAll numbers) hseat
      (resumable_of_finite (hgenerator ▸ hfinite))
    rw [hnotTerminal] at hcases
    obtain ⟨hviolated, hguards⟩ := hcases.resolve_left Bool.false_ne_true
    exact ⟨hgenerator, hguards, hviolated⟩
  · rw [wrapUp_of_le hle, hext.eq_of_size_le hle]
    rw [hext.eq_of_size_le hle] at hretired
    exact hretired

end Watched

/-! ### Runs -/

/-- The generator is watched on the seat with the number, and the bindings do not violate its
table. -/
structure Guarded (number : Nat) (generator : Generator) (run : Run) : Prop where
  unconstrained : run.Unconstrained
  numbered : Numbered run
  number_lt : number < run.nextNumber
  seats : ForallSeats (Watched number generator run.bindings
    (Exclusions.violatedBy generator.contract.forbidden run.bindings = false)) run

namespace Guarded

variable {number : Nat} {generator : Generator} {run next : Run}

/-- A step in which another seat yields keeps a generator guarded. -/
theorem of_steps (hfinite : generator.infinite = false) (h : run.Guarded number generator)
    {options : Options} {action : Action} (hstep : run.Steps options action next)
    (hother : action.offer.seat.number ≠ number) : next.Guarded number generator := by
  have hnext : next.Unconstrained := h.unconstrained.of_steps Contract.law_unconstrained hstep
  have hext : run.bindings.ExtendedBy next.bindings := hstep.extendedBy
  obtain ⟨haction, depth, hcommit⟩ := hstep
  have hallows := allows_of_nextAction? haction
  obtain ⟨hnumbered, hgrown⟩ := h.numbered.of_commit hcommit
  refine ⟨hnext, hnumbered, Nat.lt_of_lt_of_le h.number_lt hgrown, ?_⟩
  have hplain := hnext.bindings
  cases action with
  | exchange offer receiver received =>
    obtain ⟨-, rfl⟩ := exchange_eq_ok hcommit
    rw [(reseats_wrapUp _ _ _).bindings] at hplain hext ⊢
    exact watched_wrapUp hfinite hplain (h.numbered.exchanged _ _ _) hext
      (watched_exchanged h.unconstrained h.seats hallows hother) _
  | spawn offer contracts =>
    rw [commit] at hcommit
    obtain ⟨prepared, started, numbers, hprepare, rfl⟩ := spawn_eq_ok hcommit
    obtain ⟨⟨hlive, -, -, hnextNumber⟩, -⟩ := prepare_eq_ok hprepare
    rw [(reseats_wrapUp _ _ _).bindings] at hplain hext ⊢
    rw [seated_bindings] at hext
    have hprepared : ForallSeats (Watched number generator prepared.bindings
        (Exclusions.violatedBy generator.contract.forbidden run.bindings = false)) prepared := by
      intro seat hseat hn
      obtain ⟨hgenerator, hguards, hviolated⟩ := h.seats seat (hlive ▸ hseat) hn
      exact ⟨hgenerator, hguards.mono hext, hviolated⟩
    have hseated := watched_seated hprepared (hnextNumber ▸ h.number_lt) hother started
    rw [← seated_bindings prepared offer started] at hext hseated
    exact watched_wrapUp hfinite hplain ((h.numbered.prepare hprepare).seated offer started).1 hext
      hseated _
  | absorb offer absorber =>
    obtain ⟨-, rfl⟩ := absorb_eq_ok hcommit
    rw [(reseats_wrapUp _ _ _).bindings] at hplain hext ⊢
    exact watched_wrapUp hfinite hplain (h.numbered.absorbed _ _) hext
      (watched_absorbed h.seats hallows hother) _
  | emit offer =>
    obtain ⟨-, rfl⟩ := emit_eq_ok hcommit
    rw [(reseats_wrapUp _ _ _).bindings] at hplain hext ⊢
    exact watched_wrapUp hfinite hplain (h.numbered.handedOut _) hext
      (put_watched h.seats hother offer.yielded.successor) _

/-- A generator stays guarded on a path on which it does not yield. -/
theorem of_path (hfinite : generator.infinite = false) {first : Run}
    (h : first.Guarded number generator) {options : Options} {actions : List Action}
    (hpath : Path options first actions run)
    (hsilent : ∀ action ∈ actions, action.offer.seat.number ≠ number) :
    run.Guarded number generator := by
  induction hpath with
  | start => exact h
  | step _ hstep ih =>
    obtain ⟨hbefore, hlast⟩ := List.forall_mem_append.1 hsilent
    exact (ih hbefore).of_steps hfinite hstep (hlast _ List.mem_cons_self)

/-- At the beginning of a run every generator is guarded whose table is flat and not violated by the
given bindings. -/
lemma of_begins {first : Run} {generators : List Generator} {bindings : Bindings}
    (h : first.Begins generators bindings) (hplain : bindings.IsPlain)
    (hsides : ∀ g ∈ generators, g.contract.SidesWithin .unconstrained .unconstrained)
    (hflat : ∀ g ∈ generators, ∀ e ∈ g.contract.forbidden, e.Flat)
    (hviolated : ∀ g ∈ generators, Exclusions.violatedBy g.contract.forbidden bindings = false)
    {seat : Seat} (hseat : seat ∈ first.live) : first.Guarded seat.number seat.generator := by
  have hown : ForallSeats (fun _ g c => g ∈ generators ∧ c = g.contract) first :=
    h.forallSeats fun g hg _ _ => ⟨hg, rfl⟩
  refine ⟨Obeys.of_begins h hplain hsides, h.numbered, h.numbered.bound seat hseat, ?_⟩
  intro other hother hn
  obtain rfl := h.numbered.eq_of_number_eq hother hseat hn
  obtain ⟨hg, hcontract⟩ := hown other hother
  rw [h.bindings, hcontract]
  exact ⟨rfl, ⟨fun e he => (hflat _ hg e he).isSteady, fun _ _ => rfl⟩, hviolated _ hg⟩

end Guarded

end Run

/-- Forbidden bindings do not arise. Let a run begin with ground bindings that violate the table of
no generator, where the tuples of the tables contain no sequences and no contracts, and contracts
inside values carry no constraints. In every state of the run, the seat of a finite generator that
has not yielded since the beginning still belongs to this generator, and the bindings do not violate
the table that the generator started with. -/
theorem forbidden_bindings_never_violated (options : Options) (generators : List Generator)
    (bindings : Bindings) (hground : ∀ x t, bindings.find? x = some t → t.isGround = true)
    (hbindings : bindings.Within .unconstrained)
    (hsides : ∀ g ∈ generators, g.contract.SidesWithin .unconstrained .unconstrained)
    (hflat : ∀ g ∈ generators, ∀ e ∈ g.contract.forbidden, e.Flat)
    (hviolated : ∀ g ∈ generators, Exclusions.violatedBy g.contract.forbidden bindings = false)
    (first : Run) (hfirst : first.Begins generators bindings) (actions : List Action) (run : Run)
    (hpath : Run.Path options first actions run) (seat : Seat) (hseat : seat ∈ first.live)
    (hfinite : seat.generator.infinite = false)
    (hsilent : ∀ action ∈ actions, action.offer.seat.number ≠ seat.number) :
    ∀ later ∈ run.live, later.number = seat.number →
      later.generator = seat.generator ∧
        Exclusions.violatedBy seat.generator.contract.forbidden run.bindings = false := by
  have hplain : bindings.IsPlain := Bindings.isPlain_of_isGround hground hbindings
  have hbegin : first.Guarded seat.number seat.generator :=
    Run.Guarded.of_begins hfirst hplain hsides hflat hviolated hseat
  have hrun : run.Guarded seat.number seat.generator := hbegin.of_path hfinite hpath hsilent
  intro later hlater hnumber
  obtain ⟨hgenerator, -, hnot⟩ := hrun.seats later hlater hnumber
  exact ⟨hgenerator, hnot⟩

/-- A source hands a constant to a sink, which binds a variable. A watcher has forbidden another
value of this variable, and a pair of values of which only the first one is known by now. After the
step, its seat has dropped the first exclusion, and the bindings still violate none of the two. -/
theorem forbidden_bindings_never_violated_watcher :
    let source : Generator :=
      { name := "source", contract := Contract.of .void (.seq [.const "A", .const "B"]) }
    let sink : Generator := { name := "sink", contract := Contract.of (.var "x") (.var "x") }
    let watcher : Generator :=
      { name := "watcher"
        contract := (Contract.of (.tuple [.var "x", .var "y"]) (.var "y")).withForbidden
          [⟨[.var "x"], [[.const "B"]]⟩, ⟨[.var "x", .var "y"], [[.const "A", .const "A"]]⟩] }
    ∃ action run, (Run.start [source, sink, watcher] ∅).Steps {} action run ∧
      run.bindings.names = ["x"] ∧
      ∃ later ∈ run.live, later.generator = watcher ∧ later.current.forbidden.length = 1 ∧
        Exclusions.violatedBy watcher.contract.forbidden run.bindings = false := by
  intro source sink watcher
  have hground : ∀ x t, (∅ : Bindings).find? x = some t → t.isGround = true := by
    rw [NameTable.forall_find?_iff]
    exact List.forall_mem_nil _
  have hsides : ∀ g ∈ [source, sink, watcher],
      g.contract.SidesWithin .unconstrained .unconstrained := by
    refine List.forall_mem_cons.2 ⟨?_, List.forall_mem_cons.2 ⟨?_, List.forall_mem_singleton.2 ?_⟩⟩
    · exact Contract.SidesWithin.of trivial (by simp [Parts.unconstrained])
    · exact ⟨trivial, trivial⟩
    · have hside : (Ty.tuple [.var "x", .var "y"]).Within .unconstrained := by
        simp [Parts.unconstrained]
      exact ⟨hside.normalize, trivial⟩
  have hflat : ∀ g ∈ [source, sink, watcher], ∀ e ∈ g.contract.forbidden, e.Flat := by
    refine List.forall_mem_cons.2 ⟨List.forall_mem_nil _, List.forall_mem_cons.2
      ⟨List.forall_mem_nil _, List.forall_mem_singleton.2 (List.forall_mem_cons.2
        ⟨⟨?_, ?_⟩, List.forall_mem_singleton.2 ⟨?_, ?_⟩⟩)⟩⟩
    · simp [Ty.Flat.var]
    · simp [Ty.Flat.const]
    · simp [Ty.Flat.var]
    · simp [Ty.Flat.const]
  have hviolated : ∀ g ∈ [source, sink, watcher],
      Exclusions.violatedBy g.contract.forbidden ∅ = false := by
    decide +kernel
  have hfirst : (Run.start [source, sink, watcher] ∅).live[2]? =
      some ⟨2, watcher, watcher.contract⟩ := rfl
  have hyielder : ((Run.start [source, sink, watcher] ∅).nextAction? ({} : Options).hierarchy).map
      (fun action => action.offer.seat.number) = some 0 := by decide +kernel
  have hcomputed : (((Run.start [source, sink, watcher] ∅).step {} fun _ =>
      Run.settleWithin {} 1).map fun next => next.map fun run =>
        (run.bindings.names, run.live.map fun s => (s.number, s.current.forbidden.length))) =
        .ok (some (["x"], [(0, 0), (1, 0), (2, 1)])) := by
    decide +kernel
  obtain ⟨result, hresult, hnext⟩ := exists_of_map_eq_ok hcomputed
  obtain ⟨run, rfl, hrun⟩ := Option.map_eq_some_iff.1 hnext
  obtain ⟨action, hstep⟩ := Run.exists_steps_of_step hresult
  obtain ⟨hnames, hlive⟩ := Prod.mk.inj hrun
  have hlast : (2, 1) ∈ run.live.map fun s => (s.number, s.current.forbidden.length) := by
    rw [hlive]
    decide
  obtain ⟨later, hlater, hseat⟩ := List.mem_map.1 hlast
  obtain ⟨hnumber, hlength⟩ := Prod.mk.inj hseat
  have hsilent : ∀ a ∈ [action], a.offer.seat.number ≠ 2 := by
    refine List.forall_mem_singleton.2 ?_
    rw [hstep.1, Option.map_some, Option.some.injEq] at hyielder
    rw [hyielder]
    decide
  obtain ⟨hgenerator, hnot⟩ := forbidden_bindings_never_violated {} [source, sink, watcher] ∅
    hground Bindings.within_empty hsides hflat hviolated _ (Run.begins_start _ _) [action] run
    (Run.Path.start.step hstep) ⟨2, watcher, watcher.contract⟩ (List.mem_of_getElem? hfirst) rfl
    hsilent later hlater hnumber
  exact ⟨action, run, hstep, hnames, later, hlater, hgenerator, hlength, hnot⟩

end ContractComposition
