import ContractComposition.Proofs.Labels
import ContractComposition.Proofs.Run.Steps

/-!
# Labels do not influence the outcome

Two compositions may differ in the names of their generators and in the sources of contracts,
wherever these stand. Sameness up to labels is a `Likeness` (`Likeness.unlabeled`): every operation
of a run keeps it, and names play no part in it. So the runs go alike, with the same steps and the
same choices, and `solve` ends alike (`labels_do_not_matter`).

Neither names nor sources are compared in the outcome, since both are handed through. Everything
else agrees: the kind of outcome, contracts and values up to equality, and all numbers.
-/

namespace ContractComposition

/-! ### Equality -/

/-- Values that are the same up to labels are equal. -/
lemma Ty.beq_of_unlabel_eq {t t' : Ty} (h : t.unlabel = t'.unlabel) : (t == t') = true := by
  have hbeq : t.beq t' = true := by
    rw [← Ty.redecorates_unlabel.beq_eq, h]
    exact Ty.beq_iff_bare_eq.2 rfl
  exact hbeq

/-- Contracts that are the same up to labels are equal. -/
lemma Contract.SameUnlabeled.beq {c c' : Contract} (h : c.SameUnlabeled c') :
    (c == c') = true := by
  have hvalue : (Ty.contract c).unlabel = (Ty.contract c').unlabel := congrArg Ty.contract h
  exact Ty.beq_of_unlabel_eq hvalue

lemma Ty.forall₂_items_of_unlabel_eq {t t' : Ty} (h : t.unlabel = t'.unlabel) :
    List.Forall₂ (fun u u' => (u == u') = true) t.items t'.items := by
  have hitems : t.items.map Ty.unlabel = t'.items.map Ty.unlabel := by
    rw [← Ty.redecorates_unlabel.items_eq, h, Ty.redecorates_unlabel.items_eq]
  rw [← List.forall₂_eq_eq_eq, List.forall₂_map_left_iff, List.forall₂_map_right_iff] at hitems
  exact hitems.imp fun _ _ => Ty.beq_of_unlabel_eq

/-! ### Runs -/

/-- The generators have the same contract up to labels, whatever their names are. -/
structure Generator.SameUnlabeled (g g' : Generator) : Prop where
  contract : g.contract.SameUnlabeled g'.contract
  infinite : g.infinite = g'.infinite

/-- Runs in which everything is the same up to labels, and which keep the variables `keep` when
generators start over. -/
def Likeness.unlabeled (keep : List String) : Likeness where
  contract := Contract.SameUnlabeled
  value v v' := v.unlabel = v'.unlabel
  bindings := Bindings.SameUnlabeled
  name _ _ := True
  keep := keep
  keep' := keep
  size_lt_iff hb hd := by rw [hb.size_eq, hd.size_eq]
  subst hb hc := hc.subst hb
  freshen hc k := hc.freshen k keep
  isTerminal_eq hc := hc.isTerminal_eq
  isVoid_eq hc := hc.isVoid_eq
  isOpenStream_eq hb hc :=
    Ty.congr_of_unlabel_eq Ty.redecorates_unlabel.isOpenStream_eq (hb.unlabel_subst hc.parts.2.1)
  produce hb hc := hc.produce hb
  accept hb hc hv hierarchy := hc.accept hb hv hierarchy
  append hc hv := hc.append hv
  contracts hv := Contract.SameUnlabeled.contracts hv
  started hv _ := ⟨Ty.congr_of_unlabel_eq Ty.redecorates_unlabel.isTuple_eq hv,
    Ty.congr_of_unlabel_eq Ty.redecorates_unlabel.nesting_eq hv, fun _ _ => trivial⟩
  single hv := .of_sides hv rfl
  output {vs vs'} hvs := by
    refine .of_sides rfl ?_
    have hmap : vs.map Ty.unlabel = vs'.map Ty.unlabel := by
      rw [← List.forall₂_eq_eq_eq, List.forall₂_map_left_iff, List.forall₂_map_right_iff]
      exact hvs
    rw [← Ty.redecorates_unlabel.sequence_eq, hmap, Ty.redecorates_unlabel.sequence_eq]
  andThen hc hd := hc.andThen hd

/-- Runs that begin with the same up to labels begin alike. -/
lemma start_unlabeled {generators generators' : List Generator} {bindings bindings' : Bindings}
    (hgenerators : List.Forall₂ Generator.SameUnlabeled generators generators')
    (hbindings : bindings.SameUnlabeled bindings') :
    (Likeness.unlabeled bindings.names).RunAlike (Run.start generators bindings)
      (Run.start generators' bindings') := by
  refine Likeness.joinAll ?_ (hgenerators.imp fun g g' hg => ⟨trivial, hg.contract, hg.infinite⟩)
  exact ⟨.nil, rfl, hbindings, ⟨rfl, hbindings.names_eq.symm⟩, .nil, rfl, rfl, .nil, rfl⟩

/-! ### Outcomes -/

/-- The events agree in all but the names of generators. -/
structure Event.Agrees (e e' : Event) : Prop where
  step : e.step = e'.step
  kind : e.kind = e'.kind
  contract : (e.contract == e'.contract) = true

/-- The solutions agree in all but labels. -/
structure Solution.Agrees (s s' : Solution) : Prop where
  contract : (s.contract == s'.contract) = true
  steps : s.steps = s'.steps
  bindings : ∀ x,
    Option.Rel (fun t t' => (t == t') = true) (s.bindings.find? x) (s'.bindings.find? x)
  warnings : s.warnings.length = s'.warnings.length
  trace : List.Forall₂ Event.Agrees s.trace s'.trace

/-- Two compositions end alike: both succeed with solutions that agree, or both fail in the same
way. -/
inductive EndsAlike : Except SolveError Solution → Except SolveError Solution → Prop
  | solved {s s' : Solution} (h : s.Agrees s') : EndsAlike (.ok s) (.ok s')
  | deadlock {unmatched unmatched' : List Ty} {blocked blocked' : List String}
      (hunmatched : List.Forall₂ (fun t t' => (t == t') = true) unmatched unmatched')
      (hblocked : blocked.length = blocked'.length) :
      EndsAlike (.error (.deadlock unmatched blocked)) (.error (.deadlock unmatched' blocked'))
  | stepLimit (budget : Nat) (recent recent' : List String) :
      EndsAlike (.error (.stepLimit budget recent)) (.error (.stepLimit budget recent'))
  | malformed (generator generator' : String) (cause : Malformed) :
      EndsAlike (.error (.malformed generator cause)) (.error (.malformed generator' cause))

/-- Runs that have come to their end alike have outcomes that are alike. -/
lemma result_unlabeled {keep : List String} {run run' : Run}
    (h : (Likeness.unlabeled keep).RunAlike run run') : EndsAlike run.result run'.result := by
  have hending := Likeness.ending h
  unfold Run.result
  generalize run.ending = ending at hending ⊢
  generalize run'.ending = ending' at hending ⊢
  cases hending with
  | composed hc =>
    refine .solved ⟨hc.beq, h.steps, fun x => ?_, h.warnings, ?_⟩
    · exact rel_option_imp (h.bindings.rel_find? x) fun _ _ => Ty.beq_of_unlabel_eq
    · exact h.trace.imp fun e e' he => ⟨he.step, he.kind, he.contract.beq⟩
  | deadlocked hunmatched hblocked =>
    obtain ⟨c, c', hc, rfl, rfl⟩ := hunmatched
    exact .deadlock (Ty.forall₂_items_of_unlabel_eq hc.parts.2.1) hblocked.length_eq

/-- The contracts of generators are checked alike. -/
lemma check_unlabeled {bindings bindings' : Bindings} (hbindings : bindings.SameUnlabeled bindings')
    {c c' : Contract} (hc : c.SameUnlabeled c') : c.check bindings = c'.check bindings' := by
  have hvars : ∀ {t t' : Ty}, t.unlabel = t'.unlabel → t.freeVars = t'.freeVars := fun ht =>
    congrArg Names.ofList (Ty.congr_of_unlabel_eq Ty.redecorates_unlabel.occurrences_eq ht)
  have hcontains : bindings.contains = bindings'.contains := by
    funext x
    have hnames : x ∈ bindings.names ↔ x ∈ bindings'.names := by rw [hbindings.names_eq]
    rw [NameTable.mem_names_iff, NameTable.mem_names_iff] at hnames
    exact Bool.eq_iff_iff.2 hnames
  rw [Contract.check, Contract.check, Contract.unbound, Contract.unbound, hvars hc.parts.1,
    hvars hc.parts.2.1, hcontains]

lemma checkGenerators_unlabeled {generators generators' : List Generator}
    {bindings bindings' : Bindings}
    (hgenerators : List.Forall₂ Generator.SameUnlabeled generators generators')
    (hbindings : bindings.SameUnlabeled bindings') :
    checkGenerators bindings generators = .ok () ∧ checkGenerators bindings' generators' = .ok () ∨
      ∃ name name' cause, checkGenerators bindings generators = .error (.malformed name cause) ∧
        checkGenerators bindings' generators' = .error (.malformed name' cause) := by
  induction hgenerators with
  | nil => exact .inl ⟨rfl, rfl⟩
  | cons hg _ ih =>
    rw [checkGenerators, checkGenerators, check_unlabeled hbindings hg.contract]
    split
    · exact .inr ⟨_, _, _, rfl, rfl⟩
    · exact ih

/-- Generators and bindings that differ in nothing but names and sources are composed alike. -/
theorem labels_do_not_matter (options : Options) {generators generators' : List Generator}
    {bindings bindings' : Bindings}
    (hgenerators : List.Forall₂ Generator.SameUnlabeled generators generators')
    (hbindings : bindings.SameUnlabeled bindings') :
    EndsAlike (solve options generators bindings) (solve options generators' bindings') := by
  unfold solve
  rcases checkGenerators_unlabeled hgenerators hbindings with
    ⟨hok, hok'⟩ | ⟨name, name', cause, herror, herror'⟩
  · rw [hok, hok']
    have hsettle := Likeness.settle (start_unlabeled hgenerators hbindings) options
    dsimp only
    cases hrun : (Run.start generators bindings).settle options with
    | error halt =>
      cases hrun' : (Run.start generators' bindings').settle options with
      | ok run' => rw [hrun, hrun'] at hsettle; exact hsettle.elim
      | error halt' =>
        cases halt <;> cases halt' <;> exact .stepLimit _ _ _
    | ok run =>
      cases hrun' : (Run.start generators' bindings').settle options with
      | error halt' => rw [hrun, hrun'] at hsettle; exact hsettle.elim
      | ok run' =>
        rw [hrun, hrun'] at hsettle
        exact result_unlabeled hsettle
  · rw [herror, herror']
    exact .malformed name name' cause

/-- The contracts of a bound tuple are composed in a nested run, and a sink takes what they yield.
With other sources and no names the run reads differently, but it is the same. -/
theorem labels_do_not_matter_nested :
    let give : Contract := Contract.of .void (.const "A")
    let take : Contract := Contract.of (.const "A") (.tuple [.const "B"])
    let sink : Contract := Contract.of (.tuple [.var "x"]) (.var "x")
    let generators : List Generator :=
      [⟨"start", Contract.of .void (.var "ops"), false⟩,
        ⟨"sink", sink.withForbidden [⟨[.var "x"], [[.contract (give.withSource "give")]]⟩], false⟩]
    let generators' : List Generator :=
      [⟨"", Contract.of .void (.var "ops"), false⟩,
        ⟨"", sink.withForbidden [⟨[.var "x"], [[.contract give]]⟩], false⟩]
    let given : Bindings := Bindings.bind ∅ "ops"
      (.tuple [.contract (give.withSource "give"), .contract (take.withSource "take")])
    let given' : Bindings := Bindings.bind ∅ "ops"
      (.tuple [.contract (give.withSource "both"), .contract (take.withSource "both")])
    ∃ s s', solve {} generators given = .ok s ∧ solve {} generators' given' = .ok s' ∧
      s.Agrees s' ∧
      s.trace.filterMap Event.generator =
        ["give", "take", "take", "start", "(give, take)", "(give, take)", "sink", "sink"] ∧
      s'.trace.filterMap Event.generator =
        ["both", "both", "both", "", "(both, both)", "(both, both)", "", ""] := by
  intro give take sink generators generators' given given'
  have hgenerators : List.Forall₂ Generator.SameUnlabeled generators generators' :=
    .cons ⟨rfl, rfl⟩ (.cons ⟨rfl, rfl⟩ .nil)
  have hgiven : given.SameUnlabeled given' := NameTable.ext rfl
  have halike := labels_do_not_matter {} hgenerators hgiven
  have hcomputed : (solve {} generators given).toOption.map
      (fun s => s.trace.filterMap Event.generator) =
        some ["give", "take", "take", "start", "(give, take)", "(give, take)", "sink", "sink"] := by
    decide +kernel
  have hcomputed' : (solve {} generators' given').toOption.map
      (fun s => s.trace.filterMap Event.generator) =
        some ["both", "both", "both", "", "(both, both)", "(both, both)", "", ""] := by
    decide +kernel
  obtain ⟨s, hs, hnames⟩ := exists_of_toOption_eq_some hcomputed
  obtain ⟨s', hs', hnames'⟩ := exists_of_toOption_eq_some hcomputed'
  rw [hs, hs'] at halike
  cases halike with
  | solved hagrees => exact ⟨s, s', hs, hs', hagrees, hnames, hnames'⟩

end ContractComposition
