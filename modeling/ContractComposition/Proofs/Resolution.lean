import ContractComposition.Proofs.Acyclicity

/-!
# Substitution resolves fully

Under bindings without circles substitution leaves no bound variable, and doing it a second time
changes nothing (`substitution_resolves_fully`). The second part is not a matter of variables alone.
A contract may carry exclusions, and substituting into them merges keys, drops what is settled and
may make the contract collapse; so it has to be excluded that a contract that has survived one
substitution collapses in the next.

A value is *resolved* if no variable in it is bound and none of its contracts has a table that the
bindings violate (`Ty.Resolved`). Such a value does not change up to annotations, and substitution
makes resolved values. For a table of exclusions this needs the result for the values in it: they
have been substituted already and stay what they are, so that a merged exclusion is violated only if
one of those was that it was made of.
-/

namespace ContractComposition

namespace Ty

/-! ### Tables of exclusions in a value -/

/-- Every contract in the value has a table of exclusions with the property. The contracts inside
these tables do not count. -/
inductive EveryTable (p : List Exclusion → Prop) : Ty → Prop
  | void : EveryTable p .void
  | const (name : String) : EveryTable p (.const name)
  | var (name : String) : EveryTable p (.var name)
  | int (n : Int64) : EveryTable p (.int n)
  | star : EveryTable p .star
  | seq {items : List Ty} (h : ∀ t ∈ items, EveryTable p t) : EveryTable p (.seq items)
  | tuple {items : List Ty} (h : ∀ t ∈ items, EveryTable p t) : EveryTable p (.tuple items)
  | list {element length : Ty} (he : EveryTable p element) (hl : EveryTable p length) :
    EveryTable p (.list element length)
  | func {fn : LengthFn} {args : List Ty} (h : ∀ t ∈ args, EveryTable p t) :
    EveryTable p (.func fn args)
  | contract {body : Contract} (hc : p body.forbidden) (hr : EveryTable p body.receives)
    (hy : EveryTable p body.yields) : EveryTable p (.contract body)

variable {p : List Exclusion → Prop}

lemma hereditary_everyTable : Hereditary (EveryTable p) fun body => p body.forbidden where
  void := .void
  int := .int
  star := .star
  seq := ⟨fun | .seq h => h, .seq⟩
  tuple := ⟨fun | .tuple h => h, .tuple⟩
  list := ⟨fun | .list he hl => ⟨he, hl⟩, fun h => .list h.1 h.2⟩
  func := ⟨fun | .func h => h, .func⟩
  contract := ⟨fun | .contract hc hr hy => ⟨hc, hr, hy⟩, fun h => .contract h.1 h.2.1 h.2.2⟩
  annotated _ _ h := h

lemma EveryTable.normalize {t : Ty} (h : t.EveryTable p) : t.normalize.EveryTable p :=
  hereditary_everyTable.normalize h

lemma EveryTable.withSource {t : Ty} (h : t.EveryTable p) (x : String) :
    (t.withSource x).EveryTable p := by
  unfold Ty.withSource
  split
  · split
    · obtain ⟨hc, hr, hy⟩ := hereditary_everyTable.contract.1 h
      exact .contract hc hr hy
    · exact h
  · exact h

/-! ### Resolved values -/

variable {b : Bindings}

/-- Nothing is left to be done for the bindings: they bind no variable of the value, and they
violate no exclusion of a contract in it. -/
structure Resolved (b : Bindings) (t : Ty) : Prop where
  unbound : t.Within (.vars fun x => b.find? x = none)
  calm : t.EveryTable fun table => Exclusions.violatedBy table b = false

namespace Resolved

lemma normalize {t : Ty} (h : t.Resolved b) : t.normalize.Resolved b :=
  ⟨h.unbound.normalize, h.calm.normalize⟩

lemma withSource {t : Ty} (h : t.Resolved b) (x : String) : (t.withSource x).Resolved b :=
  ⟨h.unbound.withSource x, h.calm.withSource x⟩

/-- Replacing variables in a resolved value does not change it, up to normal form and
annotations. -/
lemma core_expand {t : Ty} (h : t.Resolved b) : (t.expand b.look 0).core = t.core := by
  obtain ⟨hunbound, hcalm⟩ := h
  induction t with
  | void | const | int | star => rfl
  | var x => rw [expand, Bindings.look_of_find?_eq_none hunbound]
  | seq items ih =>
    cases hcalm with
    | seq hcalm =>
      rw [expand, core_seq, core_seq, expandAll_eq_map, List.map_map]
      exact congrArg _ (List.map_congr_left fun t ht =>
        ih t ht (within_seq.1 hunbound t ht) (hcalm t ht))
  | tuple items ih =>
    cases hcalm with
    | tuple hcalm =>
      rw [expand, core_tuple, core_tuple, expandAll_eq_map, List.map_map]
      exact congrArg _ (List.map_congr_left fun t ht =>
        ih t ht (within_tuple.1 hunbound t ht) (hcalm t ht))
  | func fn args ih =>
    cases hcalm with
    | func hcalm =>
      rw [expand, core_func, core_func, expandAll_eq_map, List.map_map]
      exact congrArg _ (List.map_congr_left fun t ht =>
        ih t ht (within_func.1 hunbound t ht) (hcalm t ht))
  | list element length ihe ihl =>
    cases hcalm with
    | list hce hcl => rw [expand, core_list, core_list, ihe hunbound.1 hce, ihl hunbound.2 hcl]
  | contract body ihr ihy =>
    obtain ⟨-, hr, hy⟩ := within_contract.1 hunbound
    cases hcalm with
    | contract hc hcr hcy =>
      rw [core_expand_contract_of_not_violatedBy hc]
      exact core_contract_congr (ihr hr hcr) (ihy hy hcy)

/-- Substituting the bindings into a resolved value in normal form does not change it, up to
annotations. -/
lemma bare_subst {t : Ty} (h : t.Resolved b) (hnormal : t.normalize = t) :
    (t.subst b).bare = t.bare := by
  have hcore : (t.expand b.look 0).core = t.core := h.core_expand
  rwa [core, core, hnormal] at hcore

end Resolved

/-! ### What substitution makes -/

/-- Replacing variables leaves no bound variable, if what the variables stand for is resolved. -/
lemma unbound_expand {t : Ty} (h : ∀ x ∈ t.mentions, (b.look 0 x).Resolved b) :
    (t.expand b.look 0).Within (.vars fun x => b.find? x = none) := by
  have hvars : t.Within (.vars fun x => (b.look 0 x).Resolved b) := within_vars_of_mentions h
  have hlook : ∀ x, (b.look 0 x).Resolved b →
      (b.look 0 x).Within (.vars fun x => b.find? x = none) := fun _ hx => hx.unbound
  refine Within.expand ?_ ?_ hlook hlook hvars
  · exact fun _ ha => ha
  · exact fun hc => hc

/-- Replacing variables leaves no violated exclusion, if what they stand for is resolved. -/
lemma calm_expand {t : Ty} (h : ∀ x ∈ t.mentions, (b.look 0 x).Resolved b) :
    (t.expand b.look 0).EveryTable fun table => Exclusions.violatedBy table b = false := by
  induction t using deepInduction with
  | void => exact .void
  | const name => exact .const name
  | int n => exact .int n
  | star => exact .star
  | var x => exact (h x List.mem_cons_self).calm
  | seq items ih =>
    rw [expand, expandAll_eq_map]
    exact .seq (List.forall_mem_map.2 fun t ht => ih t ht (forall_mentions_seq.1 h t ht))
  | tuple items ih =>
    rw [expand, expandAll_eq_map]
    exact .tuple (List.forall_mem_map.2 fun t ht => ih t ht (forall_mentions_tuple.1 h t ht))
  | func fn args ih =>
    rw [expand, expandAll_eq_map]
    exact .func (List.forall_mem_map.2 fun t ht => ih t ht (forall_mentions_func.1 h t ht))
  | list element length ihe ihl =>
    obtain ⟨he, hl⟩ := forall_mentions_list.1 h
    exact .list (ihe he) (ihl hl)
  | contract body ihr ihy ihf =>
    obtain ⟨hr, hy, -, hf⟩ := forall_mentions_contract.1 h
    rw [expand]
    rcases Contract.expand_cases b.look body with heq | ⟨table, htable, heq⟩
    · rw [heq]
      exact .contract rfl .void .void
    · rw [heq]
      refine .contract ?_ (ihr hr).normalize (ihy hy).normalize
      -- The values of the exclusions have been substituted and stay what they are, so the new table
      -- is violated only if the old one was; but then the contract would have collapsed.
      have hstages : ∀ e ∈ body.forbidden, e.Forall fun t =>
          ((t.subst b).subst b).bare = (t.subst b).bare := by
        intro e he
        have hvalue : ∀ t : Ty, (∀ x ∈ t.mentions, (b.look 0 x).Resolved b) →
            ((t.expand b.look 0).EveryTable fun table => Exclusions.violatedBy table b = false) →
              ((t.subst b).subst b).bare = (t.subst b).bare := by
          intro t hmentions hcalm
          have hresolved : (t.expand b.look 0).Resolved b := ⟨unbound_expand hmentions, hcalm⟩
          exact hresolved.normalize.bare_subst (normalize_normalize _)
        exact ⟨fun t ht => hvalue t ((hf e he).key t ht) ((ihf e he).key t ht ((hf e he).key t ht)),
          fun row hrow t ht => hvalue t ((hf e he).values row hrow t ht)
            ((ihf e he).values row hrow t ht ((hf e he).values row hrow t ht))⟩
      have hrespects : b.Respects fun t => (t.subst b).bare = t.bare :=
        ⟨fun ht hu heq => by rw [ht, hu, heq], fun ht _ _ => ht⟩
      have hvalues : ∀ e ∈ body.forbidden,
          (e.expand b.look).Forall fun t => (t.subst b).bare = t.bare :=
        fun e he => (hstages e he).expand fun _ ht => ht
      have hsubst : Exclusions.subst? body.forbidden b = some table := htable
      rw [Exclusions.violatedBy_subst? hrespects hvalues hstages hsubst, Bool.eq_false_iff, Ne,
        ← Exclusions.subst?_eq_none_iff, hsubst]
      exact Option.some_ne_none _

/-- Without circles everything that a variable stands for is resolved. -/
lemma resolved_look (hb : b.Acyclic) (x : String) : (b.look 0 x).Resolved b := by
  induction x using hb.induction with
  | free x hx =>
    rw [Bindings.look_of_find?_eq_none hx]
    exact ⟨hx, .var x⟩
  | bound x t hx ih =>
    rw [hb.look_eq hx]
    exact Resolved.withSource ⟨unbound_expand ih, calm_expand ih⟩ x

/-- Without circles substitution gives a resolved value. -/
lemma resolved_subst (hb : b.Acyclic) (t : Ty) : (t.subst b).Resolved b := by
  have hlook : ∀ x ∈ t.mentions, (b.look 0 x).Resolved b := fun x _ => resolved_look hb x
  exact Resolved.normalize ⟨unbound_expand hlook, calm_expand hlook⟩

end Ty

/-- Substitution resolves fully and is idempotent. Under bindings without circles, no bound variable
is left in the result, every bound variable becomes what becomes of its value, so that no chain of
replacements is ever cut off, and a second substitution changes nothing. -/
theorem substitution_resolves_fully {b : Bindings} (hb : b.Acyclic) (t : Ty) :
    (∀ x ∈ (t.subst b).freeVars, b.contains x = false) ∧
      (∀ x u, b.find? x = some u → ((Ty.var x).subst b == u.subst b) = true) ∧
      ((t.subst b).subst b == t.subst b) = true := by
  have hresolved : (t.subst b).Resolved b := Ty.resolved_subst hb t
  refine ⟨fun x hx => ?_, fun x u hx => ?_, ?_⟩
  · rw [NameTable.contains_eq_false_iff]
    exact Ty.within_vars_iff.1 hresolved.unbound x (Ty.mem_freeVars.1 hx)
  · rw [Ty.subst, Ty.subst, Ty.beq_normalize_iff, Ty.expand, hb.look_eq hx, Ty.core_withSource]
  · exact Ty.beq_iff_bare_eq.2 (hresolved.bare_subst (Ty.normalize_normalize _))

/-- A contract comes in for a variable and both of its keys become the same variable, while the
other contract collapses. -/
theorem substitution_resolves_fully_merging :
    let b : Bindings := NameTable.ofList
      [("x", .contract
          { receives := .var "y", yields := .var "z", condition := some (.inherits "y" "C")
            forbidden := [⟨[.var "y"], [[.const "A"]]⟩, ⟨[.var "z"], [[.const "B"]]⟩] }),
        ("y", .var "w"), ("z", .var "w")]
    let t : Ty := .tuple [.var "x", .contract
      { receives := .var "y", yields := .void, forbidden := [⟨[.var "y"], [[.var "z"]]⟩] }]
    b.Acyclic ∧ (∀ x ∈ (t.subst b).freeVars, b.contains x = false) ∧
      ((t.subst b).subst b == t.subst b) = true ∧
      (t.subst b == .tuple [.contract { receives := .var "w", yields := .var "w" }, .void]) =
        true := by
  intro b t
  have hb : b.Acyclic := by
    refine Bindings.acyclic_of_rank
      (fun x => if x = "x" then 2 else if x = "w" then 0 else 1) ?_
    refine NameTable.forall_find?_ofList ?_
    decide
  obtain ⟨hfree, -, hagain⟩ := substitution_resolves_fully hb t
  exact ⟨hb, hfree, hagain, by decide⟩

end ContractComposition
