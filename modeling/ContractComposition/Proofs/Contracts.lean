import ContractComposition.Contract.Exchange
import ContractComposition.Proofs.Parts

/-!
# What contracts do, step by step

Receiving and yielding are sequences of checks. `Contract.accept?_eq_some_iff` and
`Contract.produce?_eq_some_iff` list them, so that what a contract does is known from what it
receives and yields without looking into the checks again. Substituting bindings into a contract
either leaves nothing of it or substitutes into both sides (`Contract.subst_sides`).
-/

namespace ContractComposition

namespace Contract

/-- A value is received if it matches the first element of the receiving side under the known
bindings, the bindings that are found agree with the known ones, and no constraint stands against
the joined bindings. -/
lemma accept?_eq_some_iff {c : Contract} {offered : Ty} {known : Bindings} {h : Hierarchy}
    {received : Received} : c.accept? offered known h = some received ↔
      ∃ head rest found, c.receives.pop? = some (head, rest) ∧
        (head.subst known).matching? offered = some found ∧
        known.join? found = some received.bindings ∧
        Exclusions.violatedBy c.forbidden received.bindings = false ∧
        (c.condition.all fun condition => condition.holds received.bindings h) = true ∧
        received.successor = { c with receives := rest } := by
  unfold accept?
  simp only [Option.bind_eq_bind, Option.bind_eq_some_iff, Prod.exists]
  constructor
  · rintro ⟨head, rest, hpop, found, hfound, bindings, hjoin, hrest⟩
    split at hrest
    · cases hrest
    · rename_i hviolated
      split at hrest
      · rename_i hcondition
        cases hrest
        exact ⟨head, rest, found, hpop, hfound, hjoin, Bool.not_eq_true _ ▸ hviolated,
          hcondition, rfl⟩
      · cases hrest
  · rintro ⟨head, rest, found, hpop, hfound, hjoin, hviolated, hcondition, hsuccessor⟩
    refine ⟨head, rest, hpop, found, hfound, received.bindings, hjoin, ?_⟩
    rw [if_neg (by rw [hviolated]; exact Bool.false_ne_true), if_pos hcondition, ← hsuccessor]

/-- A value is yielded if there is nothing left to receive and the bindings leave no variable in
the yielding side, whose first element it is. -/
lemma produce?_eq_some_iff {c : Contract} {b : Bindings} {yielded : Yielded} :
    c.produce? b = some yielded ↔
      c.receives.isVoid = true ∧ (c.yields.subst b).isGround = true ∧
        ∃ rest, (c.yields.subst b).pop? = some (yielded.value, rest) ∧
          yielded.successor =
            { receives := .void, yields := rest.normalize, source := c.source,
              restorable := c.restorable } := by
  unfold produce?
  constructor
  · intro h
    split at h
    · cases h
    · rename_i hvoid
      dsimp only at h
      split at h
      · cases h
      · rename_i hground
        simp only [Option.bind_eq_bind, Option.bind_eq_some_iff, Prod.exists] at h
        obtain ⟨value, rest, hpop, h⟩ := h
        cases h
        refine ⟨by simpa using hvoid, by simpa using hground, rest, hpop, rfl⟩
  · rintro ⟨hvoid, hground, rest, hpop, hsuccessor⟩
    dsimp only
    rw [hvoid, hground, hpop]
    obtain ⟨value, successor⟩ := yielded
    subst hsuccessor
    rfl

/-- Substituting bindings collapses a contract or substitutes into both of its sides. -/
lemma subst_sides (c : Contract) (b : Bindings) :
    (c.subst b).receives = .void ∧ (c.subst b).yields = .void ∨
      (c.subst b).receives = c.receives.subst b ∧ (c.subst b).yields = c.yields.subst b := by
  rcases expand_cases b.look c with h | ⟨table, -, h⟩
  · exact .inl ⟨congrArg receives h, congrArg yields h⟩
  · exact .inr ⟨congrArg receives h, congrArg yields h⟩

/-- Without exclusions a contract does not collapse. -/
lemma subst_of_forbidden_eq_nil {c : Contract} (h : c.forbidden = []) (b : Bindings) :
    (c.subst b).receives = c.receives.subst b ∧ (c.subst b).yields = c.yields.subst b ∧
      (c.subst b).forbidden = [] := by
  obtain ⟨receives, yields, condition, forbidden, source, restorable⟩ := c
  cases h
  exact ⟨rfl, rfl, rfl⟩

end Contract

namespace Bindings

/-- A renaming binds no variables but those that are not to be kept, and it binds each to its new
name. -/
lemma of_find?_suffixing {vars : List String} {suffix : Nat} {keep : List String} {x : String}
    {t : Ty} (h : (suffixing vars suffix keep).find? x = some t) :
    x ∈ vars ∧ x ∉ keep ∧ t = .var (x ++ "#" ++ toString suffix) := by
  obtain ⟨y, hy, heq⟩ := List.mem_map.1 (NameTable.mem_of_find?_ofList h)
  obtain ⟨rfl, rfl⟩ := Prod.mk.inj heq
  obtain ⟨hvars, hkeep⟩ := List.mem_filter.1 hy
  exact ⟨hvars, by simpa using hkeep, rfl⟩

/-- A renaming binds variables to variables. -/
lemma eq_var_of_find?_suffixing {vars : List String} {suffix : Nat} {keep : List String}
    {x : String} {t : Ty} (h : (suffixing vars suffix keep).find? x = some t) :
    t = .var (x ++ "#" ++ toString suffix) :=
  (of_find?_suffixing h).2.2

/-- A renaming leaves the variables alone that are to be kept. -/
lemma find?_suffixing_of_mem {vars : List String} {suffix : Nat} {keep : List String} {x : String}
    (h : x ∈ keep) : (suffixing vars suffix keep).find? x = none :=
  Option.eq_none_iff_forall_ne_some.2 fun _ hfind => (of_find?_suffixing hfind).2.1 h

/-- A renaming leaves all other variables alone. -/
lemma find?_suffixing_of_not_mem_vars {vars : List String} {suffix : Nat} {keep : List String}
    {x : String} (h : x ∉ vars) : (suffixing vars suffix keep).find? x = none :=
  Option.eq_none_iff_forall_ne_some.2 fun _ hfind => h (of_find?_suffixing hfind).1

/-- A renaming renames the variables that are not to be kept. -/
lemma find?_suffixing_of_not_mem {vars keep : List String} {x : String} (hx : x ∈ vars)
    (hkeep : x ∉ keep) (suffix : Nat) :
    (suffixing vars suffix keep).find? x = some (.var (x ++ "#" ++ toString suffix)) := by
  have hpair : (x, Ty.var (x ++ "#" ++ toString suffix)) ∈
      (vars.filter fun y => !keep.contains y).map fun y =>
        (y, Ty.var (y ++ "#" ++ toString suffix)) :=
    List.mem_map_of_mem (List.mem_filter.2 ⟨hx, by simp [hkeep]⟩)
  obtain ⟨t, ht⟩ := NameTable.exists_find?_ofList hpair
  rw [suffixing, ht, eq_var_of_find?_suffixing ht]

end Bindings

/-! ### Contracts made of given parts -/

/-- What a contract receives is made of parts `Q`, what it yields of parts `P`. -/
structure Contract.SidesWithin (P Q : Parts) (c : Contract) : Prop where
  receives : c.receives.Within Q
  yields : c.yields.Within P

namespace Contract.SidesWithin

variable {P Q G : Parts} {c : Contract} {b : Bindings}

lemma subst (hb : b.Within G) (hGP : G.Le P) (hPQ : P.Le Q) (h : c.SidesWithin P Q) :
    (c.subst b).SidesWithin P Q := by
  have hbP : b.Within P := fun x t ht => (hb x t ht).mono hGP
  have hbQ : b.Within Q := fun x t ht => (hbP x t ht).mono hPQ
  rcases c.subst_sides b with ⟨hr, hy⟩ | ⟨hr, hy⟩
  · exact ⟨hr ▸ Ty.within_void, hy ▸ Ty.within_void⟩
  · exact ⟨hr ▸ h.receives.subst hbQ, hy ▸ h.yields.subst hbP⟩

/-- A renaming is made of variables, so it adds no other parts. -/
lemma freshen (hvars : ∀ x, P.var x) (hPQ : P.Le Q) (h : c.SidesWithin P Q) (suffix : Nat)
    (keep : List String) : (c.freshen suffix keep).SidesWithin P Q := by
  have hrenaming : (Bindings.suffixing c.allVars suffix keep).Within P := by
    intro x t ht
    rw [Bindings.eq_var_of_find?_suffixing ht]
    exact hvars _
  exact h.subst hrenaming (Parts.Le.refl P) hPQ

lemma produce? (hb : b.Within G) (hGP : G.Le P) (h : c.SidesWithin P Q) {yielded : Yielded}
    (hyielded : c.produce? b = some yielded) :
    yielded.value.Within P.ground ∧ yielded.successor.SidesWithin P Q := by
  obtain ⟨-, hground, rest, hpop, hsuccessor⟩ := produce?_eq_some_iff.1 hyielded
  have hyields : (c.yields.subst b).Within P := h.yields.subst fun x t ht => (hb x t ht).mono hGP
  obtain ⟨hvalue, hrest⟩ := (hyields.ground_of_isGround hground).pop? hpop
  refine ⟨hvalue, ?_⟩
  rw [hsuccessor]
  exact ⟨Ty.within_void, (hrest.mono P.ground_le).normalize⟩

lemma accept? (hb : b.Within G) (hPG : P.ground.Le G) (h : c.SidesWithin P Q) {offered : Ty}
    (hoffered : offered.Within P.ground) {hierarchy : Hierarchy} {received : Received}
    (hreceived : c.accept? offered b hierarchy = some received) :
    received.successor.SidesWithin P Q ∧ received.bindings.Within G := by
  obtain ⟨head, rest, found, hpop, hfound, hjoin, -, -, hsuccessor⟩ :=
    accept?_eq_some_iff.1 hreceived
  have hparts : found.Within G := by
    intro x t ht
    exact (Ty.within_matching? hoffered hfound x t ht).mono hPG
  refine ⟨?_, Bindings.within_join? hb hparts hjoin⟩
  rw [hsuccessor]
  exact ⟨(h.receives.pop? hpop).2, h.yields⟩

lemma appendYield (h : c.SidesWithin P Q) {value : Ty} (hvalue : value.Within P) :
    (c.appendYield value).SidesWithin P Q :=
  ⟨h.receives, h.yields.concat (Ty.within_sequence (List.forall_mem_singleton.2 hvalue))⟩

lemma of {receives yields : Ty} (hr : receives.Within Q) (hy : yields.Within P) :
    (Contract.of receives yields).SidesWithin P Q :=
  ⟨hr.normalize, hy.normalize⟩

lemma output {values : List Ty} (h : ∀ v ∈ values, v.Within P) :
    (Contract.of .void (Ty.sequence values)).SidesWithin P Q :=
  of Ty.within_void (Ty.within_sequence h)

lemma andThen (h : c.SidesWithin P Q) {next : Contract} (hnext : next.SidesWithin P Q) :
    (c.andThen next).SidesWithin P Q :=
  ⟨h.receives.concat hnext.receives, h.yields.concat hnext.yields⟩

end Contract.SidesWithin

end ContractComposition
