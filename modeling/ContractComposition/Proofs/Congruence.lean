import Mathlib.Data.List.Zip
import ContractComposition.Proofs.Acyclicity
import ContractComposition.Proofs.Joining

/-!
# Equal values under substitution

Equality looks at the two sides of a contract only, while a contract with a violated exclusion
collapses. So of two equal contracts the one may collapse where the other does not, and then they are
not equal any more (`equal_contracts_come_apart`). Nothing else separates equal values: they stay
equal as long as contracts in the same place collapse together (`Ty.CollapseAlike`), whatever their
conditions and exclusions are otherwise (`equality_survives_substitution`).

Of equal values only one is kept where tables of bindings are joined and where tuples are added to an
exclusion. Which of them it is makes no difference under the same condition. For the tuples this is
the result above. For bindings it takes a second congruence, in the table instead of the value: what
becomes of a value depends on what its variables stand for, up to normal form and annotations only
(`Ty.core_expand_congr`), also where it decides about exclusions.
-/

namespace ContractComposition

variable {b b' : Bindings}

namespace Ty

/-! ### One table -/

/-- Of two contracts in the same place of the values, the bindings violate the exclusions of both or
of none. What is inside of contracts that collapse does not count. -/
inductive CollapseAlike (b : Bindings) : Ty → Ty → Prop
  | refl (t : Ty) : CollapseAlike b t t
  | seq {ts us : List Ty} (h : ∀ p ∈ ts.zip us, CollapseAlike b p.1 p.2) :
    CollapseAlike b (.seq ts) (.seq us)
  | tuple {ts us : List Ty} (h : ∀ p ∈ ts.zip us, CollapseAlike b p.1 p.2) :
    CollapseAlike b (.tuple ts) (.tuple us)
  | list {element length element' length' : Ty} (he : CollapseAlike b element element')
    (hl : CollapseAlike b length length') :
    CollapseAlike b (.list element length) (.list element' length')
  | func {fn fn' : LengthFn} {ts us : List Ty} (h : ∀ p ∈ ts.zip us, CollapseAlike b p.1 p.2) :
    CollapseAlike b (.func fn ts) (.func fn' us)
  | collapsed {body body' : Contract} (h : Exclusions.violatedBy body.forbidden b = true)
    (h' : Exclusions.violatedBy body'.forbidden b = true) :
    CollapseAlike b (.contract body) (.contract body')
  | kept {body body' : Contract} (h : Exclusions.violatedBy body.forbidden b = false)
    (h' : Exclusions.violatedBy body'.forbidden b = false)
    (hr : CollapseAlike b body.receives body'.receives)
    (hy : CollapseAlike b body.yields body'.yields) :
    CollapseAlike b (.contract body) (.contract body')

lemma CollapseAlike.symm {t u : Ty} (h : t.CollapseAlike b u) : u.CollapseAlike b t := by
  have hswap : ∀ {ts us : List Ty}, (∀ p ∈ ts.zip us, CollapseAlike b p.2 p.1) →
      ∀ p ∈ us.zip ts, CollapseAlike b p.1 p.2 := by
    intro ts us h
    rw [← List.zip_swap]
    exact List.forall_mem_map.2 h
  induction h with
  | refl t => exact .refl t
  | seq _ ih => exact .seq (hswap ih)
  | tuple _ ih => exact .tuple (hswap ih)
  | func _ ih => exact .func (hswap ih)
  | list _ _ ihe ihl => exact .list ihe ihl
  | collapsed h h' => exact .collapsed h' h
  | kept h h' _ _ ihr ihy => exact .kept h' h ihr ihy

/-- Replacing variables keeps equal values equal, up to normal form, if contracts in the same place
collapse together. -/
theorem CollapseAlike.core_expand {t u : Ty} (h : t.CollapseAlike b u) (heq : t.bare = u.bare) :
    (t.expand b.look 0).core = (u.expand b.look 0).core := by
  induction h with
  | refl t => rfl
  | @seq ts us _ ih =>
    rw [bare, bare, bareAll_eq_map, bareAll_eq_map] at heq
    simp only [expand, core_seq, expandAll_eq_map, List.map_map]
    exact congrArg _ (map_eq_map_of_zip (Ty.seq.inj heq) ih)
  | @tuple ts us _ ih =>
    rw [bare, bare, bareAll_eq_map, bareAll_eq_map] at heq
    simp only [expand, core_tuple, expandAll_eq_map, List.map_map]
    exact congrArg _ (map_eq_map_of_zip (Ty.tuple.inj heq) ih)
  | @func fn fn' ts us _ ih =>
    rw [bare, bare, bareAll_eq_map, bareAll_eq_map] at heq
    obtain ⟨rfl, hargs⟩ := Ty.func.inj heq
    simp only [expand, core_func, expandAll_eq_map, List.map_map]
    exact congrArg _ (map_eq_map_of_zip hargs ih)
  | list _ _ ihe ihl =>
    obtain ⟨he, hl⟩ := Ty.list.inj heq
    simp only [expand, core_list, ihe he, ihl hl]
  | collapsed h h' =>
    rw [core_expand_contract_of_violatedBy h, core_expand_contract_of_violatedBy h']
  | kept h h' _ _ ihr ihy =>
    rw [bare_contract, bare_contract] at heq
    obtain ⟨hr, hy, -⟩ := Contract.mk.inj (Ty.contract.inj heq)
    rw [core_expand_contract_of_not_violatedBy h, core_expand_contract_of_not_violatedBy h']
    exact core_contract_congr (ihr hr) (ihy hy)

/-- Substitution keeps equal values equal, if contracts in the same place collapse together. -/
lemma CollapseAlike.bare_subst {t u : Ty} (h : t.CollapseAlike b u) (heq : t.bare = u.bare) :
    (t.subst b).bare = (u.subst b).bare :=
  h.core_expand heq

end Ty

/-! ### Tuples of an exclusion -/

/-- Contracts in the same place of equal tuples collapse together. -/
def Tuples.CollapseAlike (b : Bindings) (rows : List (List Ty)) : Prop :=
  ∀ row ∈ rows, ∀ row' ∈ rows, Ty.beqAll row row' = true →
    ∀ p ∈ row.zip row', p.1.CollapseAlike b p.2

/-- Tables that make the same of all values of a table of exclusions violate it alike. -/
lemma Exclusions.violatedBy_congr {table : List Exclusion}
    (h : ∀ e ∈ table, e.Forall fun t => (t.subst b).bare = (t.subst b').bare) :
    violatedBy table b = violatedBy table b' := by
  rw [Bool.eq_iff_iff, violatedBy_iff, violatedBy_iff]
  refine exists_congr fun e => and_congr_right fun he => ?_
  rw [Exclusion.violatedBy_iff, Exclusion.violatedBy_iff]
  refine exists_congr fun row => and_congr_right fun hrow => ?_
  rw [Exclusion.Equates, Exclusion.Equates, List.map_congr_left ((h e he).key),
    List.map_congr_left ((h e he).values row hrow)]

/-- What becomes of a value depends on what the variables that it mentions stand for, up to normal
form and annotations only. -/
theorem Ty.core_expand_congr {t : Ty}
    (h : ∀ x ∈ t.mentions, (b.look 0 x).core = (b'.look 0 x).core) :
    (t.expand b.look 0).core = (t.expand b'.look 0).core := by
  induction t using deepInduction with
  | void | const | int | star => rfl
  | var x => exact h x List.mem_cons_self
  | seq items ih =>
    simp only [expand, core_seq, expandAll_eq_map, List.map_map]
    exact congrArg _ (List.map_congr_left fun t ht => ih t ht (forall_mentions_seq.1 h t ht))
  | tuple items ih =>
    simp only [expand, core_tuple, expandAll_eq_map, List.map_map]
    exact congrArg _ (List.map_congr_left fun t ht => ih t ht (forall_mentions_tuple.1 h t ht))
  | func fn args ih =>
    simp only [expand, core_func, expandAll_eq_map, List.map_map]
    exact congrArg _ (List.map_congr_left fun t ht => ih t ht (forall_mentions_func.1 h t ht))
  | list element length ihe ihl =>
    obtain ⟨he, hl⟩ := forall_mentions_list.1 h
    simp only [expand, core_list, ihe he, ihl hl]
  | contract body ihr ihy ihf =>
    obtain ⟨hr, hy, -, hf⟩ := forall_mentions_contract.1 h
    -- The values of the exclusions become the same, so the contract collapses under both tables or
    -- under none.
    have hsame : Exclusions.violatedBy body.forbidden b = Exclusions.violatedBy body.forbidden b' :=
      Exclusions.violatedBy_congr fun e he =>
        ⟨fun t ht => (ihf e he).key t ht ((hf e he).key t ht),
          fun row hrow t ht => (ihf e he).values row hrow t ht ((hf e he).values row hrow t ht)⟩
    cases hviolated : Exclusions.violatedBy body.forbidden b with
    | true =>
      rw [core_expand_contract_of_violatedBy hviolated,
        core_expand_contract_of_violatedBy (hsame ▸ hviolated)]
    | false =>
      rw [core_expand_contract_of_not_violatedBy hviolated,
        core_expand_contract_of_not_violatedBy (hsame ▸ hviolated)]
      exact core_contract_congr (ihr hr) (ihy hy)

namespace Bindings

/-- Both tables bind the same variables, to equal values in which contracts in the same place
collapse together under the first one. -/
structure Interchangeable (b b' : Bindings) : Prop where
  find?_eq_none_iff : ∀ x, b.find? x = none ↔ b'.find? x = none
  bare_eq : ∀ {x t u}, b.find? x = some t → b'.find? x = some u → t.bare = u.bare
  alike : ∀ {x t u}, b.find? x = some t → b'.find? x = some u → t.CollapseAlike b u

namespace Interchangeable

/-- Without circles variables stand for the same under interchangeable tables. -/
lemma core_look (h : b.Interchangeable b') (hb : b.Acyclic) (hb' : b'.Acyclic) (x : String) :
    (b.look 0 x).core = (b'.look 0 x).core := by
  -- The induction is along the second table. First the values are exchanged under the first table,
  -- where their contracts are known to collapse together, and then the tables are.
  induction x using hb'.induction with
  | free x hx =>
    rw [look_of_find?_eq_none hx, look_of_find?_eq_none ((h.find?_eq_none_iff x).2 hx)]
  | bound x u hx ih =>
    obtain ⟨t, ht⟩ : ∃ t, b.find? x = some t := by
      rw [← Option.ne_none_iff_exists', Ne, h.find?_eq_none_iff, hx]
      exact Option.some_ne_none u
    calc (b.look 0 x).core = (t.expand b.look 0).core := by rw [hb.look_eq ht, Ty.core_withSource]
      _ = (u.expand b.look 0).core := (h.alike ht hx).core_expand (h.bare_eq ht hx)
      _ = (u.expand b'.look 0).core := Ty.core_expand_congr ih
      _ = (b'.look 0 x).core := by rw [hb'.look_eq hx, Ty.core_withSource]

/-- Without circles interchangeable tables make the same of all values. -/
lemma bare_subst (h : b.Interchangeable b') (hb : b.Acyclic) (hb' : b'.Acyclic) (t : Ty) :
    (t.subst b).bare = (t.subst b').bare :=
  Ty.core_expand_congr fun x _ => h.core_look hb hb' x

end Interchangeable

end Bindings

-- Joining also takes values for equal that have the same normal form only. They may come apart
-- without any contract, since the sequence around a list has to stay.
example :
    let a : Bindings := NameTable.ofList
      [("x", .seq [.var "y"]), ("y", .list (.const "A") (.int 2))]
    let b : Bindings := NameTable.ofList [("x", .var "y"), ("y", .list (.const "A") (.int 2))]
    (a.join? b).isSome = true ∧ ((Ty.var "x").subst a == (Ty.var "x").subst b) = false := by
  decide

end ContractComposition
