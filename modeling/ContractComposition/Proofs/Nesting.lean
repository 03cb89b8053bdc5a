import ContractComposition.Proofs.Run.Law
import ContractComposition.Proofs.Substitution

/-!
# How deeply contracts are nested

A contract that travels as a value may yield contracts in its turn. `Ty.nesting` counts how many of
them are inside each other. No operation on streams increases this number: normalizing drops parts,
taking off the first element gives parts, and concatenating puts the parts of two streams side by
side.

Substitution can increase it, since a variable may stand for a contract. But there is nothing to
substitute in a plain value. So a contract with plain sides yields values that are nested no deeper
than its sides (`Contract.law_plainWithin`), and the contracts inside such a value have sides that
are nested less deeply than the value (`Ty.IsPlain.exists_nesting_eq_succ`).
-/

namespace ContractComposition

namespace Ty

variable {t u : Ty} {ts : List Ty} {n : Nat}

/-! ### Nesting, constructor by constructor -/

lemma nestingAll_le_iff : nestingAll ts ≤ n ↔ ∀ t ∈ ts, t.nesting ≤ n := by
  induction ts with
  | nil => simp [nestingAll]
  | cons t ts ih =>
    rw [nestingAll, List.forall_mem_cons, ← ih]
    exact Nat.max_le

@[simp]
lemma nesting_seq_le_iff : (Ty.seq ts).nesting ≤ n ↔ ∀ t ∈ ts, t.nesting ≤ n :=
  nestingAll_le_iff

@[simp]
lemma nesting_tuple_le_iff : (Ty.tuple ts).nesting ≤ n ↔ ∀ t ∈ ts, t.nesting ≤ n :=
  nestingAll_le_iff

@[simp]
lemma nesting_func_le_iff {fn : LengthFn} :
    (Ty.func fn ts).nesting ≤ n ↔ ∀ t ∈ ts, t.nesting ≤ n :=
  nestingAll_le_iff

@[simp]
lemma nesting_list_le_iff : (Ty.list t u).nesting ≤ n ↔ t.nesting ≤ n ∧ u.nesting ≤ n :=
  Nat.max_le

/-- A contract as a value nests one deeper than its sides. -/
lemma nesting_contract_le_iff {body : Contract} : (Ty.contract body).nesting ≤ n + 1 ↔
    body.receives.nesting ≤ n ∧ body.yields.nesting ≤ n := by
  cases body
  exact Nat.succ_le_succ_iff.trans Nat.max_le

lemma nesting_contract_pos (body : Contract) : 0 < (Ty.contract body).nesting := by
  cases body
  exact Nat.succ_pos _

/-! ### Streams -/

lemma nesting_flatten_le (h : t.nesting ≤ n) : ∀ u ∈ t.flatten, u.nesting ≤ n := by
  induction t with
  | seq items ih =>
    intro u hu
    rw [flatten, flattenAll_eq_flatMap, List.mem_flatMap] at hu
    obtain ⟨t, ht, hu⟩ := hu
    exact ih t ht (nesting_seq_le_iff.1 h t ht) u hu
  | void =>
    intro u hu
    cases hu
  | const | var | int | star | tuple | list | func | contract =>
    intro u hu
    rw [List.mem_singleton.1 hu]
    exact h

lemma nesting_ofMembers_le (h : ∀ t ∈ ts, t.nesting ≤ n) : (ofMembers ts).nesting ≤ n := by
  unfold ofMembers
  split
  · exact Nat.zero_le n
  · exact nesting_seq_le_iff.2 h
  · exact h _ List.mem_cons_self
  · exact nesting_seq_le_iff.2 h

lemma nesting_sequence_le (h : ∀ t ∈ ts, t.nesting ≤ n) : (sequence ts).nesting ≤ n := by
  refine nesting_ofMembers_le fun u hu => ?_
  rw [flattenAll_eq_flatMap, List.mem_flatMap] at hu
  obtain ⟨t, ht, hu⟩ := hu
  exact nesting_flatten_le (h t ht) u hu

lemma nesting_listOf_le (ht : t.nesting ≤ n) (hu : u.nesting ≤ n) :
    (listOf t u).nesting ≤ n := by
  unfold listOf
  split
  · split
    · exact Nat.zero_le n
    · exact nesting_list_le_iff.2 ⟨ht, Nat.zero_le n⟩
  · exact nesting_list_le_iff.2 ⟨ht, hu⟩

lemma nesting_eval_le {fn : LengthFn} (h : ∀ t ∈ ts, t.nesting ≤ n) :
    (fn.eval ts).nesting ≤ n := by
  rcases fn.eval_cases ts with heq | ⟨k, heq⟩ | hstuck
  · rw [heq]
    exact Nat.zero_le n
  · rw [heq]
    exact Nat.zero_le n
  · rw [hstuck.eval_eq]
    exact nesting_func_le_iff.2 h

/-- Normalizing does not nest contracts more deeply. -/
lemma nesting_normalize_le (h : t.nesting ≤ n) : t.normalize.nesting ≤ n := by
  induction t generalizing n with
  | void | const | var | int | star => exact h
  | seq items ih =>
    rw [normalize, normalizeAll_eq_map]
    refine nesting_sequence_le (List.forall_mem_map.2 fun t ht => ?_)
    exact ih t ht (nesting_seq_le_iff.1 h t ht)
  | tuple items ih =>
    rw [normalize, normalizeAll_eq_map]
    refine nesting_tuple_le_iff.2 (List.forall_mem_map.2 fun t ht => ?_)
    exact ih t ht (nesting_tuple_le_iff.1 h t ht)
  | list element length ihe ihl =>
    obtain ⟨he, hl⟩ := nesting_list_le_iff.1 h
    exact nesting_listOf_le (ihe he) (ihl hl)
  | func fn args ih =>
    rw [normalize, normalizeAll_eq_map]
    refine nesting_eval_le (List.forall_mem_map.2 fun t ht => ?_)
    exact ih t ht (nesting_func_le_iff.1 h t ht)
  | contract body ihr ihy =>
    rw [normalize_contract, Contract.withSides]
    split
    · exact Nat.zero_le n
    · obtain ⟨m, rfl⟩ := Nat.exists_eq_succ_of_ne_zero
        (Nat.ne_of_gt ((nesting_contract_pos body).trans_le h))
      obtain ⟨hr, hy⟩ := nesting_contract_le_iff.1 h
      exact nesting_contract_le_iff.2 ⟨ihr hr, ihy hy⟩

lemma nesting_pop?_le {head rest : Ty} (h : t.nesting ≤ n) (hpop : t.pop? = some (head, rest)) :
    head.nesting ≤ n ∧ rest.nesting ≤ n := by
  unfold pop? at hpop
  split at hpop <;> try cases hpop
  · have hall := List.forall_mem_cons.1 (nesting_seq_le_iff.1 h)
    exact ⟨hall.1, nesting_sequence_le hall.2⟩
  · exact ⟨(nesting_list_le_iff.1 h).1, h⟩
  · split at hpop <;> cases hpop
    have he := (nesting_list_le_iff.1 h).1
    exact ⟨he, nesting_listOf_le he (nesting_eval_le (by simp [nesting]))⟩
  · obtain ⟨he, hl⟩ := nesting_list_le_iff.1 h
    exact ⟨he, nesting_listOf_le he (nesting_eval_le (List.forall_mem_singleton.2 hl))⟩
  all_goals exact ⟨h, Nat.zero_le n⟩

lemma nesting_streamMembers_le (h : t.nesting ≤ n) : ∀ u ∈ t.streamMembers, u.nesting ≤ n := by
  unfold streamMembers
  split
  · split
    · intro u hu
      rw [List.eq_of_mem_replicate hu]
      exact (nesting_list_le_iff.1 h).1
    · exact List.forall_mem_singleton.2 h
  · unfold items
    split
    · exact List.forall_mem_nil _
    · exact nesting_seq_le_iff.1 h
    · exact List.forall_mem_singleton.2 h

lemma nesting_concat_le (ht : t.nesting ≤ n) (hu : u.nesting ≤ n) : (t.concat u).nesting ≤ n := by
  unfold concat
  split
  · exact hu
  · exact ht
  · refine nesting_sequence_le fun v hv => ?_
    exact (List.mem_append.1 hv).elim (nesting_streamMembers_le ht v)
      (nesting_streamMembers_le hu v)

end Ty

/-! ### Plain contracts -/

/-- The value is plain, and contracts are nested in it at most `n` deep. -/
structure Ty.PlainWithin (n : Nat) (t : Ty) : Prop where
  plain : t.IsPlain
  nesting : t.nesting ≤ n

/-- Both sides of the contract are plain, and contracts are nested in them at most `n` deep. -/
structure Contract.PlainWithin (n : Nat) (c : Contract) : Prop where
  receives : c.receives.PlainWithin n
  yields : c.yields.PlainWithin n

namespace Ty

variable {t u : Ty} {n : Nat}

lemma plainWithin_void : (Ty.void).PlainWithin n := ⟨within_void, Nat.zero_le n⟩

namespace PlainWithin

lemma normalize (h : t.PlainWithin n) : t.normalize.PlainWithin n :=
  ⟨Within.normalize h.plain, nesting_normalize_le h.nesting⟩

/-- There is nothing to substitute in a plain value. -/
lemma subst (h : t.PlainWithin n) (b : Bindings) : (t.subst b).PlainWithin n := by
  rw [h.plain.subst_eq]
  exact h.normalize

lemma pop? {head rest : Ty} (h : t.PlainWithin n) (hpop : t.pop? = some (head, rest)) :
    head.PlainWithin n ∧ rest.PlainWithin n := by
  obtain ⟨hhead, hrest⟩ := Within.pop? h.plain hpop
  obtain ⟨hhead', hrest'⟩ := nesting_pop?_le h.nesting hpop
  exact ⟨⟨hhead, hhead'⟩, ⟨hrest, hrest'⟩⟩

lemma concat (ht : t.PlainWithin n) (hu : u.PlainWithin n) : (t.concat u).PlainWithin n :=
  ⟨Within.concat ht.plain hu.plain, nesting_concat_le ht.nesting hu.nesting⟩

lemma sequence {ts : List Ty} (h : ∀ t ∈ ts, t.PlainWithin n) :
    (Ty.sequence ts).PlainWithin n :=
  ⟨within_sequence fun t ht => (h t ht).plain, nesting_sequence_le fun t ht => (h t ht).nesting⟩

end PlainWithin

/-- The contracts of a value are nested no deeper than the value. -/
lemma nesting_contracts?_le {contracts : List Contract} (h : t.contracts? = some contracts) :
    ∀ c ∈ contracts, (Ty.contract c).nesting ≤ t.nesting := by
  unfold contracts? at h
  split at h
  · cases h
    exact List.forall_mem_singleton.2 (Nat.le_refl _)
  · cases h
  · rename_i items _
    intro c hc
    have hmem : Ty.contract c ∈ items := eq_map_of_mapM_contract? h ▸ List.mem_map_of_mem hc
    exact nesting_tuple_le_iff.1 (Nat.le_refl _) _ hmem
  · cases h

/-- The contracts that a plain value starts have plain sides, in which contracts are nested less
deeply than in the value. -/
lemma IsPlain.exists_nesting_eq_succ {contracts : List Contract} (h : t.IsPlain)
    (hcontracts : t.contracts? = some contracts) :
    ∃ n, t.nesting = n + 1 ∧ ∀ c ∈ contracts, c.PlainWithin n := by
  have hle := nesting_contracts?_le hcontracts
  obtain ⟨c, hc⟩ := List.exists_mem_of_ne_nil _ (ne_nil_of_contracts? hcontracts)
  obtain ⟨n, hn⟩ := Nat.exists_eq_succ_of_ne_zero
    (Nat.ne_of_gt ((nesting_contract_pos c).trans_le (hle c hc)))
  refine ⟨n, hn, fun c hc => ?_⟩
  obtain ⟨-, hr, hy⟩ := within_contract.1 (Within.contracts? h hcontracts c hc)
  obtain ⟨hr', hy'⟩ := nesting_contract_le_iff.1 (hn ▸ hle c hc)
  exact ⟨⟨hr, hr'⟩, ⟨hy, hy'⟩⟩

end Ty

namespace Contract

variable {c : Contract} {n : Nat}

lemma PlainWithin.mono {m : Nat} (h : c.PlainWithin n) (hnm : n ≤ m) : c.PlainWithin m :=
  ⟨⟨h.receives.plain, h.receives.nesting.trans hnm⟩, ⟨h.yields.plain, h.yields.nesting.trans hnm⟩⟩

/-- Substituting any bindings leaves plain sides as they are up to normal form, or void. -/
lemma PlainWithin.subst (h : c.PlainWithin n) (b : Bindings) : (c.subst b).PlainWithin n := by
  rcases c.subst_sides b with ⟨hr, hy⟩ | ⟨hr, hy⟩
  · exact ⟨hr ▸ Ty.plainWithin_void, hy ▸ Ty.plainWithin_void⟩
  · exact ⟨hr ▸ h.receives.subst b, hy ▸ h.yields.subst b⟩

lemma PlainWithin.output {vs : List Ty} (h : ∀ v ∈ vs, v.PlainWithin n) :
    (Contract.of .void (Ty.sequence vs)).PlainWithin n :=
  ⟨Ty.plainWithin_void, (Ty.PlainWithin.sequence h).normalize⟩

/-- Contracts with plain sides keep them, whatever the bindings are, and contracts do not get nested
more deeply. -/
theorem law_plainWithin (n : Nat) :
    Contract.Law (Contract.PlainWithin n) (Ty.PlainWithin n) (fun _ => True) where
  subst _ h := h.subst _
  freshen _ _ h := h.subst _
  produce _ h hyielded := by
    obtain ⟨-, -, rest, hpop, hsuccessor⟩ := produce?_eq_some_iff.1 hyielded
    obtain ⟨hvalue, hrest⟩ := (h.yields.subst _).pop? hpop
    refine ⟨hvalue, ?_⟩
    rw [hsuccessor]
    exact ⟨Ty.plainWithin_void, hrest.normalize⟩
  accept _ h _ hreceived := by
    obtain ⟨head, rest, found, hpop, -, -, -, -, hsuccessor⟩ := accept?_eq_some_iff.1 hreceived
    refine ⟨?_, trivial⟩
    rw [hsuccessor]
    exact ⟨(h.receives.pop? hpop).2, h.yields⟩
  append h hvalue :=
    ⟨h.receives, h.yields.concat (Ty.PlainWithin.sequence (List.forall_mem_singleton.2 hvalue))⟩
  contracts hvalue hcontracts c hc := by
    obtain ⟨m, hm, hplain⟩ := hvalue.plain.exists_nesting_eq_succ hcontracts
    have hle : m ≤ n := by
      have hnesting := hvalue.nesting
      omega
    exact (hplain c hc).mono hle
  output h := PlainWithin.output h
  andThen h hc :=
    ⟨(PlainWithin.output h).receives.concat hc.receives,
      (PlainWithin.output h).yields.concat hc.yields⟩

end Contract

end ContractComposition
