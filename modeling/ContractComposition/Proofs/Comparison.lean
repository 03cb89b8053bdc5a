import ContractComposition.Proofs.Equality

/-!
# The order of values is lawful

Tables of exclusions keep their tuples in the order of values, and take tuples for equal that the
order does not tell apart. So the order has to fit the equality of values, although the two are
defined separately, and contracts are compared by their sides in both of them. It does
(`order_of_values_is_lawful`): it finds values equal exactly if they are equal, exchanging the
values reverses the result, and it is transitive.

Values of different kinds are told apart by their rank, so only values of one kind have to be looked
at. These are compared part by part, and the first difference decides. Transitivity alone would not
carry an induction over this, since the parts of three values may differ at different places. What
does is `Consistent`: smaller than a smaller one is smaller, and a value may be replaced by one that
compares equal to it.
-/

namespace ContractComposition

/-! ### Three comparisons -/

/-- The results of comparing `a` with `b`, `b` with `c` and `a` with `c` fit together. -/
structure Consistent (ab bc ac : Ordering) : Prop where
  lt : ab = .lt → bc = .lt → ac = .lt
  left : ab = .eq → ac = bc
  right : bc = .eq → ac = ab

/-- Comparing part by part is consistent if comparing the parts is. -/
lemma Consistent.then {ab bc ac ab' bc' ac' : Ordering} (h : Consistent ab bc ac)
    (h' : Consistent ab' bc' ac') :
    Consistent (ab.then ab') (bc.then bc') (ac.then ac') where
  lt hab hbc := by
    rw [Ordering.then_eq_lt] at hab hbc ⊢
    rcases hab with hab | ⟨hab, hab'⟩
    · rcases hbc with hbc | ⟨hbc, -⟩
      · exact .inl (h.lt hab hbc)
      · exact .inl ((h.right hbc).trans hab)
    · rcases hbc with hbc | ⟨hbc, hbc'⟩
      · exact .inl ((h.left hab).trans hbc)
      · exact .inr ⟨(h.left hab).trans hbc, h'.lt hab' hbc'⟩
  left hab := by
    obtain ⟨hab, hab'⟩ := Ordering.then_eq_eq.1 hab
    rw [h.left hab, h'.left hab']
  right hbc := by
    obtain ⟨hbc, hbc'⟩ := Ordering.then_eq_eq.1 hbc
    rw [h.right hbc, h'.right hbc']

lemma consistent_compare {α : Type} [Ord α] [Std.TransOrd α] (a b c : α) :
    Consistent (compare a b) (compare b c) (compare a c) where
  lt := Std.TransCmp.lt_trans
  left := Std.TransCmp.congr_left
  right h := (Std.TransCmp.congr_right h).symm

lemma LengthFn.consistent_cmp (f g k : LengthFn) :
    Consistent (f.cmp g) (g.cmp k) (f.cmp k) := by
  cases f <;> cases g <;> cases k <;> constructor <;> decide

/-- A comparison is transitive if exchanging two values reverses it and comparing any three values
gives results that fit together. -/
lemma transCmp_of_consistent {α : Type} {cmp : α → α → Ordering}
    (swap : ∀ a b, cmp b a = (cmp a b).swap)
    (consistent : ∀ a b c, Consistent (cmp a b) (cmp b c) (cmp a c)) : Std.TransCmp cmp where
  eq_swap := swap _ _
  isLE_trans {a b c} hab hbc := by
    have h : Consistent (cmp a b) (cmp b c) (cmp a c) := consistent a b c
    rcases Ordering.isLE_iff_eq_lt_or_eq_eq.1 hab with hab | hab
    · rcases Ordering.isLE_iff_eq_lt_or_eq_eq.1 hbc with hbc | hbc
      · rw [h.lt hab hbc]
        rfl
      · rw [h.right hbc, hab]
        rfl
    · rw [h.left hab]
      exact hbc

namespace Ty

/-! ### Values of different kinds -/

lemma cmp_of_rank_ne {a b : Ty} (h : a.rank ≠ b.rank) : a.cmp b = compare a.rank b.rank := by
  cases a <;> cases b <;> first | rfl | exact absurd rfl h

/-- Only values of one kind have to be looked at for comparisons to be consistent. -/
lemma consistent_of_rank_eq {a b c : Ty}
    (h : a.rank = b.rank → b.rank = c.rank → Consistent (a.cmp b) (b.cmp c) (a.cmp c)) :
    Consistent (a.cmp b) (b.cmp c) (a.cmp c) := by
  have hne : ∀ {m n : Nat}, m ≠ n → compare m n ≠ .eq := fun hmn h => hmn (Nat.compare_eq_eq.1 h)
  by_cases hab : a.rank = b.rank
  · by_cases hbc : b.rank = c.rank
    · exact h hab hbc
    · have hac : a.rank ≠ c.rank := fun hac => hbc (hab.symm.trans hac)
      rw [cmp_of_rank_ne hbc, cmp_of_rank_ne hac, hab]
      exact ⟨fun _ hlt => hlt, fun _ => rfl, fun heq => absurd heq (hne hbc)⟩
  · rw [cmp_of_rank_ne hab]
    by_cases hbc : b.rank = c.rank
    · have hac : a.rank ≠ c.rank := fun hac => hab (hac.trans hbc.symm)
      rw [cmp_of_rank_ne hac, hbc]
      exact ⟨fun hlt _ => hlt, fun heq => absurd heq (hne hac), fun _ => rfl⟩
    · rw [cmp_of_rank_ne hbc]
      refine ⟨fun hlt hlt' => ?_, fun heq => absurd heq (hne hab), fun heq => absurd heq (hne hbc)⟩
      have hac : a.rank < c.rank :=
        Nat.lt_trans (Nat.compare_eq_lt.1 hlt) (Nat.compare_eq_lt.1 hlt')
      rw [cmp_of_rank_ne (Nat.ne_of_lt hac)]
      exact Nat.compare_eq_lt.2 hac

/-! ### Values of one kind -/

lemma cmp_contract (c d : Contract) : (Ty.contract c).cmp (.contract d) =
    (c.receives.cmp d.receives).then (c.yields.cmp d.yields) := by
  cases c
  rfl

lemma consistent_cmpAll_of_forall {as : List Ty}
    (ih : ∀ a ∈ as, ∀ b c, Consistent (a.cmp b) (b.cmp c) (a.cmp c)) (bs cs : List Ty) :
    Consistent (cmpAll as bs) (cmpAll bs cs) (cmpAll as cs) := by
  induction as generalizing bs cs with
  | nil => cases bs <;> cases cs <;> constructor <;> simp [cmpAll]
  | cons a as ihas =>
    obtain ⟨ha, has⟩ := List.forall_mem_cons.1 ih
    cases bs with
    | nil => cases cs <;> constructor <;> simp [cmpAll]
    | cons b bs =>
      cases cs with
      | nil => constructor <;> simp [cmpAll]
      | cons c cs => exact (ha b c).then (ihas has bs cs)

/-- Comparing three values with each other gives results that fit together. -/
theorem consistent_cmp (a b c : Ty) : Consistent (a.cmp b) (b.cmp c) (a.cmp c) := by
  induction a generalizing b c with
  | void | star =>
    refine consistent_of_rank_eq fun hb hc => ?_
    cases b <;> cases hb
    cases c <;> cases hc
    constructor <;> decide
  | const x | var x | int x =>
    refine consistent_of_rank_eq fun hb hc => ?_
    cases b <;> cases hb
    cases c <;> cases hc
    exact consistent_compare _ _ _
  | seq as ih | tuple as ih =>
    refine consistent_of_rank_eq fun hb hc => ?_
    cases b <;> cases hb
    cases c <;> cases hc
    exact consistent_cmpAll_of_forall ih _ _
  | func fn as ih =>
    refine consistent_of_rank_eq fun hb hc => ?_
    cases b <;> cases hb
    cases c <;> cases hc
    exact (fn.consistent_cmp _ _).then (consistent_cmpAll_of_forall ih _ _)
  | list element length ihe ihl =>
    refine consistent_of_rank_eq fun hb hc => ?_
    cases b <;> cases hb
    cases c <;> cases hc
    exact (ihe _ _).then (ihl _ _)
  | contract body ihr ihy =>
    refine consistent_of_rank_eq fun hb hc => ?_
    cases b <;> cases hb
    cases c <;> cases hc
    simp only [cmp_contract]
    exact (ihr _ _).then (ihy _ _)

/-! ### Exchanging the values -/

lemma cmpAll_swap_of_forall {as : List Ty} (ih : ∀ a ∈ as, ∀ b, b.cmp a = (a.cmp b).swap)
    (bs : List Ty) : cmpAll bs as = (cmpAll as bs).swap := by
  induction as generalizing bs with
  | nil => cases bs <;> rfl
  | cons a as ihas =>
    obtain ⟨ha, has⟩ := List.forall_mem_cons.1 ih
    cases bs with
    | nil => rfl
    | cons b bs => rw [cmpAll, cmpAll, Ordering.swap_then, ha, ihas has]

/-- Exchanging two values reverses the result of comparing them. -/
theorem cmp_swap (a b : Ty) : b.cmp a = (a.cmp b).swap := by
  induction a generalizing b with
  | void | star => cases b <;> rfl
  | const x =>
    cases b with
    | const y => exact Std.OrientedOrd.eq_swap
    | _ => rfl
  | var x =>
    cases b with
    | var y => exact Std.OrientedOrd.eq_swap
    | _ => rfl
  | int x =>
    cases b with
    | int y => exact Std.OrientedOrd.eq_swap
    | _ => rfl
  | seq as ih =>
    cases b with
    | seq bs => exact cmpAll_swap_of_forall ih bs
    | _ => rfl
  | tuple as ih =>
    cases b with
    | tuple bs => exact cmpAll_swap_of_forall ih bs
    | _ => rfl
  | func fn as ih =>
    cases b with
    | func fn' bs =>
      have hfn : fn'.cmp fn = (fn.cmp fn').swap := by cases fn <;> cases fn' <;> rfl
      rw [cmp, cmp, Ordering.swap_then, hfn, cmpAll_swap_of_forall ih]
    | _ => rfl
  | list element length ihe ihl =>
    cases b with
    | list element' length' => rw [cmp, cmp, Ordering.swap_then, ihe, ihl]
    | _ => rfl
  | contract body ihr ihy =>
    cases b with
    | contract other => rw [cmp_contract, cmp_contract, Ordering.swap_then, ihr, ihy]
    | _ => rfl

instance : Std.TransCmp cmp :=
  transCmp_of_consistent cmp_swap consistent_cmp

instance : Std.TransCmp cmpAll :=
  transCmp_of_consistent (fun _ bs => cmpAll_swap_of_forall (fun a _ => cmp_swap a) bs)
    fun _ bs cs => consistent_cmpAll_of_forall (fun a _ => consistent_cmp a) bs cs

/-! ### Equality -/

/-- The order does not tell values apart exactly if they are equal. -/
theorem cmp_eq_iff (a b : Ty) : a.cmp b = .eq ↔ a.beq b = true := by
  rw [beq_iff_bare_eq]
  refine ⟨bare_eq_of_cmp_eq, fun h => ?_⟩
  rw [← redecorates_bare.cmp_eq, h]
  exact Std.ReflCmp.compare_self

lemma cmpAll_eq_iff (as bs : List Ty) : cmpAll as bs = .eq ↔ beqAll as bs = true := by
  rw [beqAll_iff_bare_eq]
  refine ⟨map_bare_eq_of_cmpAll_eq, fun h => ?_⟩
  rw [← redecorates_bare.cmpAll_eq, h]
  exact Std.ReflCmp.compare_self

end Ty

/-! ### Main result -/

/-- A comparison that is lawful for an equality: a total preorder that is antisymmetric up to it. -/
structure LawfulComparison {α : Type} (cmp : α → α → Ordering) (equal : α → α → Bool) : Prop where
  /-- What compares equal is equal, and the other way round. -/
  eq_iff : ∀ a b, cmp a b = .eq ↔ equal a b = true
  /-- Exchanging the two reverses the result. -/
  swap : ∀ a b, cmp b a = (cmp a b).swap
  /-- What is smaller than a smaller one is smaller. -/
  lt_trans : ∀ a b c, cmp a b = .lt → cmp b c = .lt → cmp a c = .lt
  /-- What is not greater than one that is not greater is not greater. -/
  le_trans : ∀ a b c, (cmp a b).isLE = true → (cmp b c).isLE = true → (cmp a c).isLE = true
  /-- One of any two is not greater than the other. -/
  le_total : ∀ a b, (cmp a b).isLE = true ∨ (cmp b a).isLE = true

lemma LawfulComparison.of_transCmp {α : Type} {cmp : α → α → Ordering} {equal : α → α → Bool}
    [Std.TransCmp cmp] (eq_iff : ∀ a b, cmp a b = .eq ↔ equal a b = true) :
    LawfulComparison cmp equal where
  eq_iff := eq_iff
  swap _ _ := Std.OrientedCmp.eq_swap
  lt_trans _ _ _ := Std.TransCmp.lt_trans
  le_trans _ _ _ := Std.TransCmp.isLE_trans
  le_total a b := by
    have hswap : cmp b a = (cmp a b).swap := Std.OrientedCmp.eq_swap
    rw [hswap]
    cases cmp a b <;> simp

/-- The order of values is lawful, and so is that of lists of values: a total preorder that is
antisymmetric up to the equality of values, which looks at the sides of contracts only. Values
compare equal exactly if they are equal, exchanging two values reverses the result, and what is
smaller than a smaller value is smaller. -/
theorem order_of_values_is_lawful :
    LawfulComparison Ty.cmp Ty.beq ∧ LawfulComparison Ty.cmpAll Ty.beqAll :=
  ⟨.of_transCmp Ty.cmp_eq_iff, .of_transCmp Ty.cmpAll_eq_iff⟩

end ContractComposition
