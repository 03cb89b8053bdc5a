import ContractComposition.Proofs.Equality

/-!
# Matching finds instances

If the variables of a pattern are replaced by values, the result matches the pattern, and the match
gives the values back (`Ty.matching?_recovers_bindings`). The pattern may well contain unknown
lengths, variables that occur more than once and variables that are not replaced.

This takes values that leave everything around them as it is. Putting `void` or a sequence into a
sequence changes its members, and putting a number into a length may evaluate it; but a constant, a
tuple, a list or a contract is one member of a sequence and no length. If all values are of this
kind, an instance of a pattern in normal form is in normal form as it stands (`Ty.IsNormal.expand`).
So it has the shape of the pattern, and the match follows the pattern, one lemma for each kind.
-/

namespace ContractComposition

namespace Ty

/-- Whether the value is a constant, a tuple, a list or a contract. -/
def isSolid : Ty → Bool
  | .const _ => true
  | .tuple _ => true
  | .list _ _ => true
  | .contract _ => true
  | _ => false

/-- A constant, a tuple, a list or a contract, in normal form, without variables and constraints. -/
structure IsSolid (t : Ty) : Prop where
  plain : t.IsPlain
  normal : t.normalize = t
  kind : t.isSolid = true

/-- Putting the value in for a variable leaves everything around it as it is. -/
structure Neutral (t : Ty) : Prop where
  isMember : t.IsMember
  isStar : t.isStar = false
  int? : t.int? = none
  normal : t.IsNormal

/-! ### Instances of normal forms -/

lemma neutral_var (x : String) : (Ty.var x).Neutral :=
  ⟨⟨rfl, rfl⟩, rfl, rfl, trivial⟩

lemma IsSolid.neutral {t : Ty} (h : t.IsSolid) : t.Neutral := by
  have hnormal : t.IsNormal := h.normal ▸ t.isNormal_normalize
  cases t with
  | const | tuple | list | contract => exact ⟨⟨rfl, rfl⟩, rfl, rfl, hnormal⟩
  | void | var | int | star | seq | func => cases h.kind

lemma Neutral.withSource {t : Ty} (h : t.Neutral) (x : String) : (t.withSource x).Neutral := by
  unfold Ty.withSource
  split
  · split
    · have hnormal := isNormal_contract.1 h.normal
      exact ⟨⟨rfl, rfl⟩, rfl, rfl, isNormal_contract.2 hnormal⟩
    · exact h
  · exact h

variable {look : Nat → String → Ty}

/-- Replacing variables by neutral values changes neither whether a value is a member of a sequence
nor whether it is a length. -/
lemma Within.expand_kind {t : Ty}
    (h : t.Within (Parts.unconstrained.withVars fun x => ∀ depth, (look depth x).Neutral))
    (depth : Nat) :
    (t.IsMember → (t.expand look depth).IsMember) ∧
      ((t.expand look depth).isVoid = t.isVoid) ∧
      ((t.expand look depth).isStar = t.isStar) ∧ (t.expand look depth).int? = t.int? := by
  cases t with
  | var x =>
    have hx : (look depth x).Neutral := h depth
    exact ⟨fun _ => hx.isMember, hx.isMember.1, hx.isStar, hx.int?⟩
  | void | const | int | star | seq | tuple | list | func | contract =>
    exact ⟨fun hmember => hmember, rfl, rfl, rfl⟩

end Ty

/-- A stuck length function stays so if other arguments than lengths are replaced by other values
than lengths. -/
lemma LengthFn.Stuck.map {fn : LengthFn} {args : List Ty} {f : Ty → Ty} (h : fn.Stuck args)
    (hstar : ∀ t ∈ args, (f t).isStar = t.isStar) (hint : ∀ t ∈ args, (f t).int? = t.int?) :
    fn.Stuck (args.map f) := by
  refine ⟨List.forall_mem_map.2 fun t ht => (hstar t ht).trans (h.1 t ht), ?_⟩
  cases fn with
  | min =>
    refine h.2.imp ?_ ?_
    · rintro rfl
      rfl
    · rintro ⟨t, ht, hnone⟩
      exact ⟨f t, List.mem_map_of_mem ht, (hint t ht).trans hnone⟩
  | dec =>
    intro n heq
    obtain ⟨t, rfl, hft⟩ := List.map_eq_singleton_iff.1 heq
    have ht : t.int? = some n := by
      rw [← hint t List.mem_cons_self, hft]
      rfl
    cases t with
    | int m => exact h.2 n (by rw [Option.some.inj ht])
    | void | const | var | star | seq | tuple | list | func | contract => cases ht

namespace Ty

variable {look : Nat → String → Ty}

/-- Replacing the variables of a normal form by neutral values gives a normal form. -/
lemma IsNormal.expand {t : Ty} (hnormal : t.IsNormal)
    (h : t.Within (Parts.unconstrained.withVars fun x => ∀ depth, (look depth x).Neutral))
    (depth : Nat) : (t.expand look depth).IsNormal := by
  induction t generalizing depth with
  | void | const | int | star => trivial
  | var x => exact (h depth).normal
  | seq items ih =>
    obtain ⟨hshape, hmember, hitems⟩ := hnormal
    have hparts := within_seq.1 h
    rw [Ty.expand, expandAll_eq_map]
    refine ⟨?_, ?_, allNormal_iff.2 (List.forall_mem_map.2 fun t ht => ?_)⟩
    · rw [List.length_map]
      refine hshape.imp_right ?_
      rintro ⟨element, length, rfl⟩
      exact ⟨_, _, rfl⟩
    · exact List.forall_mem_map.2 fun t ht =>
        ((hparts t ht).expand_kind depth).1 (hmember t ht)
    · exact ih t ht (allNormal_iff.1 hitems t ht) (hparts t ht) depth
  | tuple items ih =>
    rw [Ty.expand, expandAll_eq_map]
    refine allNormal_iff.2 (List.forall_mem_map.2 fun t ht => ?_)
    exact ih t ht (allNormal_iff.1 hnormal t ht) (within_tuple.1 h t ht) depth
  | func fn args ih =>
    have hparts := within_func.1 h
    rw [Ty.expand, expandAll_eq_map]
    refine ⟨?_, allNormal_iff.2 (List.forall_mem_map.2 fun t ht => ?_)⟩
    · exact hnormal.1.map (fun t ht => ((hparts t ht).expand_kind depth).2.2.1)
        fun t ht => ((hparts t ht).expand_kind depth).2.2.2
    · exact ih t ht (allNormal_iff.1 hnormal.2 t ht) (hparts t ht) depth
  | list element length ihe ihl =>
    obtain ⟨hpositive, he, hl⟩ := hnormal
    refine ⟨fun n hn => hpositive n ?_, ihe he h.1 depth, ihl hl h.2 depth⟩
    rw [← hn]
    exact (h.2.expand_kind depth).2.2.2.symm
  | contract body ihr ihy =>
    obtain ⟨hsides, hr, hy⟩ := isNormal_contract.1 hnormal
    obtain ⟨hc, hpartsr, hpartsy⟩ := within_contract.1 h
    obtain ⟨hcondition, hforbidden⟩ := hc.resolve_left id
    have hr' := ihr hr hpartsr 0
    have hy' := ihy hy hpartsy 0
    rw [expand_contract_of_unconstrained hcondition hforbidden, isNormal_contract]
    dsimp only
    rw [hr'.normalize_eq, hy'.normalize_eq, ← isVoid_iff, ← isVoid_iff,
      (hpartsr.expand_kind 0).2.1, (hpartsy.expand_kind 0).2.1, isVoid_iff, isVoid_iff]
    exact ⟨hsides, hr', hy'⟩

/-- An instance of a normal form with neutral values need not be normalized. -/
lemma IsNormal.normalize_expand_eq {t : Ty} (hnormal : t.IsNormal)
    (h : t.Within .unconstrained) (hlook : ∀ x depth, (look depth x).Neutral) :
    (t.expand look 0).normalize = t.expand look 0 := by
  have hparts : t.Within (Parts.unconstrained.withVars fun x => ∀ depth, (look depth x).Neutral) :=
    within_withVars_iff.2 ⟨h, fun x _ => hlook x⟩
  exact (hnormal.expand hparts 0).normalize_eq

/-- Nothing is replaced in a solid value. -/
lemma IsSolid.expand_eq {t : Ty} (h : t.IsSolid) (look : Nat → String → Ty) (depth : Nat) :
    t.expand look depth = t := by
  have hnormal : (t.expand look depth).IsNormal :=
    h.neutral.normal.expand (h.plain.mono (Parts.ground_le_withVars _ _)) depth
  calc t.expand look depth = (t.expand look depth).normalize := hnormal.normalize_eq.symm
    _ = t.normalize := h.plain.normalize_expand look depth
    _ = t := h.normal

end Ty

namespace Bindings

/-- All values of the table are solid. -/
def IsSolid (b : Bindings) : Prop :=
  ∀ x t, b.find? x = some t → t.IsSolid

variable {b : Bindings}

/-- A variable that is bound to a solid value stands for it. -/
lemma IsSolid.look_eq (hb : b.IsSolid) {x : String} {t : Ty} (hx : b.find? x = some t) :
    b.look 0 x = t.withSource x := by
  obtain ⟨bound, hlook⟩ := look_zero_of_find?_eq_some hx
  rw [hlook, (hb x t hx).expand_eq]

/-- Under solid bindings every variable stands for a neutral value. -/
lemma IsSolid.neutral_look (hb : b.IsSolid) (x : String) (depth : Nat) :
    (b.look depth x).Neutral := by
  obtain ⟨bound, hbound⟩ := b.chainBound_eq_succ
  rw [look, hbound, lookWithin]
  split
  · exact Ty.neutral_var x
  · rename_i t ht
    split
    · exact Ty.neutral_var x
    · rw [(hb x t ht).expand_eq]
      exact (hb x t ht).neutral.withSource x

/-! ### Parts of a table -/

/-- What is found binds the variables among `names` that have a value, to this value, and no
others. -/
def Recovers (value : String → Option Ty) (names : List String) (found : Bindings) : Prop :=
  ∀ x, found.find? x = if x ∈ names then value x else none

variable {value : String → Option Ty}

lemma recovers_empty : Recovers value [] ∅ := fun _ => rfl

/-- What is found of the same values can be joined. -/
lemma Recovers.exists_join? {names names' : List String} {found more : Bindings}
    (hfound : Recovers value names found) (hmore : Recovers value names' more) :
    ∃ joined, found.join? more = some joined ∧ Recovers value (names ++ names') joined := by
  have hagree : ∀ x t u, found.find? x = some t → more.find? x = some u →
      (t.normalize == u.normalize) = true := by
    intro x t u ht hu
    rw [hfound x, Option.ite_none_right_eq_some] at ht
    rw [hmore x, Option.ite_none_right_eq_some] at hu
    have htu : some t = some u := ht.2.symm.trans hu.2
    rw [Option.some.inj htu]
    exact Ty.beq_iff_bare_eq.2 rfl
  obtain ⟨joined, hjoined⟩ := exists_join?_of_agree hagree
  refine ⟨joined, hjoined, fun x => ?_⟩
  rw [find?_join? hjoined, hfound x, hmore x]
  by_cases hx : x ∈ names <;> by_cases hx' : x ∈ names' <;> simp [hx, hx']

end Bindings

namespace Ty

variable {look : Nat → String → Ty} {value : String → Option Ty}

/-! ### Matching instances -/

/-- The pattern matches the value, and the match recovers the values of the variables of the
pattern. -/
def Finds (value : String → Option Ty) (pattern offered : Ty) : Prop :=
  ∃ found, pattern.matching? offered = some found ∧
    Bindings.Recovers value pattern.occurrences found

/-- Matching values one by one recovers the values of all variables, if each match does so. -/
lemma exists_matchingAll? {f : Ty → Ty} {patterns : List Ty}
    (h : ∀ p ∈ patterns, Finds value p (f p)) {names : List String} {found : Bindings}
    (hfound : Bindings.Recovers value names found) :
    ∃ result, matchingAll? found patterns (patterns.map f) = some result ∧
      Bindings.Recovers value (names ++ occurrencesAll patterns) result := by
  induction patterns generalizing names found with
  | nil => exact ⟨found, rfl, by rwa [occurrencesAll, List.append_nil]⟩
  | cons p ps ih =>
    obtain ⟨⟨more, hmatch, hmore⟩, hps⟩ := List.forall_mem_cons.1 h
    obtain ⟨joined, hjoin, hjoined⟩ := hfound.exists_join? hmore
    obtain ⟨result, hresult, hrecovers⟩ := ih hps hjoined
    refine ⟨result, ?_, by rwa [occurrencesAll, ← List.append_assoc]⟩
    rw [List.map_cons, matchingAll?, hmatch, Option.bind_eq_bind, Option.bind_some, hjoin]
    exact hresult

/-- Matching two values recovers the values of the variables of both patterns. -/
lemma Finds.exists_join? {p q u v : Ty} (hp : Finds value p u) (hq : Finds value q v) :
    ∃ joined, ((p.matching? u).bind fun found => (q.matching? v).bind fun more =>
        found.join? more) = some joined ∧
      Bindings.Recovers value (p.occurrences ++ q.occurrences) joined := by
  obtain ⟨found, hmatch, hfound⟩ := hp
  obtain ⟨more, hmatch', hmore⟩ := hq
  obtain ⟨joined, hjoin, hjoined⟩ := hfound.exists_join? hmore
  refine ⟨joined, ?_, hjoined⟩
  rw [hmatch, Option.bind_some, hmatch', Option.bind_some, hjoin]

/-- Replacing the variables of a pattern in normal form by neutral values gives a value that it
matches. What has to be known is how it is for a variable on its own. -/
lemma IsNormal.finds_expand {pattern : Ty} (hnormal : pattern.IsNormal)
    (h : pattern.Within .unconstrained) (hlook : ∀ x depth, (look depth x).Neutral)
    (hvar : ∀ x, Finds value (.var x) (look 0 x)) :
    Finds value pattern (pattern.expand look 0) := by
  have hempty : Bindings.Recovers value [] ∅ := Bindings.recovers_empty
  induction pattern with
  | void => exact ⟨∅, rfl, hempty⟩
  | star => exact ⟨∅, rfl, hempty⟩
  | const name => exact ⟨∅, if_pos rfl, hempty⟩
  | int n => exact ⟨∅, if_pos rfl, hempty⟩
  | var x => exact hvar x
  | seq items ih =>
    have hitems := fun t ht => ih t ht (allNormal_iff.1 hnormal.2.2 t ht) (within_seq.1 h t ht)
    obtain ⟨found, hmatch, hfound⟩ := exists_matchingAll? hitems hempty
    refine ⟨found, ?_, hfound⟩
    rwa [Ty.expand, expandAll_eq_map, matching?]
  | tuple items ih =>
    have hitems := fun t ht => ih t ht (allNormal_iff.1 hnormal t ht) (within_tuple.1 h t ht)
    obtain ⟨found, hmatch, hfound⟩ := exists_matchingAll? hitems hempty
    refine ⟨found, ?_, hfound⟩
    rwa [Ty.expand, expandAll_eq_map, matching?]
  | func fn args ih =>
    have hargs := fun t ht => ih t ht (allNormal_iff.1 hnormal.2 t ht) (within_func.1 h t ht)
    obtain ⟨found, hmatch, hfound⟩ := exists_matchingAll? hargs hempty
    refine ⟨found, ?_, hfound⟩
    rwa [Ty.expand, expandAll_eq_map, matching?, if_pos rfl]
  | list element length ihe ihl =>
    exact (ihe hnormal.2.1 h.1).exists_join? (ihl hnormal.2.2 h.2)
  | contract body ihr ihy =>
    obtain ⟨-, hr, hy⟩ := isNormal_contract.1 hnormal
    obtain ⟨hc, hpartsr, hpartsy⟩ := within_contract.1 h
    obtain ⟨hcondition, hforbidden⟩ := hc.resolve_left id
    obtain ⟨found, hmatch, hfound⟩ := (ihr hr hpartsr).exists_join? (ihy hy hpartsy)
    rw [expand_contract_of_unconstrained hcondition hforbidden,
      hr.normalize_expand_eq hpartsr hlook, hy.normalize_expand_eq hpartsy hlook]
    obtain ⟨receives, yields, condition, forbidden, source, restorable⟩ := body
    exact ⟨found, hmatch, hfound⟩

/-- Offering to a variable what it stands for under solid bindings recovers its value. -/
lemma finds_look {b : Bindings} (hb : b.IsSolid) (x : String) :
    Finds (fun y => (b.find? y).map (withSource y)) (.var x) (b.look 0 x) := by
  cases hx : b.find? x with
  | none =>
    rw [Bindings.look_of_find?_eq_none hx]
    refine ⟨∅, if_pos (beq_iff_bare_eq.2 rfl), fun y => ?_⟩
    by_cases hy : y = x
    · simp [occurrences, hy, hx]
    · simp [occurrences, hy]
  | some t =>
    have ht : t.IsSolid := hb x t hx
    have hvar : ¬(t.withSource x == .var x) = true := by
      have hkind := ht.kind
      unfold withSource
      split
      · split <;> exact Bool.false_ne_true
      · cases t with
        | const | tuple | list | contract => exact Bool.false_ne_true
        | void | var | int | star | seq | func => cases hkind
    have hoccurs : x ∉ (t.withSource x).occurrences := by
      have hplain : (t.withSource x).IsPlain := Within.withSource ht.plain x
      rw [List.isEmpty_iff.1 hplain.isGround]
      exact List.not_mem_nil
    rw [hb.look_eq hx]
    refine ⟨Bindings.bind ∅ x (t.withSource x), ?_, fun y => ?_⟩
    · rw [matching?, if_neg hvar, if_neg hoccurs]
    · rw [Bindings.bind, NameTable.find?_insert]
      by_cases hy : y = x
      · simp [occurrences, hy, hx]
      · simp [occurrences, hy]

/-- Matching is complete on instances. Let the pattern be in normal form and its contracts without
constraints, and let the bindings give solid values to variables. What becomes of the pattern
matches it, and the match binds exactly those variables of the pattern that the bindings bind, to
equal values. -/
theorem matching?_recovers_bindings {pattern : Ty} {b : Bindings}
    (hnormal : pattern.normalize = pattern) (hpattern : pattern.Within .unconstrained)
    (hb : b.IsSolid) :
    ∃ found, pattern.matching? (pattern.subst b) = some found ∧
      (∀ x, found.contains x = true ↔ x ∈ pattern.freeVars ∧ b.contains x = true) ∧
      ∀ x t u, found.find? x = some t → b.find? x = some u → (t == u) = true := by
  have hform : pattern.IsNormal := hnormal ▸ pattern.isNormal_normalize
  obtain ⟨found, hmatch, hfound⟩ := hform.finds_expand hpattern hb.neutral_look (finds_look hb)
  refine ⟨found, ?_, fun x => ?_, fun x t u ht hu => ?_⟩
  · rw [subst, hform.normalize_expand_eq hpattern hb.neutral_look, hmatch]
  · rw [NameTable.contains, NameTable.contains, hfound x, mem_freeVars]
    by_cases hx : x ∈ pattern.occurrences <;> simp [hx]
  · rw [hfound x, Option.ite_none_right_eq_some] at ht
    dsimp only at ht
    rw [hu, Option.map_some] at ht
    rw [← Option.some.inj ht.2]
    exact beq_iff_bare_eq.2 (bare_withSource x u)

/-- A list comes in for a member of a sequence and stays one member. A contract comes in twice, once
inside another contract; one variable is not bound, and a length is unknown. -/
theorem matching?_recovers_bindings_members :
    let pattern : Ty := .seq [.var "x", .var "y", .list (.var "z") .star,
      .contract { receives := .tuple [.var "y", .var "w"], yields := .void }]
    let b : Bindings := NameTable.ofList
      [("x", .list (.const "A") (.int 2)),
        ("y", .contract { receives := .void, yields := .const "B" }), ("z", .tuple [.void]),
        ("v", .const "C")]
    ∃ found, pattern.matching? (pattern.subst b) = some found ∧
      found.contains "y" = true ∧ found.contains "w" = false ∧
      ∀ x t u, found.find? x = some t → b.find? x = some u → (t == u) = true := by
  intro pattern b
  have hpattern : pattern.Within .unconstrained := by simp [pattern, Parts.unconstrained]
  have hb : b.IsSolid := by
    refine NameTable.forall_find?_ofList ?_
    simp only [List.forall_mem_cons, List.not_mem_nil, false_implies, implies_true, and_true]
    refine ⟨⟨?_, rfl, rfl⟩, ⟨?_, rfl, rfl⟩, ⟨?_, rfl, rfl⟩, ⟨?_, rfl, rfl⟩⟩
    all_goals simp [IsPlain, Parts.ground, Parts.withVars, Parts.unconstrained]
  obtain ⟨found, hmatch, hbound, hvalues⟩ := matching?_recovers_bindings rfl hpattern hb
  refine ⟨found, hmatch, (hbound "y").2 (by decide), ?_, hvalues⟩
  rw [Bool.eq_false_iff, Ne, hbound]
  decide

end Ty

end ContractComposition
