import ContractComposition.Proofs.Parts

/-!
# Normal forms

`Ty.IsNormal` says what a value in normal form looks like, without saying how to compute one. A
normal sequence has at least two members or is a single list, and none of its members is `void` or
a sequence; a list has a positive or a symbolic length; a length function is stuck; a contract has
something left to do; and all parts are normal. `Ty.normalize` makes a value normal
(`Ty.isNormal_normalize`) and leaves normal values alone (`Ty.IsNormal.normalize_eq`), so it is
idempotent.
-/

namespace ContractComposition

namespace Ty

/-- Whether the value is a sequence. -/
def isSeq : Ty → Bool
  | .seq _ => true
  | _ => false

/-- The value is one member of a sequence: neither nothing nor a sequence itself. -/
def IsMember (t : Ty) : Prop :=
  t.isVoid = false ∧ t.isSeq = false

end Ty

namespace LengthFn

/-- A length function that cannot be evaluated: no argument is an unknown length, and the arguments
are not the concrete ones that would give a concrete result. -/
def Stuck (fn : LengthFn) (args : List Ty) : Prop :=
  (∀ t ∈ args, t.isStar = false) ∧
    match fn with
    | .min => args = [] ∨ ∃ t ∈ args, t.int? = none
    | .dec => ∀ n, args ≠ [.int n]

end LengthFn

mutual

/-- The value is in normal form. -/
def Ty.IsNormal : Ty → Prop
  | .seq items =>
    (2 ≤ items.length ∨ ∃ element length, items = [.list element length]) ∧
      (∀ t ∈ items, t.IsMember) ∧ Ty.AllNormal items
  | .tuple items => Ty.AllNormal items
  | .list element length =>
    (∀ n, length.int? = some n → 0 < n) ∧ element.IsNormal ∧ length.IsNormal
  | .func fn args => fn.Stuck args ∧ Ty.AllNormal args
  | .contract body => body.IsNormal
  | .void => True
  | .const _ => True
  | .var _ => True
  | .int _ => True
  | .star => True

/-- The values of a list are in normal form. -/
def Ty.AllNormal : List Ty → Prop
  | [] => True
  | t :: ts => t.IsNormal ∧ Ty.AllNormal ts

/-- A contract value is in normal form: its sides are, and they are not both `void`. -/
def Contract.IsNormal : Contract → Prop
  | ⟨receives, yields, _, _, _, _⟩ =>
    ¬(receives = .void ∧ yields = .void) ∧ receives.IsNormal ∧ yields.IsNormal

end

namespace Ty

lemma allNormal_iff {ts : List Ty} : AllNormal ts ↔ ∀ t ∈ ts, t.IsNormal := by
  induction ts with
  | nil => simp [AllNormal]
  | cons t ts ih => simp [AllNormal, ih]

lemma isNormal_contract {body : Contract} : (Ty.contract body).IsNormal ↔
    ¬(body.receives = .void ∧ body.yields = .void) ∧
      body.receives.IsNormal ∧ body.yields.IsNormal := by
  cases body
  exact Iff.rfl

lemma isVoid_iff {t : Ty} : t.isVoid = true ↔ t = .void := by
  cases t <;> simp [isVoid]

/-! ### Sequences -/

/-- Opening a value gives members of sequences. -/
lemma isMember_of_mem_flatten {t u : Ty} (h : u ∈ t.flatten) : u.IsMember := by
  induction t with
  | seq items ih =>
    rw [flatten, flattenAll_eq_flatMap, List.mem_flatMap] at h
    obtain ⟨t, ht, hu⟩ := h
    exact ih t ht hu
  | void => cases h
  | const | var | int | star | tuple | list | func | contract =>
    obtain rfl := List.mem_singleton.1 h
    exact ⟨rfl, rfl⟩

/-- A member of a sequence contributes just itself. -/
lemma IsMember.flatten_eq {t : Ty} (h : t.IsMember) : t.flatten = [t] := by
  cases t with
  | void => cases h.1
  | seq => cases h.2
  | _ => rfl

lemma flattenAll_eq_self {ts : List Ty} (h : ∀ t ∈ ts, t.IsMember) : flattenAll ts = ts := by
  induction ts with
  | nil => rfl
  | cons t ts ih =>
    obtain ⟨ht, hts⟩ := List.forall_mem_cons.1 h
    rw [flattenAll, ht.flatten_eq, ih hts, List.singleton_append]

/-- Opening a normal value gives normal values. -/
lemma IsNormal.flatten {t : Ty} (h : t.IsNormal) : ∀ u ∈ t.flatten, u.IsNormal := by
  cases t with
  | seq items =>
    obtain ⟨-, hmember, hnormal⟩ := h
    rw [Ty.flatten, flattenAll_eq_self hmember]
    exact allNormal_iff.1 hnormal
  | void => exact List.forall_mem_nil _
  | const | var | int | star | tuple | list | func | contract =>
    intro u hu
    rw [List.mem_singleton.1 hu]
    exact h

lemma ofMembers_of_two_le {ts : List Ty} (h : 2 ≤ ts.length) : ofMembers ts = .seq ts := by
  match ts with
  | [_] => exact absurd h (by simp)
  | t :: _ :: _ => cases t <;> rfl

@[simp]
lemma concat_void (t : Ty) : t.concat .void = t := by
  cases t <;> rfl

lemma concat_of_ne_void {t u : Ty} (ht : t ≠ .void) (hu : u ≠ .void) :
    t.concat u = sequence (t.streamMembers ++ u.streamMembers) := by
  unfold concat
  split
  · exact absurd rfl ht
  · exact absurd rfl hu
  · rfl

lemma isNormal_ofMembers {ts : List Ty} (hmember : ∀ t ∈ ts, t.IsMember)
    (hnormal : ∀ t ∈ ts, t.IsNormal) : (ofMembers ts).IsNormal := by
  unfold ofMembers
  split
  · trivial
  · exact ⟨.inr ⟨_, _, rfl⟩, hmember, allNormal_iff.2 hnormal⟩
  · exact hnormal _ List.mem_cons_self
  · rename_i hnil _ hone
    refine ⟨.inl ?_, hmember, allNormal_iff.2 hnormal⟩
    match ts with
    | [] => exact absurd rfl hnil
    | [t] => exact absurd rfl (hone t)
    | _ :: _ :: _ => simp

lemma isNormal_sequence {ts : List Ty} (h : ∀ t ∈ ts, t.IsNormal) : (sequence ts).IsNormal := by
  refine isNormal_ofMembers (fun u hu => ?_) fun u hu => ?_
  all_goals
    rw [flattenAll_eq_flatMap, List.mem_flatMap] at hu
    obtain ⟨t, ht, hu⟩ := hu
  · exact isMember_of_mem_flatten hu
  · exact (h t ht).flatten u hu

/-! ### Lists and lengths -/

lemma isNormal_listOf {element length : Ty} (he : element.IsNormal) (hl : length.IsNormal) :
    (listOf element length).IsNormal := by
  unfold listOf
  split
  · rename_i n
    split
    · trivial
    · rename_i hn
      refine ⟨?_, he, trivial⟩
      rintro m hm
      obtain rfl := Option.some.inj hm
      exact Int64.not_le.1 hn
  · rename_i hint
    refine ⟨?_, he, hl⟩
    intro n hn
    cases length with
    | int m => exact absurd rfl (hint m)
    | _ => cases hn

/-- The arguments of a length function are not all concrete exactly if one of them is not. -/
lemma mapM_int?_eq_none_iff {args : List Ty} :
    args.mapM int? = none ↔ ∃ t ∈ args, t.int? = none := by
  induction args with
  | nil => simp
  | cons t ts ih =>
    rw [List.mapM_cons, List.exists_mem_cons_iff, ← ih]
    cases t.int? with
    | none => simp
    | some n => cases ts.mapM int? <;> simp

end Ty

namespace LengthFn

/-- A stuck length function evaluates to itself. -/
lemma Stuck.eval_eq {fn : LengthFn} {args : List Ty} (h : fn.Stuck args) :
    fn.eval args = .func fn args := by
  obtain ⟨hstar, hfn⟩ := h
  have hany : args.any Ty.isStar = false := by
    rw [List.any_eq_false]
    intro t ht
    rw [hstar t ht]
    exact Bool.false_ne_true
  unfold eval
  rw [hany]
  cases fn with
  | min =>
    rcases hfn with rfl | hnone
    · rfl
    · rw [Ty.mapM_int?_eq_none_iff.2 hnone]
      rfl
  | dec =>
    rw [if_neg Bool.false_ne_true]
    dsimp only
    split
    · exact absurd rfl (hfn _)
    · rfl

/-- A length function is evaluated to a length, or it is stuck. -/
lemma eval_cases (fn : LengthFn) (args : List Ty) :
    fn.eval args = .star ∨ (∃ n, fn.eval args = .int n) ∨ fn.Stuck args := by
  cases hany : args.any Ty.isStar with
  | true => exact .inl (by unfold eval; rw [if_pos hany])
  | false =>
    have hstar : ∀ t ∈ args, t.isStar = false := by
      simpa only [List.any_eq_false, Bool.not_eq_true] using hany
    unfold eval
    rw [if_neg (by rw [hany]; exact Bool.false_ne_true)]
    refine .inr ?_
    cases fn with
    | min =>
      cases hints : args.mapM Ty.int? with
      | none => exact .inr ⟨hstar, .inr (Ty.mapM_int?_eq_none_iff.1 hints)⟩
      | some ns =>
        cases ns with
        | cons n ns => exact .inl ⟨_, rfl⟩
        | nil =>
          cases args with
          | nil => exact .inr ⟨hstar, .inl rfl⟩
          | cons t ts =>
            exfalso
            rw [List.mapM_cons] at hints
            cases ht : t.int? <;> cases hts : ts.mapM Ty.int? <;> simp [ht, hts] at hints
    | dec =>
      dsimp only
      split
      · exact .inl ⟨_, rfl⟩
      · rename_i hargs
        exact .inr ⟨hstar, hargs⟩

lemma eval_eq_star {fn : LengthFn} {args : List Ty} (h : ∃ t ∈ args, t.isStar = true) :
    fn.eval args = .star :=
  if_pos (List.any_eq_true.2 h)

/-- A length function that can be evaluated is not affected by replacing other arguments than
lengths. -/
lemma eval_map_of_not_stuck {fn : LengthFn} {args : List Ty} {f : Ty → Ty}
    (hstar : f .star = .star) (hint : ∀ n, f (.int n) = .int n) (h : ¬fn.Stuck args) :
    fn.eval (args.map f) = fn.eval args := by
  by_cases hany : ∃ t ∈ args, t.isStar = true
  · obtain ⟨t, ht, hts⟩ := hany
    have hft : (f t).isStar = true := by
      cases t with
      | star => rw [hstar]; rfl
      | _ => cases hts
    rw [eval_eq_star ⟨t, ht, hts⟩, eval_eq_star ⟨f t, List.mem_map_of_mem ht, hft⟩]
  · have hnone : ∀ t ∈ args, t.isStar = false := fun t ht =>
      Bool.eq_false_iff.2 fun hts => hany ⟨t, ht, hts⟩
    have hsame : args.map f = args := by
      cases fn with
      | min =>
        refine (List.map_congr_left fun t ht => ?_).trans (List.map_id' args)
        cases t with
        | int n => exact hint n
        | _ => exact absurd ⟨hnone, .inr ⟨_, ht, rfl⟩⟩ h
      | dec =>
        by_cases hone : ∃ n, args = [.int n]
        · obtain ⟨n, rfl⟩ := hone
          exact congrArg (fun t => [t]) (hint n)
        · exact absurd ⟨hnone, fun n hn => hone ⟨n, hn⟩⟩ h
    rw [hsame]

end LengthFn

namespace Ty

lemma isNormal_eval {fn : LengthFn} {args : List Ty} (h : ∀ t ∈ args, t.IsNormal) :
    (fn.eval args).IsNormal := by
  rcases fn.eval_cases args with heq | ⟨n, heq⟩ | hstuck
  · rw [heq]
    trivial
  · rw [heq]
    trivial
  · rw [hstuck.eval_eq]
    exact ⟨hstuck, allNormal_iff.2 h⟩

/-! ### Normalizing -/

/-- Normalizing gives a normal form. -/
theorem isNormal_normalize (t : Ty) : t.normalize.IsNormal := by
  induction t with
  | void | const | var | int | star => trivial
  | seq items ih =>
    rw [normalize, normalizeAll_eq_map]
    exact isNormal_sequence (List.forall_mem_map.2 ih)
  | tuple items ih =>
    rw [normalize, normalizeAll_eq_map]
    exact allNormal_iff.2 (List.forall_mem_map.2 ih)
  | list element length ihe ihl => exact isNormal_listOf ihe ihl
  | func fn args ih =>
    rw [normalize, normalizeAll_eq_map]
    exact isNormal_eval (List.forall_mem_map.2 ih)
  | contract body ihr ihy =>
    rw [normalize_contract, Contract.withSides]
    split
    · trivial
    · rename_i hvoid
      rw [Bool.and_eq_true, isVoid_iff, isVoid_iff] at hvoid
      exact isNormal_contract.2 ⟨hvoid, ihr, ihy⟩

lemma map_normalize_eq_self {ts : List Ty} (h : ∀ t ∈ ts, t.normalize = t) :
    ts.map normalize = ts := by
  rw [List.map_congr_left h, List.map_id']

/-- Normal forms are not changed by normalizing. -/
theorem IsNormal.normalize_eq {t : Ty} (h : t.IsNormal) : t.normalize = t := by
  induction t with
  | void | const | var | int | star => rfl
  | seq items ih =>
    obtain ⟨hlength, hmember, hnormal⟩ := h
    have hitems : items.map normalize = items :=
      map_normalize_eq_self fun t ht => ih t ht (allNormal_iff.1 hnormal t ht)
    rw [normalize, normalizeAll_eq_map, hitems, sequence, flattenAll_eq_self hmember]
    rcases hlength with hlength | ⟨element, length, rfl⟩
    · exact ofMembers_of_two_le hlength
    · rfl
  | tuple items ih =>
    rw [normalize, normalizeAll_eq_map,
      map_normalize_eq_self fun t ht => ih t ht (allNormal_iff.1 h t ht)]
  | list element length ihe ihl =>
    obtain ⟨hpos, he, hl⟩ := h
    rw [normalize, ihe he, ihl hl]
    cases length with
    | int n => exact if_neg (Int64.not_le.2 (hpos n rfl))
    | _ => rfl
  | func fn args ih =>
    rw [normalize, normalizeAll_eq_map,
      map_normalize_eq_self fun t ht => ih t ht (allNormal_iff.1 h.2 t ht), h.1.eval_eq]
  | contract body ihr ihy =>
    obtain ⟨hsides, hr, hy⟩ := isNormal_contract.1 h
    have hnot : ¬(body.receives.isVoid && body.yields.isVoid) = true := by
      rwa [Bool.and_eq_true, isVoid_iff, isVoid_iff]
    rw [normalize_contract, ihr hr, ihy hy, Contract.withSides, if_neg hnot]
    cases body
    rfl

/-- Normalizing twice is normalizing once. -/
@[simp]
theorem normalize_normalize (t : Ty) : t.normalize.normalize = t.normalize :=
  t.isNormal_normalize.normalize_eq

end Ty

end ContractComposition
