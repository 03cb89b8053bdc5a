import ContractComposition.Exclusion
import ContractComposition.Proofs.NormalForm

/-!
# Changing the annotations of contracts

A contract is more than its two sides: it carries a condition, exclusions, a source and a flag.
A map `f` of values *redecorates* if it changes such annotations of the contracts inside a value and
nothing else (`Ty.Redecorates`). No function that computes with values looks at annotations, so all
of them commute with `f`: normalizing, taking streams apart and putting them together, comparing,
matching, and keeping tables of exclusions. Only substitution makes use of the condition and of the
exclusions.
-/

namespace ContractComposition

/-! ### Tables with other values -/

namespace NameTable

variable {α β : Type}

/-- The table in which every value is replaced by what a function makes of it. -/
def mapValues (f : α → β) (table : NameTable α) : NameTable β where
  entries := table.entries.map fun entry => (entry.1, f entry.2)
  ascending := List.pairwise_map.2 table.ascending

@[simp]
lemma size_mapValues (f : α → β) (table : NameTable α) : (table.mapValues f).size = table.size :=
  List.length_map _

@[simp]
lemma names_mapValues (f : α → β) (table : NameTable α) :
    (table.mapValues f).names = table.names := by
  rw [names, mapValues, List.map_map]
  rfl

lemma lookup_map (f : α → β) (name : String) (entries : List (String × α)) :
    (entries.map fun entry => (entry.1, f entry.2)).lookup name =
      (entries.lookup name).map f := by
  induction entries with
  | nil => rfl
  | cons entry rest ih =>
    rw [List.map_cons, lookup_cons_eq_ite, lookup_cons_eq_ite, ih]
    split <;> rfl

@[simp]
lemma find?_mapValues (f : α → β) (table : NameTable α) (name : String) :
    (table.mapValues f).find? name = (table.find? name).map f :=
  lookup_map f name table.entries

lemma insert_mapValues (f : α → β) (table : NameTable α) (name : String) (value : α) :
    (table.insert name value).mapValues f = (table.mapValues f).insert name (f value) := by
  refine NameTable.ext ?_
  rw [mapValues, insert, insert, mapValues]
  dsimp only
  induction table.entries with
  | nil => rfl
  | cons entry rest ih =>
    rw [List.map_cons, insertEntry, insertEntry]
    dsimp only
    split
    · rw [List.map_cons, ih]
    · split <;> rfl

end NameTable

/-! ### Redecorating values -/

/-- What becomes of a contract whose sides are mapped by `f` and whose annotations are changed by
`annotate`. -/
def Contract.redecorate (f : Ty → Ty) (annotate : Contract → Contract) (body : Contract) :
    Contract :=
  { annotate body with receives := f body.receives, yields := f body.yields }

/-- The map `f` changes nothing in a value but the annotations of contracts, which become those that
`annotate` gives regardless of the sides. -/
structure Ty.Redecorates (f : Ty → Ty) (annotate : Contract → Contract) : Prop where
  void : f .void = .void
  const : ∀ a, f (.const a) = .const a
  var : ∀ x, f (.var x) = .var x
  int : ∀ n, f (.int n) = .int n
  star : f .star = .star
  seq : ∀ items, f (.seq items) = .seq (items.map f)
  tuple : ∀ items, f (.tuple items) = .tuple (items.map f)
  list : ∀ element length, f (.list element length) = .list (f element) (f length)
  func : ∀ fn args, f (.func fn args) = .func fn (args.map f)
  contract : ∀ body, f (.contract body) = .contract (body.redecorate f annotate)
  annotate : ∀ (body : Contract) (receives yields : Ty),
    { body with receives := receives, yields := yields }.redecorate f annotate =
      { body.redecorate f annotate with receives := f receives, yields := f yields }

namespace Ty.Redecorates

variable {f : Ty → Ty} {annotate : Contract → Contract} (h : Ty.Redecorates f annotate)

include h

/-! ### Views -/

lemma isVoid_eq (t : Ty) : (f t).isVoid = t.isVoid := by
  cases t <;> simp only [h.void, h.const, h.var, h.int, h.star, h.seq, h.tuple, h.list, h.func,
    h.contract, Ty.isVoid]

lemma isStar_eq (t : Ty) : (f t).isStar = t.isStar := by
  cases t <;> simp only [h.void, h.const, h.var, h.int, h.star, h.seq, h.tuple, h.list, h.func,
    h.contract, Ty.isStar]

lemma int?_eq (t : Ty) : (f t).int? = t.int? := by
  cases t <;> simp only [h.void, h.const, h.var, h.int, h.star, h.seq, h.tuple, h.list, h.func,
    h.contract, Ty.int?]

lemma isTuple_eq (t : Ty) : (f t).isTuple = t.isTuple := by
  cases t <;> simp only [h.void, h.const, h.var, h.int, h.star, h.seq, h.tuple, h.list, h.func,
    h.contract, Ty.isTuple]

/-- The same variables occur. -/
lemma occurrences_eq (t : Ty) : (f t).occurrences = t.occurrences := by
  induction t with
  | void | const | var | int | star => simp only [h.void, h.const, h.var, h.int, h.star]
  | seq items ih | tuple items ih | func fn items ih =>
    simp only [h.seq, h.tuple, h.func, Ty.occurrences, Ty.occurrencesAll_eq_flatMap,
      List.flatMap_map]
    exact List.flatMap_congr ih
  | list element length ihe ihl => rw [h.list, Ty.occurrences, Ty.occurrences, ihe, ihl]
  | contract body ihr ihy =>
    rw [h.contract, Ty.occurrences_contract, Ty.occurrences_contract, Contract.redecorate, ihr, ihy]

lemma occurrencesAll_eq (ts : List Ty) :
    Ty.occurrencesAll (ts.map f) = Ty.occurrencesAll ts := by
  rw [Ty.occurrencesAll_eq_flatMap, Ty.occurrencesAll_eq_flatMap, List.flatMap_map]
  exact List.flatMap_congr fun t _ => h.occurrences_eq t

lemma isGround_eq (t : Ty) : (f t).isGround = t.isGround := by
  rw [Ty.isGround, Ty.isGround, h.occurrences_eq]

/-- Contracts are nested as deeply. -/
lemma nesting_eq (t : Ty) : (f t).nesting = t.nesting := by
  have hall : ∀ ts : List Ty, (∀ t ∈ ts, (f t).nesting = t.nesting) →
      Ty.nestingAll (ts.map f) = Ty.nestingAll ts := by
    intro ts hts
    induction ts with
    | nil => rfl
    | cons t ts ih =>
      obtain ⟨ht, hts⟩ := List.forall_mem_cons.1 hts
      rw [List.map_cons, Ty.nestingAll, Ty.nestingAll, ht, ih hts]
  induction t with
  | void | const | var | int | star => simp only [h.void, h.const, h.var, h.int, h.star]
  | seq items ih | tuple items ih | func fn items ih =>
    simp only [h.seq, h.tuple, h.func, Ty.nesting]
    exact hall items ih
  | list element length ihe ihl => rw [h.list, Ty.nesting, Ty.nesting, ihe, ihl]
  | contract body ihr ihy =>
    obtain ⟨receives, yields, condition, forbidden, source, restorable⟩ := body
    rw [h.contract, Contract.redecorate, Ty.nesting, Ty.nesting, Contract.nesting, Contract.nesting,
      ihr, ihy]

/-- The same contracts are started, up to annotations. -/
lemma contracts?_eq (t : Ty) :
    (f t).contracts? = t.contracts?.map (List.map (Contract.redecorate f annotate)) := by
  have hmapM : ∀ ts : List Ty, (ts.map f).mapM Ty.contract? =
      (ts.mapM Ty.contract?).map (List.map (Contract.redecorate f annotate)) := by
    intro ts
    induction ts with
    | nil => rfl
    | cons t ts ih =>
      have hhead : (f t).contract? = t.contract?.map (Contract.redecorate f annotate) := by
        cases t <;> simp only [h.void, h.const, h.var, h.int, h.star, h.seq, h.tuple, h.list,
          h.func, h.contract, Ty.contract?, Option.map_none, Option.map_some]
      rw [List.map_cons, List.mapM_cons, List.mapM_cons, ih, hhead]
      cases t.contract? with
      | none => rfl
      | some c => cases ts.mapM Ty.contract? <;> rfl
  cases t with
  | tuple items =>
    rw [h.tuple]
    cases items with
    | nil => rfl
    | cons t ts => exact hmapM (t :: ts)
  | contract body =>
    rw [h.contract]
    rfl
  | void | const | var | int | star | seq | list | func =>
    simp only [h.void, h.const, h.var, h.int, h.star, h.seq, h.list, h.func, Ty.contracts?,
      Option.map_none]

/-! ### Normal forms -/

lemma flatten_eq (t : Ty) : (f t).flatten = t.flatten.map f := by
  induction t with
  | seq items ih =>
    rw [h.seq, Ty.flatten, Ty.flatten, Ty.flattenAll_eq_flatMap, Ty.flattenAll_eq_flatMap,
      List.flatMap_map, List.map_flatMap]
    exact List.flatMap_congr ih
  | void => rw [h.void]; rfl
  | const | var | int | star | tuple | list | func | contract =>
    simp only [h.const, h.var, h.int, h.star, h.tuple, h.list, h.func, h.contract, Ty.flatten,
      List.map_cons, List.map_nil]

lemma ofMembers_eq (ts : List Ty) : Ty.ofMembers (ts.map f) = f (Ty.ofMembers ts) := by
  match ts with
  | [] => exact h.void.symm
  | [t] =>
    cases t <;> simp only [h.void, h.const, h.var, h.int, h.star, h.seq, h.tuple, h.list, h.func,
      h.contract, Ty.ofMembers, List.map_cons, List.map_nil]
  | t :: u :: ts =>
    rw [Ty.ofMembers_of_two_le (by simp), Ty.ofMembers_of_two_le (by simp), h.seq]

lemma sequence_eq (ts : List Ty) : Ty.sequence (ts.map f) = f (Ty.sequence ts) := by
  rw [Ty.sequence, Ty.sequence, ← h.ofMembers_eq, Ty.flattenAll_eq_flatMap,
    Ty.flattenAll_eq_flatMap, List.flatMap_map, List.map_flatMap]
  exact congrArg _ (List.flatMap_congr fun t _ => h.flatten_eq t)

lemma listOf_eq (element length : Ty) :
    Ty.listOf (f element) (f length) = f (Ty.listOf element length) := by
  cases length with
  | int n =>
    by_cases hn : n ≤ 0
    · simp only [h.int, Ty.listOf, if_pos hn, h.void]
    · simp only [h.int, Ty.listOf, if_neg hn, h.list]
  | void | const | var | star | seq | tuple | list | func | contract =>
    simp only [h.void, h.const, h.var, h.star, h.seq, h.tuple, h.list, h.func, h.contract,
      Ty.listOf]

lemma stuck {fn : LengthFn} {args : List Ty} (hstuck : fn.Stuck args) :
    fn.Stuck (args.map f) := by
  obtain ⟨hstar, hfn⟩ := hstuck
  refine ⟨List.forall_mem_map.2 fun t ht => (h.isStar_eq t).trans (hstar t ht), ?_⟩
  cases fn with
  | min =>
    rcases hfn with rfl | ⟨t, ht, hnone⟩
    · exact .inl rfl
    · exact .inr ⟨f t, List.mem_map_of_mem ht, (h.int?_eq t).trans hnone⟩
  | dec =>
    intro n hn
    have hlength : args.length = 1 := by simpa using congrArg List.length hn
    obtain ⟨t, rfl⟩ := List.length_eq_one_iff.1 hlength
    have hint : t.int? = some n := by
      rw [← h.int?_eq, (List.cons.inj hn).1]
      rfl
    cases t with
    | int m => exact hfn m rfl
    | _ => cases hint

lemma eval_eq (fn : LengthFn) (args : List Ty) : fn.eval (args.map f) = f (fn.eval args) := by
  by_cases hstuck : fn.Stuck args
  · rw [hstuck.eval_eq, (h.stuck hstuck).eval_eq, h.func]
  · rw [LengthFn.eval_map_of_not_stuck h.star h.int hstuck]
    rcases fn.eval_cases args with heq | ⟨n, heq⟩ | heq
    · rw [heq, h.star]
    · rw [heq, h.int]
    · exact absurd heq hstuck

lemma decOf_eq (length : Ty) : Ty.decOf (f length) = f (Ty.decOf length) :=
  h.eval_eq .dec [length]

/-- Annotations play no part in normalizing. -/
theorem normalize_eq (t : Ty) : (f t).normalize = f t.normalize := by
  induction t with
  | void | const | var | int | star =>
    simp only [h.void, h.const, h.var, h.int, h.star, Ty.normalize]
  | seq items ih =>
    rw [h.seq, Ty.normalize, Ty.normalize, Ty.normalizeAll_eq_map, Ty.normalizeAll_eq_map,
      ← h.sequence_eq, List.map_map, List.map_map]
    exact congrArg _ (List.map_congr_left ih)
  | tuple items ih =>
    rw [h.tuple, Ty.normalize, Ty.normalize, h.tuple, Ty.normalizeAll_eq_map,
      Ty.normalizeAll_eq_map, List.map_map, List.map_map]
    exact congrArg _ (List.map_congr_left ih)
  | func fn args ih =>
    rw [h.func, Ty.normalize, Ty.normalize, Ty.normalizeAll_eq_map, Ty.normalizeAll_eq_map,
      ← h.eval_eq, List.map_map, List.map_map]
    exact congrArg _ (List.map_congr_left ih)
  | list element length ihe ihl =>
    rw [h.list, Ty.normalize, Ty.normalize, ← h.listOf_eq, ihe, ihl]
  | contract body ihr ihy =>
    rw [h.contract, Ty.normalize_contract, Ty.normalize_contract, Contract.withSides,
      Contract.withSides, Contract.redecorate, ihr, ihy, h.isVoid_eq, h.isVoid_eq]
    split
    · exact h.void.symm
    · rw [h.contract, h.annotate]
      rfl

/-! ### Streams -/

lemma pop?_eq (t : Ty) : (f t).pop? = t.pop?.map (Prod.map f f) := by
  cases t with
  | void => rw [h.void]; rfl
  | int n => rw [h.int]; rfl
  | star => rw [h.star]; rfl
  | func fn args => rw [h.func]; rfl
  | const a => simp only [h.const, Ty.pop?, Option.map_some, Prod.map, h.void]
  | var x => simp only [h.var, Ty.pop?, Option.map_some, Prod.map, h.void]
  | tuple items => simp only [h.tuple, Ty.pop?, Option.map_some, Prod.map, h.void]
  | contract body => simp only [h.contract, Ty.pop?, Option.map_some, Prod.map, h.void]
  | seq items =>
    rw [h.seq]
    cases items with
    | nil => rfl
    | cons t ts => simp only [List.map_cons, Ty.pop?, Option.map_some, Prod.map, h.sequence_eq]
  | list element length =>
    cases length with
    | star => simp only [h.list, h.star, Ty.pop?, Option.map_some, Prod.map]
    | int n =>
      have hdec := h.decOf_eq (.int n)
      rw [h.int] at hdec
      by_cases hn : n ≤ 0
      · simp only [h.list, h.int, Ty.pop?, if_pos hn, Option.map_none]
      · simp only [h.list, h.int, Ty.pop?, if_neg hn, Option.map_some, Prod.map, ← h.listOf_eq,
          ← hdec]
    | void | const | var | seq | tuple | list | func | contract =>
      simp only [h.list, Ty.pop?, Option.map_some, Prod.map, ← h.listOf_eq, ← h.decOf_eq, h.void,
        h.const, h.var, h.seq, h.tuple, h.func, h.contract]

lemma isOpenStream_eq (t : Ty) : (f t).isOpenStream = t.isOpenStream := by
  cases t with
  | list element length =>
    cases length <;> simp only [h.list, h.void, h.const, h.var, h.int, h.star, h.seq, h.tuple,
      h.func, h.contract, Ty.isOpenStream]
  | void | const | var | int | star | seq | tuple | func | contract =>
    simp only [h.void, h.const, h.var, h.int, h.star, h.seq, h.tuple, h.func, h.contract,
      Ty.isOpenStream]

lemma items_eq (t : Ty) : (f t).items = t.items.map f := by
  cases t <;> simp only [h.void, h.const, h.var, h.int, h.star, h.seq, h.tuple, h.list, h.func,
    h.contract, Ty.items, List.map_cons, List.map_nil]

lemma streamMembers_eq (t : Ty) : (f t).streamMembers = t.streamMembers.map f := by
  have hitems := h.items_eq t
  cases t with
  | list element length =>
    cases length with
    | int n =>
      rw [h.list, h.int, Ty.streamMembers, Ty.streamMembers]
      split
      · rw [List.map_replicate]
      · rw [List.map_cons, h.list, h.int, List.map_nil]
    | void | const | var | star | seq | tuple | list | func | contract =>
      simpa only [h.list, h.void, h.const, h.var, h.star, h.seq, h.tuple, h.func, h.contract,
        Ty.streamMembers] using hitems
  | void | const | var | int | star | seq | tuple | func | contract =>
    simpa only [h.void, h.const, h.var, h.int, h.star, h.seq, h.tuple, h.func, h.contract,
      Ty.streamMembers] using hitems

lemma concat_eq (t u : Ty) : (f t).concat (f u) = f (t.concat u) := by
  have hmembers : Ty.sequence ((f t).streamMembers ++ (f u).streamMembers) =
      f (Ty.sequence (t.streamMembers ++ u.streamMembers)) := by
    rw [h.streamMembers_eq, h.streamMembers_eq, ← List.map_append, h.sequence_eq]
  by_cases ht : t = .void
  · rw [ht, h.void]
    rfl
  · by_cases hu : u = .void
    · rw [hu, h.void, Ty.concat_void, Ty.concat_void]
    · rw [Ty.concat_of_ne_void ht hu, Ty.concat_of_ne_void ?_ ?_, hmembers]
      · rwa [Ne, ← Ty.isVoid_iff, h.isVoid_eq, Ty.isVoid_iff]
      · rwa [Ne, ← Ty.isVoid_iff, h.isVoid_eq, Ty.isVoid_iff]

/-! ### Comparisons -/

omit h in
lemma beqAll_eq_of_forall {as : List Ty} (ih : ∀ a ∈ as, ∀ b, (f a).beq (f b) = a.beq b)
    (bs : List Ty) :
    Ty.beqAll (as.map f) (bs.map f) = Ty.beqAll as bs := by
  induction as generalizing bs with
  | nil => cases bs <;> rfl
  | cons a as ihas =>
    obtain ⟨ha, has⟩ := List.forall_mem_cons.1 ih
    cases bs with
    | nil => rfl
    | cons b bs => rw [List.map_cons, List.map_cons, Ty.beqAll, Ty.beqAll, ha, ihas has]

lemma beq_eq (a b : Ty) : (f a).beq (f b) = a.beq b := by
  induction a generalizing b with
  | void | const | var | int | star =>
    cases b <;> simp only [h.void, h.const, h.var, h.int, h.star, h.seq, h.tuple, h.list, h.func,
      h.contract, Ty.beq]
  | seq as ih | tuple as ih | func fn as ih =>
    have hall := beqAll_eq_of_forall ih
    cases b <;> simp only [h.void, h.const, h.var, h.int, h.star, h.seq, h.tuple, h.list, h.func,
      h.contract, Ty.beq, hall]
  | list element length ihe ihl =>
    cases b <;> simp only [h.void, h.const, h.var, h.int, h.star, h.seq, h.tuple, h.list, h.func,
      h.contract, Ty.beq, ihe, ihl]
  | contract body ihr ihy =>
    obtain ⟨receives, yields, condition, forbidden, source, restorable⟩ := body
    cases b <;> simp only [h.void, h.const, h.var, h.int, h.star, h.seq, h.tuple, h.list, h.func,
      h.contract, Ty.beq, Contract.redecorate, Contract.beq, ihr, ihy]

lemma beqAll_eq (as bs : List Ty) : Ty.beqAll (as.map f) (bs.map f) = Ty.beqAll as bs :=
  beqAll_eq_of_forall (fun a _ => h.beq_eq a) bs

omit h in
lemma cmpAll_eq_of_forall {as : List Ty} (ih : ∀ a ∈ as, ∀ b, (f a).cmp (f b) = a.cmp b)
    (bs : List Ty) :
    Ty.cmpAll (as.map f) (bs.map f) = Ty.cmpAll as bs := by
  induction as generalizing bs with
  | nil => cases bs <;> rfl
  | cons a as ihas =>
    obtain ⟨ha, has⟩ := List.forall_mem_cons.1 ih
    cases bs with
    | nil => rfl
    | cons b bs => rw [List.map_cons, List.map_cons, Ty.cmpAll, Ty.cmpAll, ha, ihas has]

lemma cmp_eq (a b : Ty) : (f a).cmp (f b) = a.cmp b := by
  induction a generalizing b with
  | void | const | var | int | star =>
    cases b <;> simp only [h.void, h.const, h.var, h.int, h.star, h.seq, h.tuple, h.list, h.func,
      h.contract] <;> rfl
  | seq as ih | tuple as ih | func fn as ih =>
    have hall := cmpAll_eq_of_forall ih
    cases b <;> simp only [h.void, h.const, h.var, h.int, h.star, h.seq, h.tuple, h.list, h.func,
      h.contract, Ty.cmp, hall, Ty.rank]
  | list element length ihe ihl =>
    cases b <;> simp only [h.void, h.const, h.var, h.int, h.star, h.seq, h.tuple, h.list, h.func,
      h.contract, Ty.cmp, ihe, ihl, Ty.rank]
  | contract body ihr ihy =>
    obtain ⟨receives, yields, condition, forbidden, source, restorable⟩ := body
    cases b <;> simp only [h.void, h.const, h.var, h.int, h.star, h.seq, h.tuple, h.list, h.func,
      h.contract, Ty.cmp, Contract.redecorate, Contract.cmp, ihr, ihy, Ty.rank]

lemma cmpAll_eq (as bs : List Ty) : Ty.cmpAll (as.map f) (bs.map f) = Ty.cmpAll as bs :=
  cmpAll_eq_of_forall (fun a _ => h.cmp_eq a) bs

/-! ### Matching -/

lemma joinEntries_eq (b : Bindings) (entries : List (String × Ty)) :
    Bindings.joinEntries (b.mapValues f) (entries.map fun entry => (entry.1, f entry.2)) =
      (b.joinEntries entries).map (NameTable.mapValues f) := by
  induction entries generalizing b with
  | nil => rfl
  | cons entry rest ih =>
    rw [List.map_cons, Bindings.joinEntries, Bindings.joinEntries, NameTable.find?_mapValues]
    cases b.find? entry.1 with
    | none =>
      have hbind : Bindings.bind (b.mapValues f) entry.1 (f entry.2) =
          (b.bind entry.1 entry.2).mapValues f :=
        (NameTable.insert_mapValues f b entry.1 entry.2).symm
      dsimp only [Option.map_none]
      rw [hbind, ih]
    | some u =>
      have hbeq : ((f u).normalize == (f entry.2).normalize) =
          (u.normalize == entry.2.normalize) := by
        rw [h.normalize_eq, h.normalize_eq]
        exact h.beq_eq _ _
      dsimp only [Option.map_some]
      rw [hbeq]
      split
      · exact ih b
      · rfl

lemma join?_eq (b other : Bindings) : Bindings.join? (b.mapValues f) (other.mapValues f) =
    (b.join? other).map (NameTable.mapValues f) :=
  h.joinEntries_eq b other.entries

/-- Joining what two matches have found. -/
lemma bind_join?_eq {o o' : Option Bindings} :
    ((o.map (NameTable.mapValues f)).bind fun b =>
        (o'.map (NameTable.mapValues f)).bind fun b' => Bindings.join? b b') =
      (o.bind fun b => o'.bind fun b' => b.join? b').map (NameTable.mapValues f) := by
  cases o with
  | none => rfl
  | some b =>
    cases o' with
    | none => rfl
    | some b' => exact h.join?_eq b b'

lemma matchingAll?_eq_of_forall {patterns values : List Ty} (found : Bindings)
    (ih : ∀ p ∈ patterns, ∀ v,
      (f p).matching? (f v) = (p.matching? v).map (NameTable.mapValues f)) :
    Ty.matchingAll? (found.mapValues f) (patterns.map f) (values.map f) =
      (Ty.matchingAll? found patterns values).map (NameTable.mapValues f) := by
  induction patterns generalizing values found with
  | nil => cases values <;> rfl
  | cons p ps ihps =>
    obtain ⟨hp, hps⟩ := List.forall_mem_cons.1 ih
    cases values with
    | nil => rfl
    | cons v vs =>
      rw [List.map_cons, List.map_cons, Ty.matchingAll?, Ty.matchingAll?, hp]
      cases p.matching? v with
      | none => rfl
      | some more =>
        simp only [Option.map_some, Option.bind_eq_bind, Option.bind_some, h.join?_eq]
        cases found.join? more with
        | none => rfl
        | some joined => exact ihps joined hps

/-- Annotations play no part in matching, and what is found has the annotations of what was
offered. -/
theorem matching?_eq (p v : Ty) :
    (f p).matching? (f v) = (p.matching? v).map (NameTable.mapValues f) := by
  induction p generalizing v with
  | void | star | const | int =>
    cases v <;> simp only [h.void, h.const, h.var, h.int, h.star, h.seq, h.tuple, h.list, h.func,
      h.contract, Ty.matching?] <;> first | rfl | (split <;> rfl)
  | var x =>
    have hbeq : (f v == .var x) = (v == .var x) := by
      have hvar := h.beq_eq v (.var x)
      rwa [h.var] at hvar
    rw [h.var, Ty.matching?, Ty.matching?, hbeq, h.occurrences_eq]
    split
    · rfl
    · split
      · rfl
      · exact congrArg some (NameTable.insert_mapValues f ∅ x v).symm
  | seq ps ih =>
    cases v with
    | seq vs =>
      rw [h.seq, h.seq]
      exact h.matchingAll?_eq_of_forall ∅ ih
    | _ => simp only [h.void, h.const, h.var, h.int, h.star, h.seq, h.tuple, h.list, h.func,
        h.contract, Ty.matching?, Option.map_none]
  | tuple ps ih =>
    cases v with
    | tuple vs =>
      rw [h.tuple, h.tuple]
      exact h.matchingAll?_eq_of_forall ∅ ih
    | _ => simp only [h.void, h.const, h.var, h.int, h.star, h.seq, h.tuple, h.list, h.func,
        h.contract, Ty.matching?, Option.map_none]
  | func fn ps ih =>
    cases v with
    | func fn' vs =>
      rw [h.func, h.func, Ty.matching?, Ty.matching?]
      split
      · exact h.matchingAll?_eq_of_forall ∅ ih
      · rfl
    | _ => simp only [h.void, h.const, h.var, h.int, h.star, h.seq, h.tuple, h.list, h.func,
        h.contract, Ty.matching?, Option.map_none]
  | list element length ihe ihl =>
    cases v with
    | list element' length' =>
      rw [h.list, h.list, Ty.matching?, Ty.matching?, ihe, ihl]
      exact h.bind_join?_eq
    | _ => simp only [h.void, h.const, h.var, h.int, h.star, h.seq, h.tuple, h.list, h.func,
        h.contract, Ty.matching?, Option.map_none]
  | contract body ihr ihy =>
    cases v with
    | contract body' =>
      obtain ⟨receives, yields, condition, forbidden, source, restorable⟩ := body
      rw [h.contract, h.contract, Ty.matching?, Ty.matching?, Contract.redecorate,
        Contract.redecorate, Contract.matching?, Contract.matching?, ihr, ihy]
      exact h.bind_join?_eq
    | _ => simp only [h.void, h.const, h.var, h.int, h.star, h.seq, h.tuple, h.list, h.func,
        h.contract, Ty.matching?, Option.map_none]

end Ty.Redecorates

/-! ### Tables of exclusions -/

/-- The exclusion with another value in place of each. -/
def Exclusion.map (f : Ty → Ty) (e : Exclusion) : Exclusion :=
  ⟨e.key.map f, e.values.map (List.map f)⟩

namespace Ty.Redecorates

variable {f : Ty → Ty} {annotate : Contract → Contract} (h : Ty.Redecorates f annotate)

include h

lemma insert_eq (row : List Ty) (rows : List (List Ty)) :
    Tuples.insert (row.map f) (rows.map (List.map f)) =
      (Tuples.insert row rows).map (List.map f) := by
  induction rows with
  | nil => rfl
  | cons other rest ih =>
    rw [List.map_cons, Tuples.insert, Tuples.insert, h.cmpAll_eq]
    split
    · rfl
    · rfl
    · rw [List.map_cons, ih]

lemma replace_eq (row : List Ty) (rows : List (List Ty)) :
    Tuples.replace (row.map f) (rows.map (List.map f)) =
      (Tuples.replace row rows).map (List.map f) := by
  induction rows with
  | nil => rfl
  | cons other rest ih =>
    rw [List.map_cons, Tuples.replace, Tuples.replace, h.cmpAll_eq]
    split
    · rfl
    · rfl
    · rw [List.map_cons, ih]

lemma insertAll_eq (rows new : List (List Ty)) :
    Tuples.insertAll (rows.map (List.map f)) (new.map (List.map f)) =
      (Tuples.insertAll rows new).map (List.map f) := by
  induction new generalizing rows with
  | nil => rfl
  | cons row new ih =>
    rw [Tuples.insertAll, List.map_cons, List.foldl_cons, h.insert_eq]
    exact ih _

lemma ofList_eq (rows : List (List Ty)) :
    Tuples.ofList (rows.map (List.map f)) = (Tuples.ofList rows).map (List.map f) := by
  have hfold : ∀ start : List (List Ty),
      (rows.map (List.map f)).foldl (fun rows row => Tuples.replace row rows)
          (start.map (List.map f)) =
        (rows.foldl (fun rows row => Tuples.replace row rows) start).map (List.map f) := by
    induction rows with
    | nil => exact fun _ => rfl
    | cons row rows ih =>
      intro start
      rw [List.map_cons, List.foldl_cons, List.foldl_cons, h.replace_eq, ih]
  exact hfold []

lemma forbid_eq (key : List Ty) (values : List (List Ty)) (table : List Exclusion) :
    Exclusions.forbid (key.map f) (values.map (List.map f)) (table.map (Exclusion.map f)) =
      (Exclusions.forbid key values table).map (Exclusion.map f) := by
  have hnew : (⟨key.map f, Tuples.insertAll [] (values.map (List.map f))⟩ : Exclusion) =
      Exclusion.map f ⟨key, Tuples.insertAll [] values⟩ := by
    rw [Exclusion.map, ← h.insertAll_eq]
    rfl
  induction table with
  | nil =>
    rw [List.map_nil, Exclusions.forbid, Exclusions.forbid, hnew]
    rfl
  | cons e rest ih =>
    have hkey : Ty.cmpAll (key.map f) (e.map f).key = Ty.cmpAll key e.key := h.cmpAll_eq _ _
    rw [List.map_cons, Exclusions.forbid, Exclusions.forbid, hkey]
    split
    · rw [hnew]
      rfl
    · rw [List.map_cons, Exclusion.map, Exclusion.map, h.insertAll_eq]
    · rw [List.map_cons, ih]

lemma isViolated_eq (e : Exclusion) : (e.map f).isViolated = e.isViolated := by
  rw [Exclusion.isViolated, Exclusion.isViolated, Exclusion.map, List.any_map]
  exact congrArg e.values.any (funext fun row => h.beqAll_eq row e.key)

lemma isSettled_eq (e : Exclusion) : (e.map f).isSettled = e.isSettled := by
  have hrow : ∀ row : List Ty, (row.map f).all Ty.isGround = row.all Ty.isGround := by
    intro row
    rw [List.all_map]
    exact congrArg row.all (funext h.isGround_eq)
  rw [Exclusion.isSettled, Exclusion.isSettled, Exclusion.map, hrow, List.all_map]
  exact congrArg (_ && ·) (congrArg e.values.all (funext hrow))

lemma occurrences_exclusions_eq (table : List Exclusion) :
    Exclusions.occurrences (table.map (Exclusion.map f)) = Exclusions.occurrences table := by
  rw [Exclusions.occurrences, Exclusions.occurrences, List.flatMap_map]
  refine List.flatMap_congr fun e _ => ?_
  rw [Exclusion.occurrences, Exclusion.occurrences, Exclusion.map, h.occurrencesAll_eq,
    List.flatMap_map]
  exact congrArg _ (List.flatMap_congr fun row _ => h.occurrencesAll_eq row)

lemma enter?_eq (table : List Exclusion) (e : Exclusion) :
    Exclusions.enter? (table.map (Exclusion.map f)) (e.map f) =
      (Exclusions.enter? table e).map (List.map (Exclusion.map f)) := by
  have hsorted : (⟨(e.map f).key, Tuples.ofList (e.map f).values⟩ : Exclusion) =
      Exclusion.map f ⟨e.key, Tuples.ofList e.values⟩ := by
    rw [Exclusion.map, Exclusion.map, h.ofList_eq]
  rw [Exclusions.enter?, Exclusions.enter?]
  dsimp only
  rw [hsorted, h.isViolated_eq, h.isSettled_eq]
  split
  · rfl
  · split
    · rfl
    · rw [Option.map_some, ← h.forbid_eq, ← h.ofList_eq]
      rfl

/-- Annotations play no part in entering exclusions into a table. -/
lemma enterAll?_eq (table entries : List Exclusion) :
    Exclusions.enterAll? (table.map (Exclusion.map f)) (entries.map (Exclusion.map f)) =
      (Exclusions.enterAll? table entries).map (List.map (Exclusion.map f)) := by
  induction entries generalizing table with
  | nil => rfl
  | cons e rest ih =>
    rw [List.map_cons, Exclusions.enterAll?, Exclusions.enterAll?, h.enter?_eq]
    cases Exclusions.enter? table e with
    | none => rfl
    | some table' => exact ih table'

end Ty.Redecorates

end ContractComposition
