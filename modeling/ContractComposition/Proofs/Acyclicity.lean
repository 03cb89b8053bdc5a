import Mathlib.Data.Finset.Card
import Mathlib.Logic.Relation
import ContractComposition.Proofs.Variables

/-!
# Bindings that do not run in a circle

A table of bindings runs in a circle if some variable is bound to a value that mentions it, or that
mentions a variable bound to such a value, and so on. What counts is every mention, also in the
conditions and exclusions of contracts (`Ty.mentions`), since substitution goes there as well.

`Bindings.Acyclic` excludes circles. Then there is a rank that falls from each bound variable to the
variables that its value mentions and that never exceeds the size of the table
(`Bindings.Acyclic.exists_ranked`): the number of bound variables within reach. So neither of the
two bounds of substitution is ever met, that on the length of a chain and that on all replacements
in a row, and what a variable stands for satisfies the plain recursive equation
(`Bindings.Acyclic.look_eq`).
-/

namespace ContractComposition

/-! ### Mentioned variables -/

mutual

/-- The variables of a value wherever they occur: in the sides, conditions and exclusions of the
contracts in it and in everything else. -/
def Ty.mentions : Ty → List String
  | .var x => [x]
  | .seq items => Ty.mentionsAll items
  | .tuple items => Ty.mentionsAll items
  | .list element length => element.mentions ++ length.mentions
  | .func _ args => Ty.mentionsAll args
  | .contract body => body.mentions
  | .void => []
  | .const _ => []
  | .int _ => []
  | .star => []

/-- The variables of the values of a list, wherever they occur. -/
def Ty.mentionsAll : List Ty → List String
  | [] => []
  | t :: ts => t.mentions ++ Ty.mentionsAll ts

/-- The variables of several tuples, wherever they occur. -/
def Ty.mentionsRows : List (List Ty) → List String
  | [] => []
  | row :: rows => Ty.mentionsAll row ++ Ty.mentionsRows rows

/-- The variables of a contract, wherever they occur. -/
def Contract.mentions : Contract → List String
  | ⟨receives, yields, condition, forbidden, _, _⟩ =>
    receives.mentions ++ yields.mentions ++ (condition.map Condition.occurrences).getD [] ++
      Exclusion.mentionsAll forbidden

/-- The variables of an exclusion, wherever they occur. -/
def Exclusion.mentions : Exclusion → List String
  | ⟨key, values⟩ => Ty.mentionsAll key ++ Ty.mentionsRows values

/-- The variables of the exclusions of a list, wherever they occur. -/
def Exclusion.mentionsAll : List Exclusion → List String
  | [] => []
  | e :: rest => e.mentions ++ Exclusion.mentionsAll rest

end

namespace Ty

variable {p : String → Prop}

lemma forall_mentionsAll {ts : List Ty} :
    (∀ x ∈ mentionsAll ts, p x) ↔ ∀ t ∈ ts, ∀ x ∈ t.mentions, p x := by
  induction ts with
  | nil => simp [mentionsAll]
  | cons t ts ih => rw [mentionsAll, List.forall_mem_append, ih, List.forall_mem_cons]

lemma forall_mentions_seq {items : List Ty} :
    (∀ x ∈ (Ty.seq items).mentions, p x) ↔ ∀ t ∈ items, ∀ x ∈ t.mentions, p x :=
  forall_mentionsAll

lemma forall_mentions_tuple {items : List Ty} :
    (∀ x ∈ (Ty.tuple items).mentions, p x) ↔ ∀ t ∈ items, ∀ x ∈ t.mentions, p x :=
  forall_mentionsAll

lemma forall_mentions_func {fn : LengthFn} {args : List Ty} :
    (∀ x ∈ (Ty.func fn args).mentions, p x) ↔ ∀ t ∈ args, ∀ x ∈ t.mentions, p x :=
  forall_mentionsAll

lemma forall_mentions_list {element length : Ty} :
    (∀ x ∈ (Ty.list element length).mentions, p x) ↔
      (∀ x ∈ element.mentions, p x) ∧ ∀ x ∈ length.mentions, p x :=
  List.forall_mem_append

lemma forall_mentions_exclusions {table : List Exclusion} :
    (∀ x ∈ Exclusion.mentionsAll table, p x) ↔
      ∀ e ∈ table, e.Forall fun t => ∀ x ∈ t.mentions, p x := by
  have hrows : ∀ rows : List (List Ty), (∀ x ∈ mentionsRows rows, p x) ↔
      ∀ row ∈ rows, ∀ t ∈ row, ∀ x ∈ t.mentions, p x := by
    intro rows
    induction rows with
    | nil => simp [mentionsRows]
    | cons row rows ih =>
      rw [mentionsRows, List.forall_mem_append, ih, forall_mentionsAll, List.forall_mem_cons]
  induction table with
  | nil => simp [Exclusion.mentionsAll]
  | cons e rest ih =>
    obtain ⟨key, values⟩ := e
    rw [Exclusion.mentionsAll, List.forall_mem_append, List.forall_mem_cons, Exclusion.mentions,
      List.forall_mem_append, forall_mentionsAll, hrows, Exclusion.forall_iff]
    exact and_congr_right' ih

lemma forall_mentions_contract {body : Contract} :
    (∀ x ∈ (Ty.contract body).mentions, p x) ↔
      (∀ x ∈ body.receives.mentions, p x) ∧ (∀ x ∈ body.yields.mentions, p x) ∧
        (∀ condition ∈ body.condition, ∀ x ∈ condition.occurrences, p x) ∧
          ∀ e ∈ body.forbidden, e.Forall fun t => ∀ x ∈ t.mentions, p x := by
  obtain ⟨receives, yields, condition, forbidden, source, restorable⟩ := body
  rw [mentions, Contract.mentions, List.forall_mem_append, List.forall_mem_append,
    List.forall_mem_append, forall_mentions_exclusions, and_assoc, and_assoc]
  cases condition <;> simp

/-- The variables that occur in a value are among those that it mentions. -/
lemma within_vars_of_mentions {t : Ty} (h : ∀ x ∈ t.mentions, p x) : t.Within (.vars p) := by
  induction t with
  | void | const | int | star => trivial
  | var x => exact h x List.mem_cons_self
  | seq items ih => exact within_seq.2 fun t ht => ih t ht (forall_mentions_seq.1 h t ht)
  | tuple items ih => exact within_tuple.2 fun t ht => ih t ht (forall_mentions_tuple.1 h t ht)
  | func fn args ih => exact within_func.2 fun t ht => ih t ht (forall_mentions_func.1 h t ht)
  | list element length ihe ihl =>
    obtain ⟨he, hl⟩ := forall_mentions_list.1 h
    exact ⟨ihe he, ihl hl⟩
  | contract body ihr ihy =>
    obtain ⟨hr, hy, -, -⟩ := forall_mentions_contract.1 h
    exact within_contract.2 ⟨.inl trivial, ihr hr, ihy hy⟩

end Ty

/-! ### Replacing variables -/

/-- Following the variables of a condition depends on what they stand for. -/
lemma Condition.rename_congr {value value' : String → Ty} {c : Condition}
    (h : ∀ x ∈ c.occurrences, value x = value' x) : c.rename value = c.rename value' := by
  induction c with
  | inherits x cls => rw [rename, rename, h x List.mem_cons_self]
  | both l r ihl ihr =>
    obtain ⟨hl, hr⟩ := List.forall_mem_append.1 h
    rw [rename, rename, ihl hl, ihr hr]

/-- What becomes of an exclusion depends on what becomes of its values. -/
lemma Exclusion.expand_congr {look look' : Nat → String → Ty} {e : Exclusion}
    (h : e.Forall fun t => t.expand look 0 = t.expand look' 0) :
    e.expand look = e.expand look' := by
  have hrow : ∀ row : List Ty, (∀ t ∈ row, t.expand look 0 = t.expand look' 0) →
      (row.map fun t => (t.expand look 0).normalize) =
        row.map fun t => (t.expand look' 0).normalize :=
    fun row hrow => List.map_congr_left fun t ht => congrArg Ty.normalize (hrow t ht)
  rw [expand_eq_map, expand_eq_map, hrow e.key h.key]
  exact congrArg _ (List.map_congr_left fun row hmem => hrow row (h.values row hmem))

/-- What becomes of a value depends on what the variables that it mentions stand for. -/
lemma Ty.expand_congr {look look' : Nat → String → Ty} {t : Ty} {depth depth' : Nat}
    (h : ∀ x ∈ t.mentions, look depth x = look' depth' x ∧ look 0 x = look' 0 x) :
    t.expand look depth = t.expand look' depth' := by
  induction t using deepInduction generalizing depth depth' with
  | void | const | int | star => rfl
  | var x => exact (h x List.mem_cons_self).1
  | seq items ih =>
    rw [expand, expand, expandAll_eq_map, expandAll_eq_map]
    exact congrArg _ (List.map_congr_left fun t ht => ih t ht (forall_mentions_seq.1 h t ht))
  | tuple items ih =>
    rw [expand, expand, expandAll_eq_map, expandAll_eq_map]
    exact congrArg _ (List.map_congr_left fun t ht => ih t ht (forall_mentions_tuple.1 h t ht))
  | func fn args ih =>
    rw [expand, expand, expandAll_eq_map, expandAll_eq_map]
    exact congrArg _ (List.map_congr_left fun t ht => ih t ht (forall_mentions_func.1 h t ht))
  | list element length ihe ihl =>
    obtain ⟨he, hl⟩ := forall_mentions_list.1 h
    rw [expand, expand, ihe he, ihl hl]
  | contract body ihr ihy ihf =>
    -- Inside a contract the depth is zero, so only the second part of the hypothesis is needed.
    have hzero : ∀ x ∈ (Ty.contract body).mentions,
        look 0 x = look' 0 x ∧ look 0 x = look' 0 x := fun x hx => ⟨(h x hx).2, (h x hx).2⟩
    obtain ⟨hr, hy, hc, hf⟩ := forall_mentions_contract.1 hzero
    have htable : Exclusions.expandInto? look [] body.forbidden =
        Exclusions.expandInto? look' [] body.forbidden := by
      rw [Exclusions.expandInto?_eq_enterAll?, Exclusions.expandInto?_eq_enterAll?]
      refine congrArg _ (List.map_congr_left fun e he => Exclusion.expand_congr ?_)
      exact ⟨fun t ht => (ihf e he).key t ht ((hf e he).key t ht),
        fun row hrow t ht => (ihf e he).values row hrow t ht ((hf e he).values row hrow t ht)⟩
    obtain ⟨receives, yields, condition, forbidden, source, restorable⟩ := body
    rw [expand, expand, Contract.expand, Contract.expand, htable, ihr hr, ihy hy]
    have hcondition : condition.map (Condition.rename fun x => (look 0 x).normalize) =
        condition.map (Condition.rename fun x => (look' 0 x).normalize) := by
      refine Option.map_congr fun c hmem => Condition.rename_congr fun x hx => ?_
      rw [(hc c hmem x hx).1]
    rw [hcondition]

namespace Bindings

variable {b : Bindings}

/-! ### Circles -/

/-- The variable `x` is bound to a value that mentions the variable `y`. -/
def Mentions (b : Bindings) (x y : String) : Prop :=
  ∃ t, b.find? x = some t ∧ y ∈ t.mentions

/-- No variable leads back to itself through the values of bound variables. -/
def Acyclic (b : Bindings) : Prop :=
  ∀ x, ¬Relation.TransGen b.Mentions x x

/-- A rank of the variables that falls from a bound variable to those that its value mentions, and
that the size of the table bounds. -/
structure Ranked (b : Bindings) (rank : String → Nat) : Prop where
  le_size : ∀ x, rank x ≤ b.size
  pos : ∀ {x t}, b.find? x = some t → 0 < rank x
  lt : ∀ {x t}, b.find? x = some t → ∀ y ∈ t.mentions, rank y < rank x

/-- A table over which any rank falls has no circles. -/
lemma acyclic_of_rank (rank : String → Nat)
    (h : ∀ x t, b.find? x = some t → ∀ y ∈ t.mentions, rank y < rank x) : b.Acyclic := by
  have hstep : ∀ {x y}, b.Mentions x y → rank y < rank x := by
    rintro x y ⟨t, ht, hy⟩
    exact h x t ht y hy
  have hpath : ∀ {x y}, Relation.TransGen b.Mentions x y → rank y < rank x := by
    intro x y hxy
    induction hxy with
    | single h => exact hstep h
    | tail _ h ih => exact Nat.lt_trans (hstep h) ih
  intro x hx
  exact Nat.lt_irrefl _ (hpath hx)

/-- Fewer bindings make no new circle. -/
lemma Acyclic.of_extendedBy {b' : Bindings} (h : b'.Acyclic) (hbb' : b.ExtendedBy b') :
    b.Acyclic := by
  have hsub : b.Mentions ≤ b'.Mentions := by
    rintro y z ⟨t, ht, hz⟩
    exact ⟨t, hbb' y t ht, hz⟩
  intro x hx
  exact h x (Relation.TransGen.mono hsub x x hx)

/-- Without circles the bound variables within reach are a rank. -/
theorem Acyclic.exists_ranked (h : b.Acyclic) : ∃ rank, b.Ranked rank := by
  classical
  let reach (x : String) : Finset String :=
    b.names.toFinset.filter (Relation.ReflTransGen b.Mentions x)
  have hself : ∀ {x t}, b.find? x = some t → x ∈ reach x := by
    intro x t ht
    have hx : x ∈ b.names := NameTable.mem_names_iff.2 (NameTable.contains_iff.2 ⟨t, ht⟩)
    exact Finset.mem_filter.2 ⟨List.mem_toFinset.2 hx, .refl⟩
  refine ⟨fun x => (reach x).card, fun x => ?_, fun ht => ?_, fun {x t} ht y hy => ?_⟩
  · calc (reach x).card ≤ b.names.toFinset.card := Finset.card_filter_le _ _
      _ ≤ b.names.length := b.names.toFinset_card_le
      _ = b.size := List.length_map _
  · exact Finset.card_pos.2 ⟨_, hself ht⟩
  · -- What is within reach of `y` is within reach of `x`, but `x` itself is out of reach of `y`.
    have hxy : b.Mentions x y := ⟨t, ht, hy⟩
    refine Finset.card_lt_card ((Finset.ssubset_iff_of_subset fun z hz => ?_).2 ⟨x, hself ht, ?_⟩)
    · obtain ⟨hz, hreach⟩ := Finset.mem_filter.1 hz
      exact Finset.mem_filter.2 ⟨hz, .head hxy hreach⟩
    · intro hx
      exact h x (.head' hxy (Finset.mem_filter.1 hx).2)

/-- Induction along a table without circles: a bound variable comes after those that its value
mentions. -/
theorem Acyclic.induction (h : b.Acyclic) {motive : String → Prop}
    (free : ∀ x, b.find? x = none → motive x)
    (bound : ∀ x t, b.find? x = some t → (∀ y ∈ t.mentions, motive y) → motive x) (x : String) :
    motive x := by
  obtain ⟨rank, hrank⟩ := h.exists_ranked
  induction hn : rank x using Nat.strong_induction_on generalizing x with
  | _ n ih =>
    cases hx : b.find? x with
    | none => exact free x hx
    | some t => exact bound x t hx fun y hy => ih (rank y) (hn ▸ hrank.lt hx y hy) y rfl

/-! ### Looking up variables -/

/-- What a variable stands for depends neither on the depth nor on the bound, as long as there is
room for its rank. -/
lemma Ranked.lookWithin_eq {rank : String → Nat} (h : b.Ranked rank) {x : String}
    {bound bound' depth depth' : Nat} (hbound : rank x ≤ bound) (hbound' : rank x ≤ bound')
    (hdepth : depth + rank x ≤ b.size) (hdepth' : depth' + rank x ≤ b.size) :
    b.lookWithin bound depth x = b.lookWithin bound' depth' x := by
  induction bound generalizing x bound' depth depth' with
  | zero =>
    have hx : b.find? x = none := by
      rw [← Option.not_isSome_iff_eq_none, Option.isSome_iff_exists]
      rintro ⟨t, ht⟩
      exact absurd (h.pos ht) (Nat.not_lt.2 hbound)
    rw [lookWithin_of_find?_eq_none hx, lookWithin_of_find?_eq_none hx]
  | succ bound ih =>
    cases hx : b.find? x with
    | none => rw [lookWithin_of_find?_eq_none hx, lookWithin_of_find?_eq_none hx]
    | some t =>
      obtain ⟨bound', rfl⟩ : ∃ n, bound' = n + 1 :=
        Nat.exists_eq_succ_of_ne_zero (Nat.ne_of_gt (Nat.lt_of_lt_of_le (h.pos hx) hbound'))
      have hcut : ¬b.size < depth := by omega
      have hcut' : ¬b.size < depth' := by omega
      rw [lookWithin, lookWithin, hx]
      dsimp only
      rw [if_neg hcut, if_neg hcut']
      refine congrArg (Ty.withSource x) (Ty.expand_congr fun y hy => ?_)
      have hlt : rank y < rank x := h.lt hx y hy
      exact ⟨ih (by omega) (by omega) (by omega) (by omega),
        ih (by omega) (by omega) (by omega) (by omega)⟩

/-- Without circles a bound variable stands for what becomes of its value, however long the chain of
replacements is. -/
theorem Acyclic.look_eq (h : b.Acyclic) {x : String} {t : Ty} (hx : b.find? x = some t) :
    b.look 0 x = (t.expand b.look 0).withSource x := by
  obtain ⟨rank, hrank⟩ := h.exists_ranked
  have hroom : b.chainBound = b.size * (b.size + 2) + (b.size + 1) + 1 := by
    rw [chainBound, Nat.succ_mul, Nat.add_assoc]
  rw [look, hroom, lookWithin, hx]
  dsimp only
  rw [if_neg (Nat.not_lt_zero _)]
  refine congrArg (Ty.withSource x) (Ty.expand_congr fun y hy => ?_)
  have hlt : rank y < rank x := hrank.lt hx y hy
  have hsize : rank x ≤ b.size := hrank.le_size x
  have hfits : rank y ≤ b.size * (b.size + 2) + (b.size + 1) := by omega
  rw [look, hroom]
  exact ⟨hrank.lookWithin_eq hfits (by omega) (by omega) (by omega),
    hrank.lookWithin_eq hfits (by omega) (by omega) (by omega)⟩

end Bindings

end ContractComposition
