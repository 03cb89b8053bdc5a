import ContractComposition.Proofs.Exclusions
import ContractComposition.Proofs.Matching
import ContractComposition.Proofs.Contracts

/-!
# The variables of a contract

A contract mentions variables in four places: on its two sides, in its condition, and in its table
of exclusions. `Contract.OnlyMentions` says that all of them have a property. Everything that is
done with contracts keeps it as long as the bindings only mention such variables as well
(`Contract.OnlyMentions.expand` and its companions), and what has been yielded mentions none.

Variables are renamed by adding a number behind a mark. As long as the variables of a contract do
not have the mark themselves, the new names tell both the old name and the number
(`freshName_inj`), and the copy mentions the new names and the variables that are kept, nothing else
(`Contract.mem_allVars_freshen`).
-/

namespace ContractComposition

/-! ### Names -/

/-- A number can be read off its digits. -/
lemma toString_injective : Function.Injective (toString : Nat → String) := by
  intro j k h
  rw [Nat.toString_eq_ofList_toDigits, Nat.toString_eq_ofList_toDigits, String.ofList_inj] at h
  rw [← Nat.ofDigitChars_ten_toDigits (n := j), h, Nat.ofDigitChars_ten_toDigits]

/-- The mark does not occur in the name, so it does not come from a renaming. -/
def IsUnmarked (x : String) : Prop :=
  '#' ∉ x.toList

instance (x : String) : Decidable (IsUnmarked x) :=
  inferInstanceAs (Decidable (¬_))

/-- What a variable is renamed to with a number. -/
def freshName (x : String) (k : Nat) : String :=
  x ++ "#" ++ toString k

lemma toList_freshName (x : String) (k : Nat) :
    (freshName x k).toList = x.toList ++ '#' :: (toString k).toList := by
  rw [freshName, String.toList_append, String.toList_append, List.append_assoc]
  rfl

/-- A new name has the mark. -/
lemma not_isUnmarked_freshName (x : String) (k : Nat) : ¬IsUnmarked (freshName x k) := by
  rw [IsUnmarked, toList_freshName, not_not]
  exact List.mem_append_right _ List.mem_cons_self

/-- A new name tells what was renamed, and with which number. -/
lemma freshName_inj {x y : String} {j k : Nat} (hx : IsUnmarked x) (hy : IsUnmarked y)
    (h : freshName x j = freshName y k) : x = y ∧ j = k := by
  have hchars : x.toList ++ '#' :: (toString j).toList =
      y.toList ++ '#' :: (toString k).toList := by
    rw [← toList_freshName, ← toList_freshName, h]
  -- The first mark ends the old name on both sides, so both names have the same length.
  have hnames : x.toList = y.toList := by
    rcases List.append_eq_append_iff.1 hchars with ⟨rest, hxy, hrest⟩ | ⟨rest, hxy, hrest⟩
    · cases rest with
      | nil => rw [hxy, List.append_nil]
      | cons c rest =>
        obtain ⟨rfl, -⟩ := List.cons.inj hrest
        exact absurd (hxy ▸ List.mem_append_right _ List.mem_cons_self) hy
    · cases rest with
      | nil => rw [hxy, List.append_nil]
      | cons c rest =>
        obtain ⟨rfl, -⟩ := List.cons.inj hrest
        exact absurd (hxy ▸ List.mem_append_right _ List.mem_cons_self) hx
  rw [hnames] at hchars
  have hnumbers := (List.cons.inj (List.append_cancel_left hchars)).2
  exact ⟨String.toList_inj.1 hnames, toString_injective (String.toList_inj.1 hnumbers)⟩

/-- The name is unmarked, or it comes from renaming such a name with a number of at most `n`. -/
def NamedUpTo (n : Nat) (x : String) : Prop :=
  IsUnmarked x ∨ ∃ v k, IsUnmarked v ∧ k ≤ n ∧ x = freshName v k

lemma NamedUpTo.mono {m n : Nat} (hmn : m ≤ n) {x : String} (h : NamedUpTo m x) :
    NamedUpTo n x := by
  refine h.imp id ?_
  rintro ⟨v, k, hv, hk, rfl⟩
  exact ⟨v, k, hv, Nat.le_trans hk hmn, rfl⟩

/-- Renaming with a number that was not used before gives a name that was not there before. -/
lemma not_namedUpTo_freshName {n k : Nat} (hk : n < k) {x : String} (hx : IsUnmarked x) :
    ¬NamedUpTo n (freshName x k) := by
  rintro (h | ⟨v, j, hv, hj, heq⟩)
  · exact not_isUnmarked_freshName x k h
  · obtain ⟨-, rfl⟩ := freshName_inj hx hv heq
    exact absurd hk (Nat.not_lt.2 hj)

/-! ### Variables with a property -/

namespace Parts

/-- Anything, but variables with a property only. -/
def vars (p : String → Prop) : Parts where
  var := p

lemma vars_le {p q : String → Prop} (h : ∀ x, p x → q x) : (vars p).Le (vars q) :=
  ⟨fun _ => id, h, id⟩

end Parts

namespace Ty

variable {p : String → Prop}

lemma within_vars_iff {t : Ty} : t.Within (.vars p) ↔ ∀ x ∈ t.occurrences, p x := by
  have hall : t.Within (Parts.vars fun _ => True) := by
    induction t with
    | void | int | star | const | var => trivial
    | seq items ih => exact within_seq.2 ih
    | tuple items ih => exact within_tuple.2 ih
    | func fn args ih => exact within_func.2 ih
    | list element length ihe ihl => exact ⟨ihe, ihl⟩
    | contract body ihr ihy => exact within_contract.2 ⟨.inl trivial, ihr, ihy⟩
  exact (within_withVars_iff (P := Parts.vars p)).trans (and_iff_right hall)

/-- A value without variables mentions none. -/
lemma within_vars_of_isGround {t : Ty} (h : t.isGround = true) : t.Within (.vars p) := by
  rw [isGround, List.isEmpty_iff] at h
  rw [within_vars_iff, h]
  exact List.forall_mem_nil _

/-- Replacing variables gives a value the variables of what they are replaced by. -/
lemma within_vars_expand {q : String → Prop} {look : Nat → String → Ty}
    (hlook : ∀ x, p x → (look 0 x).Within (.vars q)) {t : Ty} (h : t.Within (.vars p)) :
    (t.expand look 0).normalize.Within (.vars q) := by
  refine (Within.expand ?_ ?_ hlook hlook h).normalize
  · exact fun _ ha => ha
  · exact fun hc => hc

end Ty

/-! ### Exclusions -/

namespace Exclusions

variable {p q : String → Prop} {table : List Exclusion}

/-- All values of the table only mention variables with a property. -/
def OnlyMention (p : String → Prop) (table : List Exclusion) : Prop :=
  ∀ e ∈ table, e.Forall (Ty.Within (.vars p))

lemma onlyMention_iff : OnlyMention p table ↔ ∀ x ∈ occurrences table, p x := by
  have hrow : ∀ row : List Ty, (∀ t ∈ row, t.Within (.vars p)) ↔
      ∀ x ∈ Ty.occurrencesAll row, p x := by
    intro row
    simp only [Ty.within_vars_iff, Ty.occurrencesAll_eq_flatMap, List.forall_mem_flatMap]
  have hentry : ∀ e : Exclusion, e.Forall (Ty.Within (.vars p)) ↔ ∀ x ∈ e.occurrences, p x := by
    intro e
    rw [Exclusion.forall_iff, hrow, Exclusion.occurrences, List.forall_mem_append]
    simp only [hrow, List.forall_mem_flatMap]
  simp only [OnlyMention, hentry, occurrences, List.forall_mem_flatMap]

/-- Replacing variables in exclusions and entering them into a table. -/
lemma OnlyMention.expandInto? {look : Nat → String → Ty}
    (hlook : ∀ x, p x → (look 0 x).Within (.vars q)) {entries table' : List Exclusion}
    (htable : OnlyMention q table) (hentries : OnlyMention p entries)
    (h : Exclusions.expandInto? look table entries = some table') : OnlyMention q table' := by
  rw [expandInto?_eq_enterAll?] at h
  refine forall_enterAll? htable (List.forall_mem_map.2 fun e he => ?_) h
  exact (hentries e he).expand fun _ => Ty.within_vars_expand hlook

end Exclusions

/-! ### Contracts -/

namespace Condition

/-- What a condition mentions after its variables were followed. -/
lemma forall_occurrences_rename {p q : String → Prop} {value : String → Ty}
    (hvalue : ∀ x, p x → (∃ y, value x = .var y ∧ q y) ∨ (∀ y, value x ≠ .var y) ∧ q x)
    {c : Condition} (hc : ∀ x ∈ c.occurrences, p x) : ∀ x ∈ (c.rename value).occurrences, q x := by
  induction c with
  | inherits x cls =>
    have hx := hc x List.mem_cons_self
    rw [rename]
    rcases hvalue x hx with ⟨y, hy, hq⟩ | ⟨hne, hq⟩
    · rw [hy]
      exact List.forall_mem_singleton.2 hq
    · split
      · rename_i y hy
        exact absurd hy (hne y)
      · exact List.forall_mem_singleton.2 hq
  | both l r ihl ihr =>
    obtain ⟨hl, hr⟩ := List.forall_mem_append.1 hc
    exact List.forall_mem_append.2 ⟨ihl hl, ihr hr⟩

end Condition

namespace Contract

variable {p q : String → Prop} {c : Contract} {b : Bindings}

/-- All variables of the contract have a property. -/
structure OnlyMentions (p : String → Prop) (c : Contract) : Prop where
  receives : c.receives.Within (.vars p)
  yields : c.yields.Within (.vars p)
  forbidden : Exclusions.OnlyMention p c.forbidden
  condition : ∀ condition, c.condition = some condition → ∀ x ∈ condition.occurrences, p x

lemma onlyMentions_iff : c.OnlyMentions p ↔ ∀ x ∈ c.allVars, p x := by
  have hcondition : (∀ x ∈ (c.condition.map Condition.occurrences).getD [], p x) ↔
      ∀ condition, c.condition = some condition → ∀ x ∈ condition.occurrences, p x := by
    cases c.condition <;> simp
  simp only [allVars, Names.mem_ofList, List.forall_mem_append, hcondition,
    ← Exclusions.onlyMention_iff, ← Ty.within_vars_iff]
  constructor
  · intro h
    exact ⟨⟨⟨h.receives, h.yields⟩, h.forbidden⟩, h.condition⟩
  · rintro ⟨⟨⟨hreceives, hyields⟩, hforbidden⟩, hcondition⟩
    exact ⟨hreceives, hyields, hforbidden, hcondition⟩

/-- Receiving a value leaves and binds variables of the receiving side and of the known bindings, and
the values that are bound have no others but those of the offered value. -/
lemma within_vars_accept? {offered : Ty} {hierarchy : Hierarchy} {received : Received}
    (hb : ∀ x t, b.find? x = some t → p x ∧ t.Within (.vars p))
    (hreceives : c.receives.Within (.vars p)) (hoffered : offered.Within (.vars p))
    (hreceived : c.accept? offered b hierarchy = some received) :
    received.successor.receives.Within (.vars p) ∧
      ∀ x t, received.bindings.find? x = some t → p x ∧ t.Within (.vars p) := by
  obtain ⟨head, rest, found, hpop, hfound, hjoin, -, -, hsuccessor⟩ :=
    accept?_eq_some_iff.1 hreceived
  obtain ⟨hhead, hrest⟩ := hreceives.pop? hpop
  have hpattern : (head.subst b).Within (.vars p) := hhead.subst fun y u hy => (hb y u hy).2
  refine ⟨?_, fun x t hx => ?_⟩
  · rw [hsuccessor]
    exact hrest
  · rcases Bindings.find?_of_join? hjoin hx with hx | hx
    · exact hb x t hx
    · exact ⟨Ty.within_vars_iff.1 hpattern x (Ty.mem_occurrences_of_matching? hfound x t hx),
        Ty.within_matching? hoffered hfound x t hx⟩

namespace OnlyMentions

lemma mono (hpq : ∀ x, p x → q x) (h : c.OnlyMentions p) : c.OnlyMentions q :=
  onlyMentions_iff.2 fun x hx => hpq x (onlyMentions_iff.1 h x hx)

/-- A contract without constraints mentions what its sides mention. -/
lemma of_sides (hreceives : c.receives.Within (.vars p)) (hyields : c.yields.Within (.vars p))
    (hcondition : c.condition = none) (hforbidden : c.forbidden = []) : c.OnlyMentions p where
  receives := hreceives
  yields := hyields
  forbidden := by
    rw [hforbidden]
    exact List.forall_mem_nil _
  condition := by
    rw [hcondition]
    exact nofun

/-- Replacing variables. A clause of a condition that cannot follow its variable keeps it. -/
lemma expand {look : Nat → String → Ty} (hlook : ∀ x, p x → (look 0 x).Within (.vars q))
    (hclause : ∀ x, p x → (∀ y, (look 0 x).normalize ≠ .var y) → q x) (h : c.OnlyMentions p) :
    (c.expand look).OnlyMentions q := by
  rcases expand_cases look c with heq | ⟨table, htable, heq⟩
  · rw [heq]
    exact of_sides trivial trivial rfl rfl
  · rw [heq]
    refine ⟨Ty.within_vars_expand hlook h.receives, Ty.within_vars_expand hlook h.yields,
      Exclusions.OnlyMention.expandInto? hlook (List.forall_mem_nil _) h.forbidden htable, ?_⟩
    intro condition hcondition
    obtain ⟨old, hold, rfl⟩ := Option.map_eq_some_iff.1 hcondition
    refine Condition.forall_occurrences_rename (fun x hx => ?_) (h.condition old hold)
    by_cases hvar : ∃ y, (look 0 x).normalize = .var y
    · obtain ⟨y, hy⟩ := hvar
      have hwithin := (hlook x hx).normalize
      rw [hy] at hwithin
      exact .inl ⟨y, hy, hwithin⟩
    · rw [not_exists] at hvar
      exact .inr ⟨hvar, hclause x hx hvar⟩

/-- Substituting bindings to values that only mention variables with the property. -/
lemma subst (hb : b.Within (.vars p)) (h : c.OnlyMentions p) : (c.subst b).OnlyMentions p :=
  h.expand (fun _ hx => Ty.within_lookWithin hb hx _ _) fun _ hx _ => hx

/-- What is yielded mentions no variables, and neither does what is left to be yielded. -/
lemma produce? {yielded : Yielded} (h : c.produce? b = some yielded) :
    yielded.value.isGround = true ∧ yielded.successor.OnlyMentions p := by
  obtain ⟨-, hground, rest, hpop, hsuccessor⟩ := produce?_eq_some_iff.1 h
  have hyields : (c.yields.subst b).Within (.vars fun _ => False) :=
    Ty.within_vars_of_isGround hground
  obtain ⟨hvalue, hrest⟩ := hyields.pop? hpop
  have hvalue' : yielded.value.Within (Parts.vars fun _ => False).ground := hvalue
  refine ⟨hvalue'.isGround, ?_⟩
  rw [hsuccessor]
  exact of_sides trivial (hrest.mono (Parts.vars_le fun _ => False.elim)).normalize rfl rfl

/-- What is left of a contract that has received a ground value, and what is bound afterwards. -/
lemma accept? {offered : Ty} {hierarchy : Hierarchy} {received : Received}
    (hb : ∀ x t, b.find? x = some t → p x ∧ t.Within (.vars p)) (h : c.OnlyMentions p)
    (hoffered : offered.isGround = true)
    (hreceived : c.accept? offered b hierarchy = some received) :
    received.successor.OnlyMentions p ∧
      ∀ x t, received.bindings.find? x = some t → p x ∧ t.Within (.vars p) := by
  obtain ⟨hrest, hbindings⟩ :=
    within_vars_accept? hb h.receives (Ty.within_vars_of_isGround hoffered) hreceived
  obtain ⟨-, rest, -, -, -, -, -, -, hsuccessor⟩ := accept?_eq_some_iff.1 hreceived
  refine ⟨?_, hbindings⟩
  rw [hsuccessor] at hrest ⊢
  exact ⟨hrest, h.yields, h.forbidden, h.condition⟩

lemma appendYield (h : c.OnlyMentions p) {value : Ty} (hvalue : value.isGround = true) :
    (c.appendYield value).OnlyMentions p where
  receives := h.receives
  yields := h.yields.concat
    (Ty.within_sequence (List.forall_mem_singleton.2 (Ty.within_vars_of_isGround hvalue)))
  forbidden := h.forbidden
  condition := h.condition

/-- Handing out ground values adds no variables. -/
lemma output {values : List Ty} (h : ∀ v ∈ values, v.isGround = true) :
    (Contract.of .void (Ty.sequence values)).OnlyMentions p := by
  have hyields := Ty.within_sequence fun v hv => Ty.within_vars_of_isGround (p := p) (h v hv)
  exact of_sides trivial hyields.normalize rfl rfl

lemma andThen {first : Contract} (hfirst : first.OnlyMentions p) (h : c.OnlyMentions p) :
    (first.andThen c).OnlyMentions p where
  receives := hfirst.receives.concat h.receives
  yields := hfirst.yields.concat h.yields
  forbidden := h.forbidden
  condition := h.condition

end OnlyMentions

/-! ### Copies with fresh variables -/

/-- A variable that is renamed stands for its new name, as long as no new name is renamed. -/
lemma look_suffixing {vars keep : List String} {k : Nat} (hvars : ∀ x ∈ vars, IsUnmarked x)
    {x : String} (hx : x ∈ vars) :
    (Bindings.suffixing vars k keep).look 0 x =
      if x ∈ keep then .var x else .var (freshName x k) := by
  split
  · rename_i hkeep
    exact Bindings.look_of_find?_eq_none (Bindings.find?_suffixing_of_mem hkeep) 0
  · rename_i hkeep
    obtain ⟨bound, hlook⟩ :=
      Bindings.look_zero_of_find?_eq_some (Bindings.find?_suffixing_of_not_mem hx hkeep k)
    have hnone : (Bindings.suffixing vars k keep).find? (x ++ "#" ++ toString k) = none :=
      Bindings.find?_suffixing_of_not_mem_vars fun hmem =>
        not_isUnmarked_freshName x k (hvars _ hmem)
    rw [hlook, Ty.expand]
    cases bound with
    | zero => rfl
    | succ bound =>
      rw [Bindings.lookWithin, hnone]
      rfl

/-- A copy of a contract mentions the new names of its variables and those that are kept. -/
theorem mem_allVars_freshen {k : Nat} {keep : List String} (hc : ∀ x ∈ c.allVars, IsUnmarked x)
    {x : String} (hx : x ∈ (c.freshen k keep).allVars) :
    x ∈ keep ∧ x ∈ c.allVars ∨ ∃ v ∈ c.allVars, v ∉ keep ∧ x = freshName v k := by
  have hlook : ∀ v, v ∈ c.allVars → (Bindings.suffixing c.allVars k keep).look 0 v =
      if v ∈ keep then .var v else .var (freshName v k) := fun v hv => look_suffixing hc hv
  have hself : c.OnlyMentions (· ∈ c.allVars) := onlyMentions_iff.2 fun _ hx => hx
  refine onlyMentions_iff.1 (hself.expand
    (q := fun x => x ∈ keep ∧ x ∈ c.allVars ∨ ∃ v ∈ c.allVars, v ∉ keep ∧ x = freshName v k)
    (fun v hv => ?_) fun v hv hne => ?_) x hx
  · rw [hlook v hv]
    split
    · rename_i hkeep
      exact .inl ⟨hkeep, hv⟩
    · rename_i hkeep
      exact .inr ⟨v, hv, hkeep, rfl⟩
  · rw [hlook v hv] at hne
    split at hne
    · exact absurd rfl (hne v)
    · exact absurd rfl (hne (freshName v k))

end Contract

end ContractComposition
