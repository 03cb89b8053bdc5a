import ContractComposition.Proofs.Equality

/-!
# Exclusions under growing bindings

Substituting bindings into a table of exclusions changes it in several ways at once: tuples that
have become equal are merged, keys that have become equal share their tuples, and exclusions without
variables are dropped. Still the table keeps its meaning. Substitution fails exactly if the bindings
violate the table (`Exclusions.subst?_eq_none_iff`), and otherwise the new table is violated by the
same later bindings as the old one, provided that these make the same of a value in two stages as at
once (`Exclusions.violatedBy_subst?`). Steady values are of this kind (`Exclusions.subst?_cases`).

The reason is that equal tuples differ in annotations only, and that an exclusion without variables
does not change any more. Both are needed of the later bindings, and `Bindings.Respects` says so.
-/

namespace ContractComposition

namespace Tuples

/-! ### Equal tuples -/

/-- Every tuple of the one list has an equal one in the other. -/
def CoveredBy (rows rows' : List (List Ty)) : Prop :=
  ∀ row ∈ rows, ∃ row' ∈ rows', row'.map Ty.bare = row.map Ty.bare

lemma CoveredBy.trans {rows rows' rows'' : List (List Ty)} (h : CoveredBy rows rows')
    (h' : CoveredBy rows' rows'') : CoveredBy rows rows'' := by
  intro row hrow
  obtain ⟨row', hrow', heq⟩ := h row hrow
  obtain ⟨row'', hrow'', heq'⟩ := h' row' hrow'
  exact ⟨row'', hrow'', heq'.trans heq⟩

/-- The new list has no tuples but those of the old one, and an equal one for each of them. -/
structure Represents (old new : List (List Ty)) : Prop where
  subset : new ⊆ old
  covered : CoveredBy old new

namespace Represents

lemma refl (rows : List (List Ty)) : Represents rows rows :=
  ⟨List.Subset.refl _, fun row hrow => ⟨row, hrow, rfl⟩⟩

lemma trans {rows rows' rows'' : List (List Ty)} (h : Represents rows rows')
    (h' : Represents rows' rows'') : Represents rows rows'' :=
  ⟨fun _ hr => h.subset (h'.subset hr), h.covered.trans h'.covered⟩

/-- A tuple may go further back in a list. -/
lemma behind {row : List Ty} {rest new : List (List Ty)} (h : Represents (row :: rest) new)
    (other : List Ty) : Represents (row :: other :: rest) (other :: new) := by
  constructor
  · intro r hr
    rcases List.mem_cons.1 hr with rfl | hr
    · exact List.mem_cons_of_mem _ List.mem_cons_self
    · rcases List.mem_cons.1 (h.subset hr) with rfl | hrest
      · exact List.mem_cons_self
      · exact List.mem_cons_of_mem _ (List.mem_cons_of_mem _ hrest)
  · intro r hr
    by_cases hother : r = other
    · exact ⟨other, List.mem_cons_self, by rw [hother]⟩
    · have hold : r ∈ row :: rest := by
        rcases List.mem_cons.1 hr with rfl | hr
        · exact List.mem_cons_self
        · exact List.mem_cons_of_mem _ ((List.mem_cons.1 hr).resolve_left hother)
      obtain ⟨r', hr', heq⟩ := h.covered r hold
      exact ⟨r', List.mem_cons_of_mem _ hr', heq⟩

end Represents

lemma represents_insert (row : List Ty) (rows : List (List Ty)) :
    Represents (row :: rows) (insert row rows) := by
  induction rows with
  | nil => exact Represents.refl _
  | cons other rest ih =>
    unfold insert
    split
    · exact Represents.refl _
    · rename_i heq
      refine ⟨List.subset_cons_self _ _, ?_⟩
      intro r hr
      rcases List.mem_cons.1 hr with rfl | hr
      · exact ⟨other, List.mem_cons_self, (Ty.map_bare_eq_of_cmpAll_eq heq).symm⟩
      · exact ⟨r, hr, rfl⟩
    · exact ih.behind other

lemma represents_replace (row : List Ty) (rows : List (List Ty)) :
    Represents (row :: rows) (replace row rows) := by
  induction rows with
  | nil => exact Represents.refl _
  | cons other rest ih =>
    unfold replace
    split
    · exact Represents.refl _
    · rename_i heq
      refine ⟨List.cons_subset_cons _ (List.subset_cons_self _ _), ?_⟩
      intro r hr
      rcases List.mem_cons.1 hr with rfl | hr
      · exact ⟨r, List.mem_cons_self, rfl⟩
      · rcases List.mem_cons.1 hr with rfl | hr
        · exact ⟨row, List.mem_cons_self, Ty.map_bare_eq_of_cmpAll_eq heq⟩
        · exact ⟨r, List.mem_cons_of_mem _ hr, rfl⟩
    · exact ih.behind other

/-- Adding tuples one after another represents all of them, if each addition does so. -/
lemma represents_foldl {add : List Ty → List (List Ty) → List (List Ty)}
    (hadd : ∀ row rows, Represents (row :: rows) (add row rows)) (new rows : List (List Ty)) :
    Represents (new ++ rows) (new.foldl (fun rows row => add row rows) rows) := by
  induction new generalizing rows with
  | nil => exact Represents.refl _
  | cons row new ih =>
    have hmiddle : Represents (row :: new ++ rows) (new ++ row :: rows) := by
      have hperm : (row :: new ++ rows).Perm (new ++ row :: rows) := List.perm_middle.symm
      exact ⟨hperm.symm.subset, fun r hr => ⟨r, hperm.subset hr, rfl⟩⟩
    have hstep : Represents (new ++ row :: rows) (new ++ add row rows) := by
      constructor
      · intro r hr
        exact List.mem_append.2 ((List.mem_append.1 hr).imp id fun hr => (hadd row rows).subset hr)
      · intro r hr
        rcases List.mem_append.1 hr with hr | hr
        · exact ⟨r, List.mem_append_left _ hr, rfl⟩
        · obtain ⟨r', hr', heq⟩ := (hadd row rows).covered r hr
          exact ⟨r', List.mem_append_right _ hr', heq⟩
    exact (hmiddle.trans hstep).trans (ih _)

lemma represents_insertAll (rows new : List (List Ty)) :
    Represents (new ++ rows) (insertAll rows new) :=
  represents_foldl represents_insert new rows

lemma represents_ofList (rows : List (List Ty)) : Represents rows (ofList rows) := by
  have h := represents_foldl represents_replace rows []
  rwa [List.append_nil] at h

end Tuples

namespace Exclusion

/-! ### One exclusion -/

/-- All values of the exclusion have a property. -/
structure Forall (p : Ty → Prop) (e : Exclusion) : Prop where
  key : ∀ t ∈ e.key, p t
  values : ∀ row ∈ e.values, ∀ t ∈ row, p t

lemma forall_iff {p : Ty → Prop} {e : Exclusion} :
    e.Forall p ↔ (∀ t ∈ e.key, p t) ∧ ∀ row ∈ e.values, ∀ t ∈ row, p t :=
  ⟨fun h => ⟨h.key, h.values⟩, fun h => ⟨h.1, h.2⟩⟩

lemma Forall.of_subset {p : Ty → Prop} {key : List Ty} {values values' : List (List Ty)}
    (h : (⟨key, values⟩ : Exclusion).Forall p) (hsubset : values' ⊆ values) :
    (⟨key, values'⟩ : Exclusion).Forall p :=
  ⟨h.key, fun row hrow => h.values row (hsubset hrow)⟩

end Exclusion

/-- Induction over a value, the sides of the contracts in it and the values of their exclusions. -/
theorem Ty.deepInduction {motive : Ty → Prop} (void : motive .void)
    (const : ∀ name, motive (.const name)) (var : ∀ name, motive (.var name))
    (int : ∀ n, motive (.int n)) (star : motive .star)
    (seq : ∀ items, (∀ t ∈ items, motive t) → motive (.seq items))
    (tuple : ∀ items, (∀ t ∈ items, motive t) → motive (.tuple items))
    (list : ∀ element length, motive element → motive length → motive (.list element length))
    (func : ∀ fn args, (∀ t ∈ args, motive t) → motive (.func fn args))
    (contract : ∀ body : Contract, motive body.receives → motive body.yields →
      (∀ e ∈ body.forbidden, e.Forall motive) → motive (.contract body)) (t : Ty) : motive t :=
  @Ty.rec motive
    (fun body => motive body.receives ∧ motive body.yields ∧ ∀ e ∈ body.forbidden, e.Forall motive)
    (fun e => e.Forall motive) (fun items => ∀ t ∈ items, motive t)
    (fun table => ∀ e ∈ table, e.Forall motive) (fun rows => ∀ row ∈ rows, ∀ t ∈ row, motive t)
    void const var int star seq tuple list func (fun body ih => contract body ih.1 ih.2.1 ih.2.2)
    (fun _ _ _ _ _ _ hreceives hyields hforbidden => ⟨hreceives, hyields, hforbidden⟩)
    (fun _ _ hkey hvalues => ⟨hkey, hvalues⟩) (fun _ h => nomatch h)
    (fun _ _ hhead htail => List.forall_mem_cons.2 ⟨hhead, htail⟩)
    (fun _ h => nomatch h) (fun _ _ hhead htail => List.forall_mem_cons.2 ⟨hhead, htail⟩)
    (fun _ h => nomatch h) (fun _ _ hhead htail => List.forall_mem_cons.2 ⟨hhead, htail⟩) t

namespace Exclusion

/-- All values of the exclusion are steady. -/
structure IsSteady (e : Exclusion) : Prop where
  key : ∀ t ∈ e.key, t.IsSteady
  values : ∀ row ∈ e.values, ∀ t ∈ row, t.IsSteady

lemma isSteady_iff_forall {e : Exclusion} : e.IsSteady ↔ e.Forall Ty.IsSteady :=
  ⟨fun h => ⟨h.key, h.values⟩, fun h => ⟨h.key, h.values⟩⟩

/-- All values of the exclusion are in normal form. -/
structure IsNormal (e : Exclusion) : Prop where
  key : ∀ t ∈ e.key, t.normalize = t
  values : ∀ row ∈ e.values, ∀ t ∈ row, t.normalize = t

/-- The bindings make two tuples equal. -/
def Equates (θ : Bindings) (row key : List Ty) : Prop :=
  (row.map fun t => (t.subst θ).bare) = key.map fun t => (t.subst θ).bare

lemma violatedBy_iff {e : Exclusion} {θ : Bindings} :
    e.violatedBy θ = true ↔ ∃ row ∈ e.values, Equates θ row e.key := by
  simp only [violatedBy, List.any_eq_true, Ty.beqAll_iff_bare_eq, List.map_map]
  exact Iff.rfl

lemma isViolated_iff {e : Exclusion} :
    e.isViolated = true ↔ ∃ row ∈ e.values, row.map Ty.bare = e.key.map Ty.bare := by
  simp only [isViolated, List.any_eq_true, Ty.beqAll_iff_bare_eq]

end Exclusion

/-- Substituting `θ` respects the values with the property `p`: equal ones stay equal, and one that
is in normal form and has no variables stays what it is, up to annotations. -/
structure Bindings.Respects (θ : Bindings) (p : Ty → Prop) : Prop where
  congr : ∀ {t u : Ty}, p t → p u → t.bare = u.bare → (t.subst θ).bare = (u.subst θ).bare
  ground : ∀ {t : Ty}, p t → t.normalize = t → t.isGround = true → (t.subst θ).bare = t.bare

lemma Bindings.Respects.mono {θ : Bindings} {p q : Ty → Prop} (h : θ.Respects q)
    (hpq : ∀ t, p t → q t) : θ.Respects p :=
  ⟨fun ht hu => h.congr (hpq _ ht) (hpq _ hu), fun ht => h.ground (hpq _ ht)⟩

/-- All bindings respect the values in which no contract carries constraints. -/
lemma Bindings.respects_unconstrained (θ : Bindings) : θ.Respects (Ty.Within .unconstrained) where
  congr ht hu h := Ty.bare_subst_congr ht hu h θ
  ground {t} ht hnormal hground := by
    have hplain : t.IsPlain := Ty.isPlain_iff.2 ⟨hground, ht⟩
    rw [hplain.subst_eq, hnormal]

/-- All bindings respect steady values. -/
lemma Bindings.respects_isSteady (θ : Bindings) : θ.Respects Ty.IsSteady :=
  θ.respects_unconstrained.mono fun _ ht => ht.unconstrained

namespace Exclusion

variable {p : Ty → Prop} {θ : Bindings}

/-- Tuples that are equal before a substitution are equal after it. -/
lemma map_bare_subst_congr (hθ : θ.Respects p) {row row' : List Ty} (hrow : ∀ t ∈ row, p t)
    (hrow' : ∀ t ∈ row', p t) (h : row.map Ty.bare = row'.map Ty.bare) :
    (row.map fun t => (t.subst θ).bare) = row'.map fun t => (t.subst θ).bare := by
  refine Ty.map_eq_map_of_zip h fun p hp => ?_
  obtain ⟨ht, ht'⟩ := List.of_mem_zip hp
  exact hθ.congr (hrow p.1 ht) (hrow' p.2 ht')

/-- What an exclusion forbids depends on its key and its tuples up to equality only. -/
lemma violatedBy_of_coveredBy (hθ : θ.Respects p) {e e' : Exclusion} (he : e.Forall p)
    (he' : e'.Forall p) (hkey : e.key.map Ty.bare = e'.key.map Ty.bare)
    (hvalues : Tuples.CoveredBy e.values e'.values) (h : e.violatedBy θ = true) :
    e'.violatedBy θ = true := by
  obtain ⟨row, hrow, hequates⟩ := violatedBy_iff.1 h
  obtain ⟨row', hrow', heq⟩ := hvalues row hrow
  refine violatedBy_iff.2 ⟨row', hrow', ?_⟩
  rw [Equates, map_bare_subst_congr hθ (he'.values row' hrow') (he.values row hrow) heq,
    ← map_bare_subst_congr hθ he.key he'.key hkey]
  exact hequates

/-- The exclusion with other tuples that represent those of the exclusion. -/
lemma violatedBy_iff_of_represents (hθ : θ.Respects p) {key : List Ty}
    {values values' : List (List Ty)} (he : (⟨key, values⟩ : Exclusion).Forall p)
    (h : Tuples.Represents values values') :
    (⟨key, values'⟩ : Exclusion).violatedBy θ = true ↔
      (⟨key, values⟩ : Exclusion).violatedBy θ = true := by
  have he' : (⟨key, values'⟩ : Exclusion).Forall p := he.of_subset h.subset
  constructor
  · refine violatedBy_of_coveredBy hθ he' he rfl fun row hrow => ?_
    exact ⟨row, h.subset hrow, rfl⟩
  · exact violatedBy_of_coveredBy hθ he he' rfl h.covered

lemma isViolated_of_represents {key : List Ty} {values values' : List (List Ty)}
    (h : Tuples.Represents values values') :
    (⟨key, values'⟩ : Exclusion).isViolated = (⟨key, values⟩ : Exclusion).isViolated := by
  rw [Bool.eq_iff_iff, isViolated_iff, isViolated_iff]
  constructor
  · rintro ⟨row, hrow, heq⟩
    exact ⟨row, h.subset hrow, heq⟩
  · rintro ⟨row, hrow, heq⟩
    obtain ⟨row', hrow', heq'⟩ := h.covered row hrow
    exact ⟨row', hrow', heq'.trans heq⟩

/-- An exclusion forbids what its tuples forbid. -/
lemma violatedBy_append {key : List Ty} {values more : List (List Ty)} :
    (⟨key, values ++ more⟩ : Exclusion).violatedBy θ = true ↔
      (⟨key, values⟩ : Exclusion).violatedBy θ = true ∨
        (⟨key, more⟩ : Exclusion).violatedBy θ = true := by
  simp only [violatedBy_iff, List.mem_append, or_and_right, exists_or]

/-- An exclusion that is violated stays so. -/
lemma violatedBy_of_isViolated (hθ : θ.Respects p) {e : Exclusion} (he : e.Forall p)
    (h : e.isViolated = true) : e.violatedBy θ = true := by
  obtain ⟨row, hrow, heq⟩ := isViolated_iff.1 h
  exact violatedBy_iff.2 ⟨row, hrow, map_bare_subst_congr hθ (he.values row hrow) he.key heq⟩

/-! ### Substitution into one exclusion -/

/-- Replacing variables in an exclusion replaces and normalizes value by value. -/
lemma expand_eq_map (e : Exclusion) (look : Nat → String → Ty) : e.expand look =
    ⟨e.key.map fun t => (t.expand look 0).normalize,
      e.values.map fun row => row.map fun t => (t.expand look 0).normalize⟩ := by
  obtain ⟨key, values⟩ := e
  have hrow : ∀ row : List Ty, Ty.normalizeAll (Ty.expandAll look 0 row) =
      row.map fun t => (t.expand look 0).normalize := by
    intro row
    rw [Ty.normalizeAll_eq_map, Ty.expandAll_eq_map, List.map_map]
    rfl
  have hrows : ∀ rows : List (List Ty), Ty.expandRows look rows =
      rows.map fun row => row.map fun t => (t.expand look 0).normalize := by
    intro rows
    induction rows with
    | nil => rfl
    | cons row rows ih => rw [Ty.expandRows, hrow, ih, List.map_cons]
  rw [expand, hrow, hrows]

lemma expand_eq (e : Exclusion) (b : Bindings) : e.expand b.look =
    ⟨e.key.map fun t => t.subst b, e.values.map fun row => row.map fun t => t.subst b⟩ :=
  e.expand_eq_map b.look

/-- What replacing variables makes of each value it makes of all values of an exclusion. -/
lemma Forall.expand {q : Ty → Prop} {look : Nat → String → Ty} {e : Exclusion}
    (hvalue : ∀ t, p t → q (t.expand look 0).normalize) (he : e.Forall p) :
    (e.expand look).Forall q := by
  rw [expand_eq_map]
  refine ⟨List.forall_mem_map.2 fun t ht => hvalue t (he.key t ht), ?_⟩
  refine List.forall_mem_map.2 fun row hrow => ?_
  exact List.forall_mem_map.2 fun t ht => hvalue t (he.values row hrow t ht)

variable {b : Bindings}

lemma IsSteady.expand (hb : b.IsPlain) {e : Exclusion} (he : e.IsSteady) :
    (e.expand b.look).IsSteady :=
  isSteady_iff_forall.2 ((isSteady_iff_forall.1 he).expand fun _ ht => ht.subst hb)

lemma isNormal_expand (e : Exclusion) (b : Bindings) : (e.expand b.look).IsNormal := by
  rw [expand_eq]
  refine ⟨List.forall_mem_map.2 fun t _ => Ty.normalize_normalize _, ?_⟩
  exact List.forall_mem_map.2 fun row _ =>
    List.forall_mem_map.2 fun t _ => Ty.normalize_normalize _

/-- Substituting bindings violates an exclusion exactly if the bindings do. -/
lemma isViolated_expand (e : Exclusion) (b : Bindings) :
    (e.expand b.look).isViolated = e.violatedBy b := by
  rw [expand_eq, isViolated, violatedBy, List.any_map]
  rfl

/-- An exclusion is violated by later bindings after a substitution as it was before, if they make
the same of its values in two stages as at once. -/
lemma violatedBy_expand {e : Exclusion}
    (he : e.Forall fun t => ((t.subst b).subst θ).bare = (t.subst θ).bare) :
    (e.expand b.look).violatedBy θ = e.violatedBy θ := by
  have hstages : ∀ row : List Ty, (∀ t ∈ row, ((t.subst b).subst θ).bare = (t.subst θ).bare) →
      ((row.map fun t => t.subst b).map fun t => (t.subst θ).bare) =
        row.map fun t => (t.subst θ).bare := by
    intro row hrow
    rw [List.map_map]
    exact List.map_congr_left hrow
  rw [expand_eq, Bool.eq_iff_iff, violatedBy_iff, violatedBy_iff]
  simp only [List.mem_map, exists_exists_and_eq_and]
  refine exists_congr fun row => and_congr_right fun hrow => ?_
  rw [Equates, Equates, hstages e.key he.key, hstages row (he.values row hrow)]

end Exclusion

namespace Exclusions

/-! ### Tables -/

/-- All values of the table are steady. -/
def IsSteady (table : List Exclusion) : Prop :=
  ∀ e ∈ table, e.IsSteady

lemma violatedBy_iff {table : List Exclusion} {θ : Bindings} :
    violatedBy table θ = true ↔ ∃ e ∈ table, e.violatedBy θ = true := by
  rw [violatedBy, List.any_eq_true]

variable {table : List Exclusion} {key : List Ty} {values : List (List Ty)}

/-- Forbidding tuples brings no values into a table but those of the tuples. -/
lemma forall_forbid {p : Ty → Prop} (htable : ∀ e ∈ table, e.Forall p)
    (he : (⟨key, values⟩ : Exclusion).Forall p) : ∀ e ∈ forbid key values table, e.Forall p := by
  have hmore : ∀ {key' : List Ty} {rows : List (List Ty)},
      (⟨key', rows⟩ : Exclusion).Forall p →
        (⟨key', Tuples.insertAll rows values⟩ : Exclusion).Forall p := by
    intro key' rows hrows
    refine Exclusion.Forall.of_subset ?_ (Tuples.represents_insertAll rows values).subset
    exact ⟨hrows.key, List.forall_mem_append.2 ⟨he.values, hrows.values⟩⟩
  have hnew : (⟨key, Tuples.insertAll [] values⟩ : Exclusion).Forall p :=
    hmore ⟨he.key, List.forall_mem_nil _⟩
  induction table with
  | nil => exact List.forall_mem_singleton.2 hnew
  | cons e rest ih =>
    obtain ⟨key', values'⟩ := e
    obtain ⟨hfirst, hrest⟩ := List.forall_mem_cons.1 htable
    unfold forbid
    split
    · exact List.forall_mem_cons.2 ⟨hnew, htable⟩
    · exact List.forall_mem_cons.2 ⟨hmore hfirst, hrest⟩
    · exact List.forall_mem_cons.2 ⟨hfirst, ih hrest⟩

/-- Entering an exclusion fails exactly if it is violated. -/
lemma enter?_eq_none_iff (table : List Exclusion) {e : Exclusion} :
    enter? table e = none ↔ e.isViolated = true := by
  obtain ⟨key, values⟩ := e
  unfold enter?
  dsimp only
  rw [Exclusion.isViolated_of_represents (Tuples.represents_ofList values)]
  cases (⟨key, values⟩ : Exclusion).isViolated with
  | true => exact iff_of_true rfl rfl
  | false =>
    rw [if_neg Bool.false_ne_true]
    split <;> simp

/-- Entering an exclusion that is not violated leaves the table as it is, if the exclusion is
settled, or forbids its tuples. -/
lemma enter?_eq_some {e : Exclusion} {table' : List Exclusion} (h : enter? table e = some table') :
    (⟨e.key, Tuples.ofList e.values⟩ : Exclusion).isSettled = true ∧ table' = table ∨
      table' = forbid e.key (Tuples.ofList e.values) table := by
  unfold enter? at h
  dsimp only at h
  split at h
  · cases h
  · split at h
    · rename_i hsettled
      exact .inl ⟨hsettled, (Option.some.inj h).symm⟩
    · exact .inr (Option.some.inj h).symm

/-- Entering an exclusion brings no values into a table but those of the exclusion. -/
lemma forall_enter? {p : Ty → Prop} {e : Exclusion} {table' : List Exclusion}
    (htable : ∀ e ∈ table, e.Forall p) (he : e.Forall p) (h : enter? table e = some table') :
    ∀ e ∈ table', e.Forall p := by
  rcases enter?_eq_some h with ⟨-, rfl⟩ | rfl
  · exact htable
  · obtain ⟨key, values⟩ := e
    exact forall_forbid htable (he.of_subset (Tuples.represents_ofList values).subset)

/-- Entering exclusions brings no values into a table but those of the exclusions. -/
lemma forall_enterAll? {p : Ty → Prop} {entries table' : List Exclusion}
    (htable : ∀ e ∈ table, e.Forall p) (hentries : ∀ e ∈ entries, e.Forall p)
    (h : enterAll? table entries = some table') : ∀ e ∈ table', e.Forall p := by
  induction entries generalizing table with
  | nil => exact Option.some.inj h ▸ htable
  | cons e rest ih =>
    obtain ⟨he, hrest⟩ := List.forall_mem_cons.1 hentries
    rw [enterAll?] at h
    split at h
    · cases h
    · rename_i middle hmiddle
      exact ih (forall_enter? htable he hmiddle) hrest h

/-- Entering exclusions one after another fails exactly if one of them is violated. -/
lemma enterAll?_eq_none_iff {entries : List Exclusion} :
    enterAll? table entries = none ↔ ∃ e ∈ entries, e.isViolated = true := by
  induction entries generalizing table with
  | nil => simp [enterAll?]
  | cons e rest ih =>
    rw [enterAll?, List.exists_mem_cons_iff, ← enter?_eq_none_iff table]
    cases enter? table e with
    | none => exact iff_of_true rfl (.inl rfl)
    | some middle => simp [ih]

variable {p : Ty → Prop} {θ : Bindings}

/-- Forbidding tuples adds what they forbid to what the table forbids. -/
lemma violatedBy_forbid (hθ : θ.Respects p) (htable : ∀ e ∈ table, e.Forall p)
    (he : (⟨key, values⟩ : Exclusion).Forall p) : violatedBy (forbid key values table) θ = true ↔
      (⟨key, values⟩ : Exclusion).violatedBy θ = true ∨ violatedBy table θ = true := by
  have hnew : (⟨key, Tuples.insertAll [] values⟩ : Exclusion).violatedBy θ = true ↔
      (⟨key, values⟩ : Exclusion).violatedBy θ = true := by
    refine Exclusion.violatedBy_iff_of_represents hθ he ?_
    have h := Tuples.represents_insertAll [] values
    rwa [List.append_nil] at h
  have hcons : ∀ (e : Exclusion) (rest : List Exclusion), violatedBy (e :: rest) θ = true ↔
      e.violatedBy θ = true ∨ violatedBy rest θ = true := by
    intro e rest
    rw [violatedBy, List.any_cons, Bool.or_eq_true]
    exact Iff.rfl
  induction table with
  | nil => rw [forbid, hcons, hnew]
  | cons e rest ih =>
    obtain ⟨key', values'⟩ := e
    obtain ⟨hfirst, hrest⟩ := List.forall_mem_cons.1 htable
    have hforbid := ih hrest
    unfold forbid
    split
    · rw [hcons, hnew]
    · rename_i heq
      have hkey : key.map Ty.bare = key'.map Ty.bare := Ty.map_bare_eq_of_cmpAll_eq heq
      have hmoved : (⟨key', values⟩ : Exclusion).Forall p := ⟨hfirst.key, he.values⟩
      have hsame : (⟨key', values⟩ : Exclusion).violatedBy θ = true ↔
          (⟨key, values⟩ : Exclusion).violatedBy θ = true :=
        ⟨Exclusion.violatedBy_of_coveredBy hθ hmoved he hkey.symm fun row hrow => ⟨row, hrow, rfl⟩,
          Exclusion.violatedBy_of_coveredBy hθ he hmoved hkey fun row hrow => ⟨row, hrow, rfl⟩⟩
      have hall : (⟨key', values ++ values'⟩ : Exclusion).Forall p :=
        ⟨hfirst.key, List.forall_mem_append.2 ⟨he.values, hfirst.values⟩⟩
      rw [hcons, hcons, Exclusion.violatedBy_iff_of_represents hθ hall
        (Tuples.represents_insertAll values' values), Exclusion.violatedBy_append, hsame, or_assoc]
    · rw [hcons, hcons, or_left_comm]
      exact or_congr_right hforbid

/-- An exclusion without variables, in normal form, is violated by all bindings or by none. -/
lemma violatedBy_of_isSettled (hθ : θ.Respects p) {e : Exclusion} (he : e.Forall p)
    (hnormal : e.IsNormal) (hsettled : e.isSettled = true) : e.violatedBy θ = e.isViolated := by
  rw [Exclusion.isSettled, Bool.and_eq_true, List.all_eq_true, List.all_eq_true] at hsettled
  have hfixed : ∀ row : List Ty, (∀ t ∈ row, p t) → (∀ t ∈ row, t.normalize = t) →
      (∀ t ∈ row, t.isGround = true) →
        (row.map fun t => (t.subst θ).bare) = row.map Ty.bare := by
    intro row hrow hnormal hground
    exact List.map_congr_left fun t ht => hθ.ground (hrow t ht) (hnormal t ht) (hground t ht)
  rw [Bool.eq_iff_iff, Exclusion.violatedBy_iff, Exclusion.isViolated_iff]
  refine exists_congr fun row => and_congr_right fun hrow => ?_
  rw [Exclusion.Equates, hfixed e.key he.key hnormal.key hsettled.1,
    hfixed row (he.values row hrow) (hnormal.values row hrow)
      (List.all_eq_true.1 (hsettled.2 row hrow))]

/-- The table with a new exclusion forbids what the old one and the exclusion forbid, even if the
exclusion is settled and left out. -/
lemma violatedBy_enter? (hθ : θ.Respects p) {e : Exclusion} {table' : List Exclusion}
    (htable : ∀ e ∈ table, e.Forall p) (he : e.Forall p) (hnormal : e.IsNormal)
    (h : enter? table e = some table') :
    violatedBy table' θ = true ↔ e.violatedBy θ = true ∨ violatedBy table θ = true := by
  obtain ⟨key, values⟩ := e
  have hrep : Tuples.Represents values (Tuples.ofList values) := Tuples.represents_ofList values
  have hkept : (⟨key, Tuples.ofList values⟩ : Exclusion).Forall p := he.of_subset hrep.subset
  have hsame := Exclusion.violatedBy_iff_of_represents hθ he hrep
  rcases enter?_eq_some h with ⟨hsettled, rfl⟩ | rfl
  · have hnever : (⟨key, values⟩ : Exclusion).violatedBy θ = false := by
      rw [Bool.eq_false_iff, Ne, ← hsame, violatedBy_of_isSettled hθ hkept
        ⟨hnormal.key, fun row hrow => hnormal.values row (hrep.subset hrow)⟩ hsettled,
        Exclusion.isViolated_of_represents hrep, ← enter?_eq_none_iff table', h]
      exact Option.some_ne_none _
    rw [hnever]
    simp
  · rw [violatedBy_forbid hθ htable hkept, hsame]

/-- The table with new exclusions forbids what the old one and the exclusions forbid. -/
lemma violatedBy_enterAll? (hθ : θ.Respects p) {entries table' : List Exclusion}
    (htable : ∀ e ∈ table, e.Forall p) (hentries : ∀ e ∈ entries, e.Forall p ∧ e.IsNormal)
    (h : enterAll? table entries = some table') :
    violatedBy table' θ = true ↔
      (∃ e ∈ entries, e.violatedBy θ = true) ∨ violatedBy table θ = true := by
  induction entries generalizing table with
  | nil =>
    obtain rfl := Option.some.inj h
    simp
  | cons e rest ih =>
    obtain ⟨⟨he, hnormal⟩, hrest⟩ := List.forall_mem_cons.1 hentries
    rw [enterAll?] at h
    split at h
    · cases h
    · rename_i middle hmiddle
      rw [ih (forall_enter? htable he hmiddle) hrest h,
        violatedBy_enter? hθ htable he hnormal hmiddle, List.exists_mem_cons_iff, or_left_comm,
        or_assoc]

variable {b : Bindings}

lemma IsSteady.expand (hb : b.IsPlain) (htable : IsSteady table) :
    ∀ e ∈ table, (e.expand b.look).Forall Ty.IsSteady :=
  fun e he => Exclusion.isSteady_iff_forall.1 ((htable e he).expand hb)

/-- Extensions of plain bindings make the same of a steady table in two stages as at once. -/
lemma IsSteady.in_stages (hb : b.IsPlain) (hθ : b.ExtendedBy θ) (htable : IsSteady table) :
    ∀ e ∈ table, e.Forall fun t => ((t.subst b).subst θ).bare = (t.subst θ).bare := by
  have hstages : ∀ t : Ty, t.IsSteady → ((t.subst b).subst θ).bare = (t.subst θ).bare :=
    fun t ht => congrArg Ty.bare (ht.subst_subst hb hθ)
  exact fun e he => ⟨fun t ht => hstages t ((htable e he).key t ht),
    fun row hrow t ht => hstages t ((htable e he).values row hrow t ht)⟩

/-- Substituting bindings into a table fails exactly if the bindings violate it. -/
theorem subst?_eq_none_iff : subst? table b = none ↔ violatedBy table b = true := by
  rw [subst?, expandInto?_eq_enterAll?, enterAll?_eq_none_iff, violatedBy_iff]
  simp only [List.mem_map, exists_exists_and_eq_and, Exclusion.isViolated_expand]

/-- The values of a table after substituting bindings come from the values of the table. -/
lemma forall_subst? {table' : List Exclusion} (hvalues : ∀ e ∈ table, (e.expand b.look).Forall p)
    (h : subst? table b = some table') : ∀ e ∈ table', e.Forall p := by
  rw [subst?, expandInto?_eq_enterAll?] at h
  exact forall_enterAll? (List.forall_mem_nil _) (List.forall_mem_map.2 hvalues) h

/-- The table after a substitution forbids what becomes of the exclusions. -/
lemma violatedBy_subst?_iff (hθ : θ.Respects p) {table' : List Exclusion}
    (hvalues : ∀ e ∈ table, (e.expand b.look).Forall p) (h : subst? table b = some table') :
    violatedBy table' θ = true ↔ ∃ e ∈ table, (e.expand b.look).violatedBy θ = true := by
  rw [subst?, expandInto?_eq_enterAll?] at h
  have hentries : ∀ e ∈ table.map (Exclusion.expand b.look), e.Forall p ∧ e.IsNormal :=
    List.forall_mem_map.2 fun e he => ⟨hvalues e he, e.isNormal_expand b⟩
  have hempty : ¬violatedBy [] θ = true := Bool.false_ne_true
  rw [violatedBy_enterAll? hθ (List.forall_mem_nil _) hentries h, or_iff_left hempty]
  simp only [List.mem_map, exists_exists_and_eq_and]

/-- The table after a substitution is violated by the same later bindings as before it, if they
make the same of its values in two stages as at once. -/
theorem violatedBy_subst? (hθ : θ.Respects p) {table' : List Exclusion}
    (hvalues : ∀ e ∈ table, (e.expand b.look).Forall p)
    (hstages : ∀ e ∈ table, e.Forall fun t => ((t.subst b).subst θ).bare = (t.subst θ).bare)
    (h : subst? table b = some table') : violatedBy table' θ = violatedBy table θ := by
  rw [Bool.eq_iff_iff, violatedBy_subst?_iff hθ hvalues h, violatedBy_iff]
  refine exists_congr fun e => and_congr_right fun he => ?_
  rw [Exclusion.violatedBy_expand (hstages e he)]

/-- Later bindings violate a table exactly if substituting the earlier ones has failed, or if they
violate what has become of the table. -/
theorem violatedBy_iff_subst? (hθ : θ.Respects p)
    (hvalues : ∀ e ∈ table, (e.expand b.look).Forall p)
    (hstages : ∀ e ∈ table, e.Forall fun t => ((t.subst b).subst θ).bare = (t.subst θ).bare) :
    violatedBy table θ = true ↔
      subst? table b = none ∨ ∃ table', subst? table b = some table' ∧
        violatedBy table' θ = true := by
  cases h : subst? table b with
  | none =>
    rw [subst?_eq_none_iff, violatedBy_iff] at h
    obtain ⟨e, he, hviolated⟩ := h
    rw [← Exclusion.isViolated_expand] at hviolated
    have hlater := Exclusion.violatedBy_of_isViolated hθ (hvalues e he) hviolated
    rw [Exclusion.violatedBy_expand (hstages e he)] at hlater
    exact iff_of_true (violatedBy_iff.2 ⟨e, he, hlater⟩) (.inl rfl)
  | some table' => simp [violatedBy_subst? hθ hvalues hstages h]

/-- A steady table that plain bindings violate is violated by all extensions of them. -/
lemma violatedBy_of_extendedBy (hb : b.IsPlain) (htable : IsSteady table) (hθ : b.ExtendedBy θ)
    (h : violatedBy table b = true) : violatedBy table θ = true :=
  (violatedBy_iff_subst? θ.respects_isSteady (htable.expand hb) (htable.in_stages hb hθ)).2
    (.inl (subst?_eq_none_iff.2 h))

/-- Substituting plain bindings into a steady table fails if the bindings violate it. Otherwise the
new table is violated by the same extensions of the bindings. -/
theorem subst?_cases (hb : b.IsPlain) (htable : IsSteady table) :
    violatedBy table b = true ∧ subst? table b = none ∨
      ∃ table', violatedBy table b = false ∧ subst? table b = some table' ∧ IsSteady table' ∧
        ∀ θ, b.ExtendedBy θ → violatedBy table' θ = violatedBy table θ := by
  cases h : subst? table b with
  | none => exact .inl ⟨subst?_eq_none_iff.1 h, rfl⟩
  | some table' =>
    refine .inr ⟨table', ?_, rfl, fun e he => ?_, fun θ hθ => ?_⟩
    · rw [Bool.eq_false_iff, Ne, ← subst?_eq_none_iff, h]
      exact Option.some_ne_none _
    · exact Exclusion.isSteady_iff_forall.2 (forall_subst? (htable.expand hb) h e he)
    · exact violatedBy_subst? θ.respects_isSteady (htable.expand hb) (htable.in_stages hb hθ) h

end Exclusions

namespace Ty

variable {body : Contract} {b : Bindings}

/-- A contract collapses if the bindings violate its exclusions. -/
lemma core_expand_contract_of_violatedBy (h : Exclusions.violatedBy body.forbidden b = true) :
    ((Ty.contract body).expand b.look 0).core = .void := by
  obtain ⟨receives, yields, condition, forbidden, source, restorable⟩ := body
  have hnone : Exclusions.expandInto? b.look [] forbidden = none :=
    Exclusions.subst?_eq_none_iff.2 h
  rw [expand, Contract.expand, hnone]
  rfl

/-- Variables are replaced in both sides of a contract if the bindings do not violate its
exclusions. -/
lemma core_expand_contract_of_not_violatedBy
    (h : Exclusions.violatedBy body.forbidden b = false) :
    ((Ty.contract body).expand b.look 0).core =
      (Ty.contract { receives := body.receives.expand b.look 0
                     yields := body.yields.expand b.look 0 }).core := by
  obtain ⟨table, htable⟩ : ∃ table, Exclusions.subst? body.forbidden b = some table := by
    rw [← Option.ne_none_iff_exists', Ne, Exclusions.subst?_eq_none_iff, h]
    exact Bool.false_ne_true
  rw [expand, Contract.expand_of_expandInto? htable]
  exact core_contract_congr (core_normalize _) (core_normalize _)

end Ty

/-- Substituting plain bindings into a contract with a steady table: the contract collapses if the
bindings violate the table. Otherwise they are substituted into both sides, and the new table is
violated by the same extensions of the bindings. -/
lemma Contract.subst_cases {c : Contract} {b : Bindings} (hb : b.IsPlain)
    (h : Exclusions.IsSteady c.forbidden) :
    Exclusions.violatedBy c.forbidden b = true ∧ c.subst b = .collapsed c.source ∨
      Exclusions.violatedBy c.forbidden b = false ∧
        (c.subst b).receives = c.receives.subst b ∧ (c.subst b).yields = c.yields.subst b ∧
        Exclusions.IsSteady (c.subst b).forbidden ∧
        ∀ θ, b.ExtendedBy θ →
          Exclusions.violatedBy (c.subst b).forbidden θ = Exclusions.violatedBy c.forbidden θ := by
  obtain ⟨receives, yields, condition, forbidden, source, restorable⟩ := c
  rw [Contract.subst, Contract.expand]
  rcases Exclusions.subst?_cases hb h with ⟨hviolated, hnone⟩ |
    ⟨table', hviolated, hsome, htable', hsame⟩
  · rw [Exclusions.subst?] at hnone
    rw [hnone]
    exact .inl ⟨hviolated, rfl⟩
  · rw [Exclusions.subst?] at hsome
    rw [hsome]
    exact .inr ⟨hviolated, rfl, rfl, htable', hsame⟩

end ContractComposition
