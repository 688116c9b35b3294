import RelSchema.Proofs.Assembly.Traversals
import RelSchema.Proofs.Resolve.Correct

/-!
# What invalidation leaves

Rounds of dropping come to an end after as many rounds as there are resolved references, and one
more that finds nothing stale.  From every model they take the resolutions that were found stale and
the columns that came with them, and nothing else.
-/

namespace RelSchema

namespace Model

/-! ## 1. What is left of a model -/

/-- The column was declared, or an implicit reference that is resolved has its mark. -/
def isHeld (m : Model) (c : Column) : Bool :=
  !c.isSynthesized || m.references.any fun f => f.isResolved && f.isImplicit && c.isMarkedBy f.field

/-- What is left of a model when some of its references have lost their resolutions: all columns but
those of the references that were dropped, in the same order, with the flags brought up to date. -/
structure ReducedTo (m left : Model) : Prop where
  references : List.Forall₂ (fun f g => g = f ∨ f.isResolved ∧ g = f.bare)
    m.references left.references
  eq_reduced : left = { m with
    columns :=
      (m.columns.filter left.isHeld).map fun c => { c with foreignKey := left.isForeignKey c }
    references := left.references }
  synthesized_eq : left.columns.filter (·.isSynthesized) =
    left.references.flatMap Reference.broughtColumns

variable {m left : Model}

/-- A reference that is still resolved is what it was. -/
theorem Laid.eq_of_isResolved (h : m.Laid)
    (hreferences : List.Forall₂ (fun f g => g = f ∨ f.isResolved ∧ g = f.bare)
      m.references left.references) {f g : Reference} (hf : f ∈ m.references)
    (hg : g ∈ left.references) (hfg : f.bare = g.bare) (hres : g.isResolved) : g = f := by
  obtain ⟨f', hf', rfl | ⟨-, rfl⟩⟩ := exists_left_of_mem hreferences hg
  · -- a field tells references apart
    exact h.reference_inj hf' hf (Reference.congr_of_bare_eq hfg.symm (·.field))
  · simp [Reference.isResolved, Reference.bare] at hres

/-- The synthesized columns of a model are those that its references have brought. -/
theorem Laid.filter_isSynthesized (h : m.Laid) :
    m.columns.filter (·.isSynthesized) = m.references.flatMap Reference.broughtColumns := by
  conv_lhs => rw [h.columns_eq]
  rw [List.filter_flatMap, ← referencesOf_declarations, ← flatMap_references]
  apply List.flatMap_congr
  intro d hd
  cases d with
  | column c =>
    have hc := (List.mem_filter.1 (column_mem_declarations.1 hd)).2
    simpa [Declaration.columns] using hc
  | reference r =>
    refine List.filter_eq_self.2 fun c hc => ?_
    exact Column.isSynthesized_of_isMarkedBy (Reference.isMarkedBy_of_mem_broughtColumns hc)

/-- The columns of a reference are held when the reference is resolved, and only then. -/
theorem Laid.filter_isHeld_broughtColumns (h : left.Laid) {f g : Reference}
    (hg : g ∈ left.references) (hfield : f.field = g.field)
    (himplicit : f.isImplicit = g.isImplicit) :
    f.broughtColumns.filter left.isHeld = if g.isResolved then f.broughtColumns else [] := by
  have hheld : ∀ c ∈ f.broughtColumns, left.isHeld c = g.isResolved := by
    intro c hc
    have hmark := Reference.isMarkedBy_of_mem_broughtColumns hc
    have hgimplicit : g.isImplicit := himplicit ▸ Reference.isImplicit_of_mem_broughtColumns hc
    rw [isHeld, Column.isSynthesized_of_isMarkedBy hmark, Bool.not_true, Bool.false_or]
    cases hres : g.isResolved with
    | true =>
      rw [List.any_eq_true]
      exact ⟨g, hg, by rw [hres, hgimplicit, ← hfield, hmark]; rfl⟩
    | false =>
      -- no other reference has the field
      rw [List.any_eq_false]
      intro g' hg' hother
      simp only [Bool.and_eq_true] at hother
      have hsame := (Column.field_eq_of_isMarkedBy hmark hother.2).symm.trans hfield
      rw [h.reference_inj hg' hg hsame, hres] at hother
      simp at hother
  split
  · rename_i hres
    exact List.filter_eq_self.2 fun c hc => (hheld c hc).trans hres
  · rename_i hres
    exact List.filter_eq_nil_iff.2 fun c hc hheld' => hres ((hheld c hc).symm.trans hheld')

/-- Up to their flags, the columns of a model that has lost some resolutions are those which are
still held. -/
theorem map_bare_filter_isHeld (hm : m.Laid) (hleft : left.Laid) (hbare : m.bare = left.bare)
    (hkept : ∀ f ∈ m.references, ∀ g ∈ left.references, f.bare = g.bare → g.isResolved → g = f) :
    (m.columns.filter left.isHeld).map Column.bare = left.columns.map Column.bare := by
  conv_lhs => rw [hm.columns_eq]
  conv_rhs => rw [hleft.columns_eq]
  rw [List.filter_flatMap, List.map_flatMap, List.map_flatMap]
  refine flatMap_eq_of_map_eq (map_bare_declarations_eq hbare) ?_
  rintro (c | f) hd (d | g) hd' heq
  · have hc := (List.mem_filter.1 (column_mem_declarations.1 hd)).2
    have hheld : left.isHeld c := by rw [isHeld, hc, Bool.true_or]
    simp [Declaration.columns, hheld, Declaration.column.inj heq]
  · cases heq
  · cases heq
  · have hfg : f.bare = g.bare := Declaration.reference.inj heq
    have hf := reference_mem_declarations.1 hd
    have hg := reference_mem_declarations.1 hd'
    show (f.broughtColumns.filter _).map _ = g.broughtColumns.map _
    rw [hleft.filter_isHeld_broughtColumns hg (Reference.congr_of_bare_eq hfg (·.field))
      (Reference.congr_of_bare_eq hfg (·.isImplicit))]
    cases hres : g.isResolved with
    | true => rw [if_pos rfl, hkept f hf g hg hfg hres]
    | false =>
      rw [if_neg Bool.false_ne_true,
        Reference.broughtColumns_of_unresolved (Reference.isResolved_eq_false_iff.1 hres)]

theorem Laid.columns_eq_map_isForeignKey (h : m.Laid) :
    m.columns =
      (m.columns.map Column.bare).map fun c => { c with foreignKey := m.isForeignKey c } := by
  rw [List.map_map]
  conv_lhs => rw [← List.map_id m.columns]
  refine List.map_congr_left fun c hc => ?_
  have hflag : m.isForeignKey c.bare = c.foreignKey := (h.foreignKey_eq c hc).symm
  show c = { c.bare with foreignKey := m.isForeignKey c.bare }
  rw [hflag]
  rfl

theorem Laid.columns_eq_of_kept (hm : m.Laid) (hleft : left.Laid) (hbare : m.bare = left.bare)
    (hkept : ∀ f ∈ m.references, ∀ g ∈ left.references, f.bare = g.bare → g.isResolved → g = f) :
    left.columns =
      (m.columns.filter left.isHeld).map fun c => { c with foreignKey := left.isForeignKey c } := by
  rw [hleft.columns_eq_map_isForeignKey, ← map_bare_filter_isHeld hm hleft hbare hkept,
    List.map_map]
  rfl

end Model

namespace Registry

variable {r s : Registry}

/-! ## 2. Rounds until nothing is stale -/

/-- Rounds of dropping, as many as it takes.  The round that finds nothing stale is counted too. -/
inductive Invalidates : Registry → Nat → Registry → Prop
  | done {r : Registry} (h : r.staleReferences = []) : Invalidates r 1 r
  | again {r s : Registry} {rounds : Nat} (h : r.staleReferences ≠ [])
      (hrest : Invalidates r.dropRound rounds s) : Invalidates r (rounds + 1) s

theorem Invalidates.unique {rounds rounds' : Nat} {s' : Registry} (h : r.Invalidates rounds s)
    (h' : r.Invalidates rounds' s') : rounds = rounds' ∧ s = s' := by
  induction h generalizing rounds' with
  | done hnone =>
    cases h' with
    | done => exact ⟨rfl, rfl⟩
    | again hstale => exact absurd hnone hstale
  | again hstale _ ih =>
    cases h' with
    | done hnone => exact absurd hnone hstale
    | again _ hrest' =>
      obtain ⟨rfl, rfl⟩ := ih hrest'
      exact ⟨rfl, rfl⟩

/-- Every round but the last one drops a resolution. -/
theorem exists_invalidates_dropRounds {bound : Nat} (h : r.resolvedCount ≤ bound) :
    ∃ rounds ≤ bound + 1, r.Invalidates rounds (dropRounds bound r) := by
  induction bound generalizing r with
  | zero => exact ⟨1, Nat.le_refl 1, .done (staleReferences_dropRounds h)⟩
  | succ bound ih =>
    by_cases hstale : r.staleReferences = []
    · rw [dropRounds_of_staleReferences_eq_nil hstale]
      exact ⟨1, by omega, .done hstale⟩
    · have hlt := resolvedCount_dropRound_lt hstale
      obtain ⟨rounds, hle, hrest⟩ := ih (r := r.dropRound) (by omega)
      exact ⟨rounds + 1, by omega, .again hstale hrest⟩

theorem exists_invalidates_iff (r : Registry) :
    ∃ rounds ≤ r.resolvedCount + 1,
      ∀ n s, r.Invalidates n s ↔ n = rounds ∧ s = r.withoutStale := by
  obtain ⟨rounds, hle, hrounds⟩ := exists_invalidates_dropRounds (Nat.le_refl r.resolvedCount)
  refine ⟨rounds, hle, fun n s => ⟨fun h => h.unique hrounds, ?_⟩⟩
  rintro ⟨rfl, rfl⟩
  exact hrounds

/-- A reference keeps its resolution until a round finds it stale. -/
theorem reference?_dropRounds_or {id : ReferenceId} {f : Reference} (bound : Nat)
    (hf : r.reference? id = some f) :
    (dropRounds bound r).reference? id = some f ∨
      ∃ rounds, (dropRounds rounds r).reference? id = some f ∧ (dropRounds rounds r).isStale f := by
  induction bound generalizing r with
  | zero => exact .inl hf
  | succ bound ih =>
    by_cases hstale : r.isStale f
    · exact .inr ⟨0, hf, hstale⟩
    · have hnot : id ∉ r.staleReferences := by
        intro hid
        obtain ⟨g, hg, hgstale⟩ := mem_referencesWhere.1 hid
        exact hstale (Option.some.inj (hf.symm.trans hg) ▸ hgstale)
      have hround : r.dropRound.reference? id = some f := by
        rw [dropRound, reference?_foldl_drop, if_neg hnot, hf]
      rcases ih hround with hkept | ⟨rounds, hafter⟩
      · exact .inl hkept
      · exact .inr ⟨rounds + 1, hafter⟩

theorem staleReferences_eq_nil_iff :
    r.staleReferences = [] ↔ ∀ m ∈ r.models, ∀ f ∈ m.references, r.isStale f = false := by
  constructor
  · intro h m hm f hf
    obtain ⟨id, -, hid⟩ := exists_reference?_of_mem hm hf
    exact isStale_eq_false_of_staleReferences_eq_nil h hid
  · intro h
    refine List.eq_nil_iff_forall_not_mem.2 fun id hid => ?_
    obtain ⟨f, hf, hstale⟩ := mem_referencesWhere.1 hid
    obtain ⟨m, hm, hfm⟩ := reference?_eq_some_iff.1 hf
    rw [h m (mem_of_get? hm) f (List.mem_of_getElem? hfm)] at hstale
    cases hstale

/-! ## 3. Models after invalidation -/

/-- What dropping cannot change in a model is at each place what it was. -/
theorem view_withoutStale {α : Type} {view : Model → α}
    (hview : ∀ m field index, view ((m.removeSynthesized field).setResolution index none) = view m)
    {id : ModelId} {m left : Model} (hm : r.get? id = some m)
    (hleft : r.withoutStale.get? id = some left) : view left = view m := by
  have hat := congrArg (·[id]?) (map_dropRounds hview r.resolvedCount r)
  simp only [List.getElem?_map] at hat
  rw [show r.models[id]? = some m from hm,
    show (dropRounds r.resolvedCount r).models[id]? = some left from hleft] at hat
  exact Option.some.inj hat

/-- At its place a reference is what it was, or it has lost its resolution. -/
theorem reference?_withoutStale_or {id : ReferenceId} {f g : Reference}
    (hf : r.reference? id = some f) (hg : r.withoutStale.reference? id = some g) :
    g = f ∨ f.isResolved ∧ g = f.bare := by
  obtain ⟨f', hf', hbare⟩ := exists_reference?_of_map_bare_eq (map_bare_withoutStale r) hg
  obtain rfl := Option.some.inj (hf.symm.trans hf')
  cases hres : g.isResolved with
  | true =>
    exact .inl (Option.some.inj ((reference?_of_dropRounds hg hres).symm.trans hf))
  | false =>
    -- without a resolution both would be bare
    have hopen : ∀ e : Reference, e.isResolved = false → e.bare = e := fun e he => by
      rw [Reference.bare, ← Reference.isResolved_eq_false_iff.1 he]
    rw [hopen g hres] at hbare
    cases hfres : f.isResolved with
    | true => exact .inr ⟨rfl, hbare⟩
    | false => exact .inl (hbare.trans (hopen f hfres))

theorem reducedTo_withoutStale (hr : r.Sound) {id : ModelId} {m left : Model}
    (hm : r.get? id = some m) (hleft : r.withoutStale.get? id = some left) : m.ReducedTo left := by
  have hmlaid := hr.laid m (mem_of_get? hm)
  have hleftlaid := hr.withoutStale.laid left (mem_of_get? hleft)
  have hbare : left.bare = m.bare := view_withoutStale bare_of_drop hm hleft
  have hreferences : List.Forall₂ (fun f g => g = f ∨ f.isResolved ∧ g = f.bare)
      m.references left.references := by
    refine forall₂_iff_getElem?.2 ⟨?_, fun j f g hf hg => ?_⟩
    · simpa using congrArg List.length (Model.map_bare_references_eq hbare.symm)
    · have hbefore : r.reference? ⟨id, j⟩ = some f := reference?_eq_some_iff.2 ⟨m, hm, hf⟩
      have hafter : r.withoutStale.reference? ⟨id, j⟩ = some g :=
        reference?_eq_some_iff.2 ⟨left, hleft, hg⟩
      exact reference?_withoutStale_or hbefore hafter
  refine ⟨hreferences, ?_, hleftlaid.filter_isSynthesized⟩
  -- dropping does not look at the rest of a model
  have hname : left.name = m.name := view_withoutStale (fun _ _ _ => rfl) hm hleft
  have htable : left.tableName = m.tableName := view_withoutStale (fun _ _ _ => rfl) hm hleft
  have hid : left.id = m.id := view_withoutStale (fun _ _ _ => rfl) hm hleft
  have hcolumns := hmlaid.columns_eq_of_kept hleftlaid hbare.symm fun f hf g hg hfg hres =>
    hmlaid.eq_of_isResolved hreferences hf hg hfg hres
  rw [← hcolumns, ← hname, ← htable, ← hid]

theorem forall₂_reducedTo_withoutStale (hr : r.Sound) :
    List.Forall₂ Model.ReducedTo r.models r.withoutStale.models := by
  refine forall₂_iff_getElem?.2 ⟨?_, fun id m left hm hleft => reducedTo_withoutStale hr hm hleft⟩
  simpa using congrArg List.length (map_bare_withoutStale r).symm

/-- Invalidation ends after at most as many rounds as there are resolved references, and one more.
It leaves nothing stale, it reduces the models by what it found stale and by nothing else, and it
leaves a registry alone in which nothing is stale. -/
theorem invalidates_after {operations : List Operation} (hfresh : ∀ o ∈ operations, o.Fresh) :
    ∃ rounds ≤ (after operations).resolvedCount + 1, ∃ left,
      (∀ n s, (after operations).Invalidates n s ↔ n = rounds ∧ s = left) ∧
      left = (after operations).withoutStale ∧
      (∀ m ∈ left.models, ∀ f ∈ m.references, left.isStale f = false) ∧
      List.Forall₂ Model.ReducedTo (after operations).models left.models ∧
      (∀ id f, (after operations).reference? id = some f →
        left.reference? id = some f ∨
          left.reference? id = some f.bare ∧
            ∃ rounds, (dropRounds rounds (after operations)).reference? id = some f ∧
              (dropRounds rounds (after operations)).isStale f) ∧
      ((∀ m ∈ (after operations).models, ∀ f ∈ m.references,
        (after operations).isStale f = false) → left = after operations) := by
  have hr := sound_after hfresh
  obtain ⟨rounds, hle, hrounds⟩ := exists_invalidates_iff (after operations)
  refine ⟨rounds, hle, _, hrounds, rfl,
    staleReferences_eq_nil_iff.1 (staleReferences_withoutStale _),
    forall₂_reducedTo_withoutStale hr, fun id f hf => ?_, fun hnone =>
      withoutStale_of_staleReferences_eq_nil (staleReferences_eq_nil_iff.2 hnone)⟩
  obtain ⟨g, hg, -⟩ := exists_reference?_of_map_bare_eq (map_bare_withoutStale _).symm hf
  rcases reference?_dropRounds_or (after operations).resolvedCount hf with hkept | hstale
  · exact .inl hkept
  · rcases reference?_withoutStale_or hf hg with rfl | ⟨-, rfl⟩
    · exact .inl hg
    · exact .inr ⟨hg, hstale⟩

/-- Countries get another key after all has been resolved. -/
def countryRekeyed : List Operation :=
  [.register country, .register city, .register person, .resolve "_",
    .replace (Model.ofFields "Country" [
      .column { name := "id", type := .integer, primaryKey := true }])]

theorem fresh_countryRekeyed : ∀ o ∈ countryRekeyed, o.Fresh := by
  have hmodels := fresh_country_city_person
  simp only [List.forall_mem_cons, List.not_mem_nil, false_imp_iff, implies_true, and_true]
    at hmodels
  obtain ⟨hcountry, hcity, hperson⟩ := hmodels
  simp only [countryRekeyed, List.forall_mem_cons, List.not_mem_nil, false_imp_iff, implies_true,
    and_true]
  exact ⟨hcountry, hcity, hperson, trivial, Model.fresh_ofFields _ _ (by decide)⟩

/-- The first round drops the country of the city, which changes the key of cities, and the second
one the home of the person. -/
theorem invalidates_countryRekeyed :
    ∃ left, (after countryRekeyed).Invalidates 3 left ∧
      (∀ m ∈ left.models, ∀ f ∈ m.references, left.isStale f = false) ∧
      List.Forall₂ Model.ReducedTo (after countryRekeyed).models left.models ∧
      left.models.map (fun m => m.columns.map (·.name)) = [["id"], ["name"], ["id"]] := by
  have hthree : ∃ left, (after countryRekeyed).Invalidates 3 left ∧
      left.models.map (fun m => m.columns.map (·.name)) = [["id"], ["name"], ["id"]] :=
    ⟨_, .again (by decide) (.again (by decide) (.done (by decide))), by decide⟩
  obtain ⟨left, hleft, hcolumns⟩ := hthree
  obtain ⟨rounds, -, _, hrounds, -, hnone, hreduced, -⟩ := invalidates_after fresh_countryRekeyed
  obtain ⟨-, rfl⟩ := (hrounds _ _).1 hleft
  exact ⟨left, hleft, hnone, hreduced, hcolumns⟩

end Registry

end RelSchema
