import RelSchema.Proofs.Resolve.ExpectedKey

/-!
# The outcome by declaration

The registry in which resolution should end can be written down from the declarations: every
reference is resolved against the expected key of its target, and every implicit one has its
columns.  When the declarations are in order, this registry has nothing left to resolve.
-/

namespace RelSchema

/-! ## 1. Registries that have only been declared -/

/-- Nothing has been done to the models but giving them ids. -/
structure Registry.Fresh (r : Registry) : Prop where
  nodup_names : (r.models.map (·.name)).Nodup
  fresh : ∀ m ∈ r.models, ({ m with id := none } : Model).Fresh

/-- A model is registered or replaced. -/
def Operation.Declares : Operation → Prop
  | .register _ => True
  | .replace _ => True
  | .resolve _ => False

namespace Registry

theorem fresh_after {operations : List Operation} (hfresh : ∀ o ∈ operations, o.Fresh)
    (hdeclares : ∀ o ∈ operations, o.Declares) : (after operations).Fresh := by
  refine List.foldlRecOn (motive := Registry.Fresh) operations perform ⟨List.nodup_nil, by simp⟩ ?_
  rintro r hr o ho
  obtain h | ⟨m, rfl, hnew, h⟩ | ⟨m, id, rfl, hid, h⟩ | ⟨separator, rfl, -⟩ := perform_cases r o
  · rw [h]
    exact hr
  · have hm : m.Fresh := hfresh _ ho
    rw [h]
    refine ⟨nodup_names_append hr.nodup_names hnew, fun n hn => ?_⟩
    rcases List.mem_append.1 hn with hn | hn
    · exact hr.fresh n hn
    · obtain rfl := List.mem_singleton.1 hn
      show ({ m with id := none } : Model).Fresh
      rw [← hm.id_eq_none]
      exact hm
  · have hm : m.Fresh := hfresh _ ho
    obtain ⟨old, hold, hname⟩ := (idOf_eq_some_iff hr.nodup_names).1 hid
    rw [h]
    have hnames : (r.modify id fun _ => { m with id := some id }).models.map (·.name) =
        r.models.map (·.name) := map_modify hold hname.symm
    refine ⟨hnames ▸ hr.nodup_names, fun n hn => ?_⟩
    rcases mem_modify hold hn with hn | rfl
    · exact hr.fresh n hn
    · show ({ m with id := none } : Model).Fresh
      rw [← hm.id_eq_none]
      exact hm
  · exact (hdeclares _ ho).elim

theorem fresh_ofModels {models : List Model} (hfresh : ∀ m ∈ models, m.Fresh) :
    (ofModels models).Fresh := by
  refine fresh_after (fun o ho => ?_) fun o ho => ?_
  · obtain ⟨m, hm, rfl⟩ := List.mem_map.1 ho
    exact hfresh m hm
  · obtain ⟨m, -, rfl⟩ := List.mem_map.1 ho
    trivial

namespace Fresh

variable {r : Registry} {m : Model}

theorem laid (h : r.Fresh) (hm : m ∈ r.models) : m.Laid :=
  (h.fresh m hm).laid.withId m.id

theorem resolution_eq_none (h : r.Fresh) : ∀ m ∈ r.models, ∀ f ∈ m.references,
    f.resolution = none :=
  fun m hm => (h.fresh m hm).resolution_eq_none

theorem declaredColumns_eq (h : r.Fresh) (hm : m ∈ r.models) : m.declaredColumns = m.columns :=
  (h.fresh m hm).declaredColumns_eq

theorem names_bare (h : r.Fresh) (hm : m ∈ r.models) : m.bare.names = m.names := by
  have hbare : m.bare = { m with id := none } := (h.fresh m hm).bare_eq
  rw [hbare]
  rfl

/-- Nothing is resolved, so that nothing can be out of date. -/
theorem coherent (h : r.Fresh) : r.Coherent where
  sound := by
    refine ⟨h.nodup_names, fun m hm => h.laid hm, ?_, ?_⟩
    all_goals
      intro m hm f hf resolution hres
      rw [h.resolution_eq_none m hm f hf] at hres
      cases hres
  settled m hm f hf resolution hres := by
    rw [h.resolution_eq_none m hm f hf] at hres
    cases hres
  grounded m hm hfinal := by
    refine .intro hm fun f hf hkey => ?_
    have hres := Model.isKeyFinal_iff.1 hfinal f hf hkey
    simp [Reference.isResolved, h.resolution_eq_none m hm f hf] at hres

theorem usesSeparator (h : r.Fresh) (separator : String) : r.UsesSeparator separator := by
  intro m hm f hf resolution hres
  rw [h.resolution_eq_none m hm f hf] at hres
  cases hres

end Fresh

end Registry

/-! ## 2. Resolving all references of a model -/

namespace Model

theorem filter_flatMap_columns (ds : List Declaration) :
    (ds.flatMap Declaration.columns).filter (!·.isSynthesized) =
      (columnsOf ds).filter (!·.isSynthesized) := by
  induction ds with
  | nil => rfl
  | cons d ds ih =>
    rw [List.flatMap_cons, List.filter_append, ih]
    cases d with
    | column c =>
      show [c].filter _ ++ (columnsOf ds).filter _ = (c :: columnsOf ds).filter _
      rw [← List.filter_append, List.singleton_append]
    | reference r =>
      have hnone : r.broughtColumns.filter (!·.isSynthesized) = [] :=
        List.filter_eq_nil_iff.2 fun c hc => by
          simp [Column.isSynthesized, Reference.synthesizedBy_of_mem_broughtColumns hc]
      show r.broughtColumns.filter _ ++ _ = _
      rw [hnone, List.nil_append]
      rfl

theorem columnsOf_map (change : Reference → Reference) (ds : List Declaration) :
    columnsOf (ds.map (Declaration.map (fun c => c) change)) = columnsOf ds := by
  rw [columnsOf, List.filterMap_map]
  exact List.filterMap_congr fun d _ => by cases d <;> rfl

/-- The model with every reference changed, and the columns that the references then bring. -/
def changeReferences (m : Model) (change : Reference → Reference) : Model :=
  { m with
    columns := (m.declarations.map (Declaration.map (fun c => c) change)).flatMap
      Declaration.columns
    references := m.references.map change }

variable {m : Model} {change : Reference → Reference}

theorem declaredColumns_changeReferences (m : Model) (change : Reference → Reference) :
    (m.changeReferences change).declaredColumns = m.declaredColumns := by
  show (List.flatMap _ _).filter _ = _
  rw [filter_flatMap_columns, columnsOf_map, columnsOf_declarations]
  simp [declaredColumns]

/-- The columns stand where they belong. -/
theorem columns_changeReferences (hbare : ∀ f, (change f).bare = f.bare) :
    (m.changeReferences change).columns =
      (m.changeReferences change).declarations.flatMap Declaration.columns := by
  have hdeclarations : (m.changeReferences change).declarations =
      m.declarations.map (Declaration.map (fun c => c) change) :=
    declarations_eq_map (fun f => Reference.congr_of_bare_eq (hbare f) (·.place))
      ((m.declaredColumns_changeReferences change).trans (List.map_id _).symm) rfl
  rw [hdeclarations]
  rfl

theorem bare_changeReferences (hbare : ∀ f, (change f).bare = f.bare) :
    (m.changeReferences change).bare = m.bare := by
  have hreferences : (m.changeReferences change).references.map Reference.bare =
      m.references.map Reference.bare := by
    show (m.references.map change).map Reference.bare = _
    rw [List.map_map]
    exact List.map_congr_left fun f _ => hbare f
  rw [bare, declaredColumns_changeReferences, hreferences]
  rfl

theorem bare_refreshForeignKeys (m : Model) : m.refreshForeignKeys.bare = m.bare := by
  rw [bare, declaredColumns_refreshForeignKeys, List.map_map]
  rfl

end Model

namespace Registry

/-! ## 3. Declarations that are in order -/

/-- Targets are registered, key references close no cycle, every model has a key, the names of a
model and of the columns that it takes over are different, and declared pairs match. -/
structure Resolvable (separator : String) (r : Registry) : Prop where
  contains_target : ∀ m ∈ r.models, ∀ f ∈ m.references, r.contains f.target
  keyAcyclic : r.KeyAcyclic
  expectedKey_ne_nil : ∀ m ∈ r.models, r.expectedKey separator m.name ≠ []
  nodup_names : ∀ m ∈ r.models,
    (m.names ++ m.sourceNames separator (r.expectedKey separator)).Nodup
  matches_key : ∀ m ∈ r.models, ∀ f ∈ m.references, f.isImplicit = false →
    f.Matches m (r.expectedKey separator f.target)

/-- The reference, resolved against the expected key of its target. -/
def outcomeReference (r : Registry) (separator : String) (f : Reference) : Reference :=
  let key := r.expectedKey separator f.target
  let pairs := if f.isImplicit then f.sourcePairs separator key
    else key.filterMap (Reference.pairFor? f.declaredPairs)
  { f with resolution := (r.idOf f.target).map fun id => ⟨id, key, pairs⟩ }

def outcomeModel (r : Registry) (separator : String) (m : Model) : Model :=
  (m.changeReferences (r.outcomeReference separator)).refreshForeignKeys

def outcome (r : Registry) (separator : String) : Registry :=
  ⟨r.models.map (r.outcomeModel separator)⟩

variable {r : Registry} {separator : String} {m : Model} {f : Reference}

/-! ## 4. The outcome of such declarations -/

theorem bare_outcomeReference (r : Registry) (separator : String) (f : Reference) :
    (r.outcomeReference separator f).bare = f.bare :=
  rfl

theorem bare_outcomeModel (r : Registry) (separator : String) (m : Model) :
    (r.outcomeModel separator m).bare = m.bare := by
  rw [outcomeModel, Model.bare_refreshForeignKeys,
    Model.bare_changeReferences (r.bare_outcomeReference separator)]

theorem map_bare_outcome (r : Registry) (separator : String) :
    (r.outcome separator).models.map Model.bare = r.models.map Model.bare := by
  rw [outcome, List.map_map]
  exact List.map_congr_left fun m _ => r.bare_outcomeModel separator m

theorem mem_references_outcomeModel :
    f ∈ (r.outcomeModel separator m).references ↔
      ∃ g ∈ m.references, r.outcomeReference separator g = f :=
  List.mem_map

theorem get?_outcome {id : ModelId} (hm : r.get? id = some m) :
    (r.outcome separator).get? id = some (r.outcomeModel separator m) := by
  show (r.models.map (r.outcomeModel separator))[id]? = _
  rw [List.getElem?_map, show r.models[id]? = some m from hm, Option.map_some]

theorem broughtColumns_outcomeReference {id : ModelId} (hid : r.idOf f.target = some id)
    (himplicit : f.isImplicit) :
    (r.outcomeReference separator f).broughtColumns =
      (r.outcomeReference separator f).columnsFor separator (r.expectedKey separator f.target) := by
  have hres : (r.outcomeReference separator f).resolution =
      some ⟨id, r.expectedKey separator f.target,
        f.sourcePairs separator (r.expectedKey separator f.target)⟩ := by
    simp [outcomeReference, hid, himplicit]
  have himplicit' : (r.outcomeReference separator f).isImplicit := himplicit
  exact Reference.broughtColumns_of_implicit himplicit' hres rfl

/-- Every model is on its way to its counterpart. -/
theorem Fresh.growsTo_outcomeModel (hr : r.Fresh) (hm : m ∈ r.models) :
    m.GrowsTo (r.outcomeModel separator m) := by
  refine ⟨(r.bare_outcomeModel separator m).symm, fun f hf _ _ _ hres => ?_⟩
  simp [Reference.isResolved, hr.resolution_eq_none m hm f hf] at hres

namespace Resolvable

variable (h : r.Resolvable separator) (hr : r.Fresh)
include h hr

theorem exists_target (hm : m ∈ r.models) (hf : f ∈ m.references) :
    ∃ id t, r.idOf f.target = some id ∧ r.get? id = some t ∧ t.name = f.target := by
  obtain ⟨t, ht, hname⟩ := contains_iff.1 (h.contains_target m hm f hf)
  obtain ⟨id, hid⟩ := exists_get?_of_mem ht
  exact ⟨id, t, (idOf_eq_some_iff hr.nodup_names).2 ⟨t, hid, hname⟩, hid, hname⟩

/-- What an implicit reference of the outcome has brought. -/
theorem broughtColumns_eq (hm : m ∈ r.models) :
    ∀ g ∈ (r.outcomeModel separator m).references, g.isImplicit →
      g.broughtColumns = g.columnsFor separator (r.expectedKey separator g.target) := by
  intro g hg himplicit
  obtain ⟨f, hf, rfl⟩ := mem_references_outcomeModel.1 hg
  obtain ⟨id, -, hid, -⟩ := h.exists_target hr hm hf
  exact broughtColumns_outcomeReference hid himplicit

/-- Every reference of the outcome is resolved against the expected key of its target. -/
theorem exists_resolution (hm : m ∈ r.models) (hf : f ∈ m.references) :
    ∃ id t, r.get? id = some t ∧ t.name = f.target ∧ r.idOf f.target = some id ∧
      (r.outcomeReference separator f).resolution = some ⟨id, r.expectedKey separator f.target,
        if f.isImplicit then f.sourcePairs separator (r.expectedKey separator f.target)
        else (r.expectedKey separator f.target).filterMap
          (Reference.pairFor? f.declaredPairs)⟩ := by
  obtain ⟨id, t, hid, ht, hname⟩ := h.exists_target hr hm hf
  refine ⟨id, t, ht, hname, hid, ?_⟩
  simp only [outcomeReference, hid, Option.map_some]

theorem laid_outcomeModel (hm : m ∈ r.models) : (r.outcomeModel separator m).Laid := by
  have hbare : (m.changeReferences (r.outcomeReference separator)).bare = m.bare :=
    Model.bare_changeReferences (r.bare_outcomeReference separator)
  have hcolumns : (m.changeReferences (r.outcomeReference separator)).columns =
      (m.changeReferences (r.outcomeReference separator)).declarations.flatMap
        Declaration.columns :=
    Model.columns_changeReferences (r.bare_outcomeReference separator)
  refine Model.laid_refreshForeignKeys ?_ hcolumns ?_
  · -- the names of the outcome are those declared and those taken over
    have hperm := Model.names_perm hcolumns (h.broughtColumns_eq hr hm)
    rw [hbare, hr.names_bare hm, Model.sourceNames_eq_of_bare_eq hbare] at hperm
    exact hperm.nodup_iff.2 (h.nodup_names m hm)
  · intro g hg resolution hres himplicit
    obtain ⟨f, hf, rfl⟩ := List.mem_map.1 hg
    obtain ⟨id, t, -, -, -, hresolution⟩ := h.exists_resolution hr hm hf
    obtain rfl := Option.some.inj (hres.symm.trans hresolution)
    have hfimplicit : f.isImplicit := himplicit
    refine ⟨separator, ?_⟩
    simp only [hfimplicit, if_true]
    rfl

theorem keyShape_outcomeModel (hm : m ∈ r.models) :
    (r.outcomeModel separator m).keyShape = r.expectedKey separator m.name := by
  rw [expectedKey_eq hr.nodup_names h.keyAcyclic hm,
    ← Model.mergedKey_eq_of_bare_eq (r.bare_outcomeModel separator m)]
  exact (h.laid_outcomeModel hr hm).keyShape_eq_mergedKey fun g hg _ himplicit =>
    h.broughtColumns_eq hr hm g hg himplicit

theorem isResolved_outcome (hm : m ∈ r.models) :
    ∀ g ∈ (r.outcomeModel separator m).references, g.isResolved := by
  intro g hg
  obtain ⟨f, hf, rfl⟩ := mem_references_outcomeModel.1 hg
  obtain ⟨id, t, -, -, -, hresolution⟩ := h.exists_resolution hr hm hf
  exact Reference.isResolved_iff.2 ⟨_, hresolution⟩

theorem settledIn_outcome (hm : m ∈ r.models) (hf : f ∈ m.references) {resolution : Resolution}
    (hres : (r.outcomeReference separator f).resolution = some resolution) :
    (r.outcomeReference separator f).SettledIn (r.outcome separator)
      (r.outcomeModel separator m) resolution := by
  obtain ⟨id, t, ht, hname, -, hresolution⟩ := h.exists_resolution hr hm hf
  obtain rfl := Option.some.inj (hres.symm.trans hresolution)
  have htmem := mem_of_get? ht
  refine ⟨hresolution, ⟨_, get?_outcome ht, ?_, ?_⟩, fun hexplicit => ?_⟩
  · exact Model.isKeyFinal_iff.2 fun g hg _ => h.isResolved_outcome hr htmem g hg
  · rw [h.keyShape_outcomeModel hr htmem, hname]
  · have hmatches := h.matches_key m hm f hf hexplicit
    refine ⟨hmatches.mono (hr.growsTo_outcomeModel hm) (hr.laid hm) (h.laid_outcomeModel hr hm)
      rfl, ?_⟩
    have hfexplicit : f.isImplicit = false := hexplicit
    simp [hfexplicit, outcomeReference]

theorem sound_outcome : (r.outcome separator).Sound := by
  have hnames := map_name_eq_of_map_bare_eq (r.map_bare_outcome separator)
  refine ⟨hnames ▸ hr.nodup_names, ?_, ?_, ?_⟩
  · intro n hn
    obtain ⟨m, hm, rfl⟩ := List.mem_map.1 hn
    exact h.laid_outcomeModel hr hm
  · intro n hn g hg resolution hres
    obtain ⟨m, hm, rfl⟩ := List.mem_map.1 hn
    obtain ⟨f, hf, rfl⟩ := mem_references_outcomeModel.1 hg
    obtain ⟨id, t, -, -, hid, hresolution⟩ := h.exists_resolution hr hm hf
    obtain rfl := Option.some.inj (hres.symm.trans hresolution)
    rw [idOf_congr hnames]
    exact hid
  · intro n hn g hg resolution hres
    obtain ⟨m, hm, rfl⟩ := List.mem_map.1 hn
    obtain ⟨f, hf, rfl⟩ := mem_references_outcomeModel.1 hg
    obtain ⟨id, t, ht, hname, -, hresolution⟩ := h.exists_resolution hr hm hf
    obtain rfl := Option.some.inj (hres.symm.trans hresolution)
    exact hname ▸ h.expectedKey_ne_nil t (mem_of_get? ht)

/-- In the outcome nothing is left to resolve. -/
theorem complete_outcome : (r.outcome separator).Complete separator := by
  have hsound := h.sound_outcome hr
  have hbare := r.map_bare_outcome separator
  refine ⟨⟨hsound, ?_, fun n hn _ => ?_⟩, ?_, ?_, ?_⟩
  · intro n hn g hg resolution hres
    obtain ⟨m, hm, rfl⟩ := List.mem_map.1 hn
    obtain ⟨f, hf, rfl⟩ := mem_references_outcomeModel.1 hg
    exact h.settledIn_outcome hr hm hf hres
  · obtain ⟨m, hm, hnm⟩ := exists_bare_eq_of_map_bare_eq hbare hn
    have hgrounded := (forall_grounded_iff hr.nodup_names).2
      ⟨fun m hm f hf _ => h.contains_target m hm f hf, h.keyAcyclic⟩ m hm
    rw [← Model.name_eq_of_bare_eq hnm]
    exact hgrounded.mono fun m hm => exists_bare_eq_of_map_bare_eq hbare.symm hm
  · intro n hn g hg resolution hres himplicit
    obtain ⟨m, hm, rfl⟩ := List.mem_map.1 hn
    obtain ⟨f, hf, rfl⟩ := mem_references_outcomeModel.1 hg
    obtain ⟨id, t, -, -, -, hresolution⟩ := h.exists_resolution hr hm hf
    obtain rfl := Option.some.inj (hres.symm.trans hresolution)
    have hfimplicit : f.isImplicit := himplicit
    simp only [hfimplicit, if_true]
    rfl
  · intro n hn
    obtain ⟨m, hm, rfl⟩ := List.mem_map.1 hn
    exact h.isResolved_outcome hr hm
  · intro n hn
    obtain ⟨m, hm, rfl⟩ := List.mem_map.1 hn
    rw [h.keyShape_outcomeModel hr hm]
    exact h.expectedKey_ne_nil m hm

end Resolvable

end Registry

end RelSchema
