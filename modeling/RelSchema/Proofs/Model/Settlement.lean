import RelSchema.Proofs.Model.Arrangement
import RelSchema.Proofs.Model.Layout

/-!
# Settling and dropping a reference

What happens to a laid out model when one of its references is given a resolution or loses it.  In
each case the columns change at the declaration of that reference only.
-/

namespace RelSchema

namespace Model

/-! ## 1. Columns by their mark -/

theorem flatMap_references (ds : List Declaration) (columnsOf : Reference → List Column) :
    (ds.flatMap fun
      | .column _ => []
      | .reference r => columnsOf r) = (referencesOf ds).flatMap columnsOf := by
  induction ds with
  | nil => rfl
  | cons d ds ih =>
    rw [List.flatMap_cons, ih]
    cases d <;> rfl

/-- Of lists attached to references with different fields only one belongs to a field. -/
theorem flatMap_ite_field {references : List Reference}
    (h : (references.map (·.field)).Nodup) {f : Reference} (hf : f ∈ references)
    (columns : List Column) :
    (references.flatMap fun r => if r.field = f.field then columns else []) = columns := by
  obtain ⟨before, after, rfl⟩ := List.append_of_mem hf
  rw [List.map_append, List.map_cons] at h
  have hbefore : ∀ r ∈ before, r.field ≠ f.field := fun r hr heq =>
    (List.nodup_append.1 h).2.2 _ (List.mem_map_of_mem hr) _ List.mem_cons_self heq
  have hafter : ∀ r ∈ after, r.field ≠ f.field := fun r hr heq =>
    (List.nodup_cons.1 (List.nodup_append.1 h).2.1).1 (heq ▸ List.mem_map_of_mem hr)
  rw [List.flatMap_append, List.flatMap_cons, if_pos rfl,
    List.flatMap_eq_nil_iff.2 fun r hr => if_neg (hbefore r hr),
    List.flatMap_eq_nil_iff.2 fun r hr => if_neg (hafter r hr), List.nil_append, List.append_nil]

/-- Of what stands at declarations only the columns at the reference of a field are left. -/
theorem flatMap_eq_of_field {m : Model} (h : (m.references.map (·.field)).Nodup) {f : Reference}
    (hf : f ∈ m.references) {columns : List Column} {pick : Declaration → List Column}
    (hcolumn : ∀ c ∈ m.declaredColumns, pick (.column c) = [])
    (hreference : ∀ r ∈ m.references,
      pick (.reference r) = if r.field = f.field then columns else []) :
    m.declarations.flatMap pick = columns := by
  have hat : ∀ d ∈ m.declarations, pick d =
      match d with
      | .column _ => []
      | .reference r => if r.field = f.field then columns else [] := by
    rintro (c | r) hd
    · exact hcolumn c (column_mem_declarations.1 hd)
    · exact hreference r (reference_mem_declarations.1 hd)
  rw [List.flatMap_congr hat, flatMap_references m.declarations fun r =>
    if r.field = f.field then columns else [], referencesOf_declarations]
  exact flatMap_ite_field h hf columns

/-- Columns that all carry one mark are kept or removed together. -/
theorem filter_isMarkedBy_eq_ite {columns : List Column} {own : String}
    (h : ∀ c ∈ columns, c.synthesizedBy = some own) (field : String) :
    columns.filter (·.isMarkedBy field) = if own = field then columns else [] := by
  have hmark : ∀ c ∈ columns, c.isMarkedBy field ↔ own = field := fun c hc => by
    simp [Column.isMarkedBy, h c hc]
  by_cases hown : own = field
  · rw [if_pos hown]
    exact List.filter_eq_self.2 fun c hc => (hmark c hc).2 hown
  · rw [if_neg hown]
    exact List.filter_eq_nil_iff.2 fun c hc hc' => hown ((hmark c hc).1 hc')

theorem filter_isMarkedBy_broughtColumns (r : Reference) (field : String) :
    r.broughtColumns.filter (·.isMarkedBy field) =
      if r.field = field then r.broughtColumns else [] :=
  filter_isMarkedBy_eq_ite (fun _ hc => Reference.synthesizedBy_of_mem_broughtColumns hc) field

theorem not_isMarkedBy_of_mem_declaredColumns {m : Model} {c : Column}
    (h : c ∈ m.declaredColumns) (field : String) : c.isMarkedBy field = false := by
  have hnone := (List.mem_filter.1 h).2
  cases hmark : c.isMarkedBy field
  · rfl
  · simp [Column.isSynthesized_of_isMarkedBy hmark] at hnone

/-- The columns with the mark of a reference are the ones the reference has brought. -/
theorem Laid.filter_isMarkedBy {m : Model} (h : m.Laid) {f : Reference} (hf : f ∈ m.references) :
    m.columns.filter (·.isMarkedBy f.field) = f.broughtColumns := by
  conv_lhs => rw [h.columns_eq]
  rw [List.filter_flatMap]
  -- at each declaration the mark picks out everything or nothing
  refine flatMap_eq_of_field h.nodup_fields hf (fun c hc => ?_) fun r hr => ?_
  · simp [Declaration.columns, not_isMarkedBy_of_mem_declaredColumns hc f.field]
  · show r.broughtColumns.filter _ = _
    rw [filter_isMarkedBy_broughtColumns]
    by_cases hfield : r.field = f.field
    · rw [h.reference_inj hr hf hfield]
    · rw [if_neg hfield, if_neg hfield]

/-! ## 2. Recording a resolution -/

@[simp] theorem name_setResolution (m : Model) (index : Nat) (resolution : Option Resolution) :
    (m.setResolution index resolution).name = m.name := rfl

theorem references_setResolution (m : Model) (index : Nat) (resolution : Option Resolution) :
    (m.setResolution index resolution).references =
      m.references.modify index fun r => { r with resolution := resolution } := rfl

theorem declaredColumns_refreshForeignKeys (m : Model) :
    m.refreshForeignKeys.declaredColumns =
      m.declaredColumns.map fun c => { c with foreignKey := m.isForeignKey c } := by
  simp [declaredColumns, refreshForeignKeys, List.filter_map, Function.comp_def,
    Column.isSynthesized]

/-- Refreshing the flags is all that is missing when the columns already stand where they belong. -/
theorem laid_refreshForeignKeys {m : Model} (hnames : m.names.Nodup)
    (hcolumns : m.columns = m.declarations.flatMap Declaration.columns)
    (hpairs : ∀ f ∈ m.references, ∀ resolution, f.resolution = some resolution → f.isImplicit →
      ∃ separator, resolution.pairs = f.sourcePairs separator resolution.key) :
    m.refreshForeignKeys.Laid where
  nodup_names := by rw [names_refreshForeignKeys]; exact hnames
  columns_eq := by
    have hdeclarations : m.refreshForeignKeys.declarations = m.declarations.map
        (Declaration.map (fun c => { c with foreignKey := m.isForeignKey c }) fun r => r) :=
      declarations_eq_map (fun _ => rfl) m.declaredColumns_refreshForeignKeys
        (List.map_id _).symm
    show m.columns.map _ = _
    rw [hdeclarations, hcolumns, List.map_flatMap, List.flatMap_map]
    apply List.flatMap_congr
    intro d _
    cases d with
    | column c => rfl
    | reference r =>
      -- a brought column is flagged before and after
      refine (List.map_congr_left fun c hc => ?_).trans (List.map_id _)
      obtain ⟨k, p, rfl⟩ := Reference.eq_broughtColumn_of_mem hc
      simp [isForeignKey, Reference.broughtColumn, Column.isSynthesized]
  foreignKey_eq c hc := by
    obtain ⟨c', -, rfl⟩ := List.mem_map.1 hc
    rfl
  pairs_eq := hpairs

theorem declaredColumns_setResolution (m : Model) (index : Nat)
    (resolution : Option Resolution) :
    (m.setResolution index resolution).declaredColumns.map Column.bare =
      m.declaredColumns.map Column.bare := by
  rw [setResolution, declaredColumns_refreshForeignKeys, List.map_map]
  rfl

/-- A view of references that does not see resolutions sees no change. -/
theorem map_references_setResolution {α : Type} {view : Reference → α}
    (hview : ∀ (r : Reference) resolution, view { r with resolution := resolution } = view r)
    (m : Model) (index : Nat) (resolution : Option Resolution) :
    (m.setResolution index resolution).references.map view = m.references.map view := by
  apply List.ext_getElem?
  intro j
  rw [references_setResolution, List.getElem?_map, List.getElem?_modify, List.getElem?_map]
  split <;> cases m.references[j]? <;> simp [hview]

/-- A change of one reference's resolution does not touch what was declared. -/
@[simp] theorem bare_setResolution (m : Model) (index : Nat) (resolution : Option Resolution) :
    (m.setResolution index resolution).bare = m.bare := by
  unfold bare
  rw [declaredColumns_setResolution, map_references_setResolution fun _ _ => rfl]
  rfl

theorem names_setResolution (m : Model) (index : Nat) (resolution : Option Resolution) :
    (m.setResolution index resolution).names = m.names := by
  have hcolumns : (m.setResolution index resolution).columns.map (·.name) =
      m.columns.map (·.name) := by
    simp [setResolution, refreshForeignKeys, Function.comp_def]
  rw [names, hcolumns, map_references_setResolution fun _ _ => rfl]
  rfl

/-- The columns of `s` already stand as if the reference at `index` had its new resolution, and
recording it makes a laid out model. -/
theorem Laid.setResolution {m s : Model} (h : m.Laid) {index : Nat} {f : Reference}
    (hf : m.references[index]? = some f) {resolution : Option Resolution}
    (hreferences : s.references = m.references) (hdeclared : s.declaredColumns = m.declaredColumns)
    (hnames : s.names.Nodup)
    (hcolumns : s.columns = m.declarations.flatMap fun d =>
      (d.resolveAt f.field resolution).columns)
    (hpairs : ∀ r, resolution = some r → f.isImplicit →
      ∃ separator, r.pairs = f.sourcePairs separator r.key) :
    (s.setResolution index resolution).Laid := by
  -- the change at an index is seen as a change by field, which is what declarations go by
  have hmodify : s.references.modify index (fun r => { r with resolution := resolution }) =
      m.references.map (Reference.resolveAt f.field resolution) := by
    rw [hreferences]
    exact Reference.modify_eq_map h.nodup_fields hf resolution
  refine laid_refreshForeignKeys ?_ ?_ ?_
  · have hkept : (s.setResolution index resolution).names.Nodup := by
      rwa [names_setResolution]
    rwa [Model.setResolution, names_refreshForeignKeys] at hkept
  · have hdeclarations : ({ s with references := s.references.modify index fun r =>
          { r with resolution := resolution } } : Model).declarations =
        m.declarations.map (Declaration.resolveAt f.field resolution) :=
      declarations_eq_map (by simp) (hdeclared.trans (List.map_id _).symm) hmodify
    rw [hdeclarations, List.flatMap_map]
    exact hcolumns
  · show ∀ g ∈ s.references.modify index _, _
    rw [hmodify]
    intro g' hg' r hres himplicit
    obtain ⟨g, hg, rfl⟩ := List.mem_map.1 hg'
    -- the changed reference has the pairs that were given, any other one those it had
    unfold Reference.resolveAt at hres himplicit ⊢
    by_cases hfield : g.field = f.field
    · obtain rfl := h.reference_inj hg (List.mem_of_getElem? hf) hfield
      rw [if_pos rfl] at hres himplicit ⊢
      exact hpairs r hres himplicit
    · rw [if_neg hfield] at hres himplicit ⊢
      exact h.pairs_eq g hg r hres himplicit

theorem resolveAt_columns_of_explicit {m : Model} (h : m.Laid) {f : Reference}
    (hf : f ∈ m.references) (hexplicit : f.isImplicit = false) (resolution : Option Resolution)
    {d : Declaration} (hd : d ∈ m.declarations) :
    (d.resolveAt f.field resolution).columns = d.columns := by
  cases d with
  | column c => rfl
  | reference r =>
    show (r.resolveAt f.field resolution).broughtColumns = r.broughtColumns
    by_cases hfield : r.field = f.field
    · obtain rfl := h.reference_inj (reference_mem_declarations.1 hd) hf hfield
      rw [Reference.resolveAt_self, Reference.broughtColumns_of_explicit (r := r) hexplicit]
      exact Reference.broughtColumns_of_explicit hexplicit
    · rw [Reference.resolveAt_of_ne hfield]

/-- An explicit reference is resolved where its columns already are. -/
theorem Laid.setResolution_of_explicit {m : Model} (h : m.Laid) {index : Nat} {f : Reference}
    (hf : m.references[index]? = some f) (hexplicit : f.isImplicit = false)
    (resolution : Option Resolution) : (m.setResolution index resolution).Laid := by
  refine h.setResolution hf rfl rfl h.nodup_names ?_ fun r _ himplicit => ?_
  · conv_lhs => rw [h.columns_eq]
    exact List.flatMap_congr fun d hd =>
      (resolveAt_columns_of_explicit h (List.mem_of_getElem? hf) hexplicit resolution hd).symm
  · simp [hexplicit] at himplicit

/-! ## 3. Bringing columns -/

/-- The column as it stands in a model that it has been added to. -/
def joined (c : Column) : Column :=
  { c with declaredForeignKey := c.foreignKey }

theorem addColumns_eq_ok_iff {m added : Model} {columns : List Column} :
    m.addColumns columns = .ok added ↔
      (columns.map (·.name)).Nodup ∧ (∀ c ∈ columns, c.name ∉ m.names) ∧
        added = { m with columns := m.columns ++ columns.map joined } := by
  induction columns generalizing m with
  | nil => simp [addColumns, eq_comm]
  | cons c columns ih =>
    have hadd : m.addColumns (c :: columns) = .ok added ↔
        ∃ next, m.addColumn c = .ok next ∧ next.addColumns columns = .ok added := by
      rw [addColumns]
      cases m.addColumn c <;> simp
    rw [hadd]
    constructor
    · rintro ⟨next, hc, hrest⟩
      obtain ⟨hfresh, rfl⟩ := addColumn_eq_ok_iff.1 hc
      obtain ⟨hnodup, hnew, rfl⟩ := ih.1 hrest
      -- the later columns avoid the names of the model together with the one just added
      have hnames := fun c' (hc' : c' ∈ columns) => hnew c' hc'
      simp only [names, List.map_append, List.map_cons, List.map_nil, List.mem_append,
        List.mem_singleton, not_or] at hnames
      refine ⟨?_, ?_, by simp [joined]⟩
      · rw [List.map_cons, List.nodup_cons, List.mem_map]
        refine ⟨?_, hnodup⟩
        rintro ⟨c', hc', heq⟩
        exact (hnames c' hc').1.2 heq
      · rintro c' (_ | ⟨_, hc'⟩)
        · exact hfresh
        · simp only [names, List.mem_append, not_or]
          exact ⟨(hnames c' hc').1.1, (hnames c' hc').2⟩
    · rintro ⟨hnodup, hnew, rfl⟩
      rw [List.map_cons, List.nodup_cons] at hnodup
      refine ⟨_, addColumn_eq_ok_iff.2 ⟨hnew c List.mem_cons_self, rfl⟩,
        ih.2 ⟨hnodup.2, fun c' hc' => ?_, by simp [joined]⟩⟩
      have hc'new := hnew c' (List.mem_cons_of_mem _ hc')
      simp only [names, List.mem_append, not_or] at hc'new
      simp only [names, List.map_append, List.map_cons, List.map_nil, List.mem_append,
        List.mem_singleton, not_or]
      exact ⟨⟨hc'new.1, fun heq => hnodup.1 (List.mem_map.2 ⟨c', hc', heq⟩)⟩, hc'new.2⟩

/-- Synthesis goes through exactly when the names of the new columns differ from each other and from
all names of the model. -/
theorem synthesize_eq_ok_iff {m synthesized : Model} {f : Reference} {separator : String}
    {key : PrimaryKey} :
    m.synthesize f separator key = .ok synthesized ↔
      (key.map (f.sourceName separator)).Nodup ∧
        (∀ k ∈ key, f.sourceName separator k ∉ m.names) ∧
        synthesized = arrange
          { m with columns := m.columns ++ (f.sourceColumns separator key).map joined } := by
  have hnames : (f.sourceColumns separator key).map (·.name) =
      key.map (f.sourceName separator) := by
    rw [Reference.sourceColumns, List.map_map]
    rfl
  have hadd : ∀ added, m.addColumns (f.sourceColumns separator key) = .ok added ↔
      (key.map (f.sourceName separator)).Nodup ∧
        (∀ k ∈ key, f.sourceName separator k ∉ m.names) ∧
        added = { m with columns := m.columns ++ (f.sourceColumns separator key).map joined } := by
    intro added
    rw [addColumns_eq_ok_iff, hnames]
    simp only [Reference.sourceColumns, List.forall_mem_map]
    rfl
  -- names are looked at twice: all of them before anything is added, then as each is added
  unfold synthesize
  cases htaken : key.find? fun k => m.isNameTaken (f.sourceName separator k) with
  | some k =>
    have hk : f.sourceName separator k ∈ m.names := by
      simpa [isNameTaken] using List.find?_some htaken
    simp only [reduceCtorEq, false_iff]
    exact fun h => h.2.1 k (List.mem_of_find?_eq_some htaken) hk
  | none =>
    unfold addSynthesized
    cases hcolumns : m.addColumns (f.sourceColumns separator key) with
    | error e =>
      simp only [reduceCtorEq, false_iff]
      rintro ⟨hnodup, hnew, -⟩
      exact absurd ((hadd _).2 ⟨hnodup, hnew, rfl⟩) (by simp [hcolumns])
    | ok added =>
      obtain ⟨hnodup, hnew, rfl⟩ := (hadd added).1 hcolumns
      simp only [Except.ok.injEq]
      exact ⟨fun h => ⟨hnodup, hnew, h.symm⟩, fun h => h.2.2.symm⟩

/-- Columns with the mark of a reference that had none go to the place of the reference. -/
theorem Laid.arrange_columns {m : Model} (h : m.Laid) {f : Reference} (hf : f ∈ m.references)
    (hempty : f.broughtColumns = []) {new : List Column}
    (hnew : ∀ c ∈ new, c.synthesizedBy = some f.field) :
    (arrange { m with columns := m.columns ++ new }).columns =
      m.declarations.flatMap (Declaration.columnsWith f.field new) := by
  have hdeclared : ({ m with columns := m.columns ++ new } : Model).declaredColumns =
      m.declaredColumns := by
    have hnone : new.filter (!·.isSynthesized) = [] :=
      List.filter_eq_nil_iff.2 fun c hc => by simp [Column.isSynthesized, hnew c hc]
    show (m.columns ++ new).filter _ = _
    rw [List.filter_append, hnone, List.append_nil]
    rfl
  -- every mark names a reference of the model, so that nothing goes to the end
  have hstray : ({ m with columns := m.columns ++ new } : Model).strayColumns = [] := by
    apply List.filter_eq_nil_iff.2
    intro c hc
    have hmarkedBy : c.isSynthesized → ∃ r ∈ m.references, c.isMarkedBy r.field := by
      intro hsynth
      rcases List.mem_append.1 hc with hc | hc
      · rcases h.mem_columns_iff.1 hc with hc | ⟨r, hr, hc⟩
        · have hnot := (List.mem_filter.1 hc).2
          simp [hsynth] at hnot
        · exact ⟨r, hr, Reference.isMarkedBy_of_mem_broughtColumns hc⟩
      · exact ⟨f, hf, by rw [Column.isMarkedBy, hnew c hc, beq_self_eq_true]⟩
    cases hsynth : c.isSynthesized
    · simp
    · obtain ⟨r, hr, hmark⟩ := hmarkedBy hsynth
      simp only [Bool.true_and, Bool.not_eq_true', Bool.not_eq_false, List.any_eq_true]
      exact ⟨r, hr, hmark⟩
  have hdeclarations : ({ m with columns := m.columns ++ new } : Model).declarations =
      m.declarations := by
    rw [declarations, hdeclared]
    rfl
  unfold arrange
  rw [hstray, List.append_nil, hdeclarations]
  apply List.flatMap_congr
  intro d hd
  cases d with
  | column c => rfl
  | reference r =>
    have hr := reference_mem_declarations.1 hd
    show (m.columns ++ new).filter _ = if r.field = f.field then new else r.broughtColumns
    rw [List.filter_append, h.filter_isMarkedBy hr, filter_isMarkedBy_eq_ite hnew]
    by_cases heq : r.field = f.field
    · rw [if_pos heq, if_pos heq.symm, h.reference_inj hr hf heq, hempty, List.nil_append]
    · rw [if_neg heq, if_neg fun h' => heq h'.symm, List.append_nil]

theorem map_joined_sourceColumns (f : Reference) (separator : String) (key : PrimaryKey) :
    (f.sourceColumns separator key).map joined = f.columnsFor separator key := by
  rw [Reference.sourceColumns, List.map_map]
  rfl

theorem synthesizedBy_of_mem_columnsFor {f : Reference} {separator : String} {key : PrimaryKey}
    {c : Column} (hc : c ∈ f.columnsFor separator key) : c.synthesizedBy = some f.field := by
  obtain ⟨k, -, rfl⟩ := List.mem_map.1 hc
  rfl

section Synthesize

variable {m synthesized : Model} {f : Reference} {separator : String} {key : PrimaryKey}

theorem references_of_synthesize (hs : m.synthesize f separator key = .ok synthesized) :
    synthesized.references = m.references := by
  obtain ⟨-, -, rfl⟩ := synthesize_eq_ok_iff.1 hs
  rfl

theorem declaredColumns_of_synthesize (hs : m.synthesize f separator key = .ok synthesized) :
    synthesized.declaredColumns = m.declaredColumns := by
  obtain ⟨-, -, rfl⟩ := synthesize_eq_ok_iff.1 hs
  rw [declaredColumns_arrange]
  have hnone : ((f.sourceColumns separator key).map joined).filter (!·.isSynthesized) = [] := by
    rw [map_joined_sourceColumns]
    exact List.filter_eq_nil_iff.2 fun c hc => by
      simp [Column.isSynthesized, synthesizedBy_of_mem_columnsFor hc]
  show (m.columns ++ _).filter _ = _
  rw [List.filter_append, hnone, List.append_nil]
  rfl

theorem bare_of_synthesize (hs : m.synthesize f separator key = .ok synthesized) :
    synthesized.bare = m.bare := by
  have hdeclared := declaredColumns_of_synthesize hs
  obtain ⟨-, -, rfl⟩ := synthesize_eq_ok_iff.1 hs
  rw [bare, hdeclared]
  rfl

/-- Synthesis puts the new columns at the place of the reference. -/
theorem Laid.columns_of_synthesize (h : m.Laid) (hf : f ∈ m.references)
    (hempty : f.broughtColumns = []) (hs : m.synthesize f separator key = .ok synthesized) :
    synthesized.columns =
      m.declarations.flatMap (Declaration.columnsWith f.field (f.columnsFor separator key)) := by
  obtain ⟨-, -, rfl⟩ := synthesize_eq_ok_iff.1 hs
  rw [map_joined_sourceColumns]
  exact h.arrange_columns hf hempty fun c hc => synthesizedBy_of_mem_columnsFor hc

/-- Synthesis brings the names of its columns and no others. -/
theorem names_of_synthesize (hfields : (m.references.map (·.field)).Nodup)
    (hs : m.synthesize f separator key = .ok synthesized) :
    synthesized.names.Perm (key.map (f.sourceName separator) ++ m.names) := by
  obtain ⟨-, -, rfl⟩ := synthesize_eq_ok_iff.1 hs
  have hnew : ((f.sourceColumns separator key).map joined).map (·.name) =
      key.map (f.sourceName separator) := by
    rw [Reference.sourceColumns, List.map_map, List.map_map]
    rfl
  refine List.Perm.trans (names_arrange_perm ?_) ?_
  · exact hfields
  rw [names, names, List.map_append, hnew, ← List.append_assoc]
  exact List.perm_append_comm.append_right _

theorem nodup_names_of_synthesize (h : m.names.Nodup)
    (hs : m.synthesize f separator key = .ok synthesized) : synthesized.names.Nodup := by
  obtain ⟨hnodup, hnew, -⟩ := synthesize_eq_ok_iff.1 hs
  have hfields : (m.references.map (·.field)).Nodup := (List.nodup_append.1 h).2.1
  refine (names_of_synthesize hfields hs).nodup_iff.2 (List.nodup_append.2 ⟨hnodup, h, ?_⟩)
  intro name hname name' hname' heq
  obtain ⟨k, hk, rfl⟩ := List.mem_map.1 hname
  exact hnew k hk (heq ▸ hname')

end Synthesize

/-- An implicit reference is resolved on the model that has its columns. -/
theorem Laid.setResolution_of_synthesize {m synthesized : Model} (h : m.Laid) {index : Nat}
    {f : Reference} (hf : m.references[index]? = some f) (hopen : f.resolution = none)
    (himplicit : f.isImplicit) {separator : String} {key : PrimaryKey}
    (hs : m.synthesize f separator key = .ok synthesized) (target : ModelId) :
    (synthesized.setResolution index
      (some ⟨target, key, f.sourcePairs separator key⟩)).Laid := by
  have hmem := List.mem_of_getElem? hf
  have hempty := Reference.broughtColumns_of_unresolved hopen
  refine h.setResolution hf (references_of_synthesize hs) (declaredColumns_of_synthesize hs)
    (nodup_names_of_synthesize h.nodup_names hs) ?_ ?_
  · rw [h.columns_of_synthesize hmem hempty hs]
    apply List.flatMap_congr
    intro d hd
    cases d with
    | column c => rfl
    | reference r =>
      show (if r.field = f.field then f.columnsFor separator key else r.broughtColumns) =
        (r.resolveAt f.field _).broughtColumns
      by_cases hfield : r.field = f.field
      · obtain rfl := h.reference_inj (reference_mem_declarations.1 hd) hmem hfield
        rw [if_pos rfl, Reference.broughtColumns_resolveAt_self himplicit]
      · rw [if_neg hfield, Reference.resolveAt_of_ne hfield]
  · intro r hr _
    obtain rfl := Option.some.inj hr
    exact ⟨separator, rfl⟩

/-! ## 4. Dropping -/

theorem names_removeSynthesized_sublist (m : Model) (field : String) :
    (m.removeSynthesized field).names.Sublist m.names :=
  (List.filter_sublist.map _).append_right _

/-- A reference loses its resolution together with the columns that it has brought. -/
theorem Laid.setResolution_of_removeSynthesized {m : Model} (h : m.Laid) {index : Nat}
    {f : Reference} (hf : m.references[index]? = some f) :
    ((m.removeSynthesized f.field).setResolution index none).Laid := by
  refine h.setResolution hf rfl (declaredColumns_removeSynthesized m f.field) ?_ ?_
    fun r hr => by simp at hr
  · exact h.nodup_names.sublist (m.names_removeSynthesized_sublist f.field)
  · show m.columns.filter _ = _
    conv_lhs => rw [h.columns_eq]
    rw [List.filter_flatMap]
    apply List.flatMap_congr
    intro d hd
    cases d with
    | column c =>
      have hc := not_isMarkedBy_of_mem_declaredColumns (column_mem_declarations.1 hd) f.field
      simp [Declaration.columns, Declaration.resolveAt, Declaration.map, hc]
    | reference r =>
      show r.broughtColumns.filter _ = (r.resolveAt f.field none).broughtColumns
      by_cases hfield : r.field = f.field
      · rw [Reference.resolveAt, if_pos hfield,
          Reference.broughtColumns_of_unresolved (r := { r with resolution := none }) rfl,
          List.filter_eq_nil_iff]
        intro c hc
        simp [Column.isMarkedBy, Reference.synthesizedBy_of_mem_broughtColumns hc, hfield]
      · rw [Reference.resolveAt_of_ne hfield, List.filter_eq_self]
        intro c hc
        simp [Column.isMarkedBy, Reference.synthesizedBy_of_mem_broughtColumns hc, hfield]

theorem bare_removeSynthesized (m : Model) (field : String) :
    (m.removeSynthesized field).bare = m.bare := by
  rw [bare, declaredColumns_removeSynthesized]
  rfl

end Model

end RelSchema
