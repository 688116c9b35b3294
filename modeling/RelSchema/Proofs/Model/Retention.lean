import Mathlib.Data.List.Flatten
import RelSchema.Proofs.Model.Settlement

/-!
# What becomes of added columns

A column can be added with the mark of a reference on it, as a clone of a synthesized column is.  To
the model it is then one of the columns that the reference has brought: it moves to the place of the
reference when columns are arranged, and goes when the reference loses its resolution.
-/

namespace RelSchema

namespace Model

/-! ## 1. Arranging again -/

section Arrange

variable {m n : Model} {f : Reference}

/-- Arranging looks at the declarations, the marked columns of each reference and the strays. -/
theorem arrange_columns_congr (hdeclarations : m.declarations = n.declarations)
    (hmarked : ∀ f ∈ n.references,
      m.columns.filter (·.isMarkedBy f.field) = n.columns.filter (·.isMarkedBy f.field))
    (hstray : m.strayColumns = n.strayColumns) : m.arrange.columns = n.arrange.columns := by
  show m.declarations.flatMap m.columnsAt ++ m.strayColumns =
    n.declarations.flatMap n.columnsAt ++ n.strayColumns
  rw [hdeclarations, hstray]
  refine congrArg (· ++ n.strayColumns) (List.flatMap_congr fun d hd => ?_)
  cases d with
  | column c => rfl
  | reference r => exact hmarked r (reference_mem_declarations.1 hd)

theorem filter_isMarkedBy_strayColumns (hf : f ∈ m.references) :
    m.strayColumns.filter (·.isMarkedBy f.field) = [] := by
  refine List.filter_eq_nil_iff.2 fun c hc hmark => ?_
  have hstray := (List.mem_filter.1 hc).2
  rw [Bool.and_eq_true, Bool.not_eq_true', List.any_eq_false] at hstray
  exact hstray.2 f hf hmark

/-- Arranging keeps the marked columns of a reference in their order. -/
theorem filter_isMarkedBy_arrange (h : (m.references.map (·.field)).Nodup)
    (hf : f ∈ m.references) :
    m.arrange.columns.filter (·.isMarkedBy f.field) = m.columns.filter (·.isMarkedBy f.field) := by
  show (m.declarations.flatMap m.columnsAt ++ m.strayColumns).filter _ = _
  rw [List.filter_append, filter_isMarkedBy_strayColumns hf, List.append_nil, List.filter_flatMap]
  refine flatMap_eq_of_field h hf (fun c hc => ?_) fun r _ => ?_
  · simp [columnsAt, not_isMarkedBy_of_mem_declaredColumns hc f.field]
  · have hown : ∀ c ∈ m.columns.filter (·.isMarkedBy r.field), c.synthesizedBy = some r.field :=
      fun c hc => beq_iff_eq.1 (List.mem_filter.1 hc).2
    refine (filter_isMarkedBy_eq_ite hown f.field).trans ?_
    by_cases hfield : r.field = f.field
    · rw [if_pos hfield, if_pos hfield, hfield]
    · rw [if_neg hfield, if_neg hfield]

theorem strayColumns_arrange (m : Model) : m.arrange.strayColumns = m.strayColumns := by
  have hat : ∀ d ∈ m.declarations, (m.columnsAt d).filter (fun c =>
      c.isSynthesized && !m.references.any fun r => c.isMarkedBy r.field) = [] := by
    rintro (c | r) hd
    · have hc := (List.mem_filter.1 (column_mem_declarations.1 hd)).2
      rw [Bool.not_eq_true'] at hc
      simp [columnsAt, hc]
    · refine List.filter_eq_nil_iff.2 fun c hc hstray => ?_
      rw [Bool.and_eq_true, Bool.not_eq_true', List.any_eq_false] at hstray
      exact hstray.2 r (reference_mem_declarations.1 hd) (List.mem_filter.1 hc).2
  show (m.declarations.flatMap m.columnsAt ++ m.strayColumns).filter (fun c =>
    c.isSynthesized && !m.references.any fun r => c.isMarkedBy r.field) = m.strayColumns
  rw [List.filter_append, List.filter_flatMap, List.flatMap_eq_nil_iff.2 hat, List.nil_append]
  exact List.filter_filter.trans (List.filter_congr fun c _ => Bool.and_self _)

theorem declarations_arrange (m : Model) : m.arrange.declarations = m.declarations := by
  rw [declarations, declaredColumns_arrange]
  rfl

/-- Columns that stand where they belong stay there. -/
theorem columns_arrange_arrange (h : (m.references.map (·.field)).Nodup) :
    m.arrange.arrange.columns = m.arrange.columns :=
  arrange_columns_congr m.declarations_arrange (fun _ hf => filter_isMarkedBy_arrange h hf)
    m.strayColumns_arrange

theorem declarations_removeSynthesized (m : Model) (field : String) :
    (m.removeSynthesized field).declarations = m.declarations := by
  rw [declarations, declaredColumns_removeSynthesized]
  rfl

/-- It does not matter whether columns are removed before or after they are arranged. -/
theorem columns_arrange_removeSynthesized (m : Model) (field : String) :
    (m.removeSynthesized field).arrange.columns =
      (m.arrange.removeSynthesized field).columns := by
  show (m.removeSynthesized field).declarations.flatMap (m.removeSynthesized field).columnsAt ++
      (m.removeSynthesized field).strayColumns =
    (m.declarations.flatMap m.columnsAt ++ m.strayColumns).filter (!·.isMarkedBy field)
  rw [declarations_removeSynthesized, List.filter_append, List.filter_flatMap]
  refine congrArg₂ (· ++ ·) (List.flatMap_congr fun d hd => ?_) ?_
  · cases d with
    | column c =>
      have hc := not_isMarkedBy_of_mem_declaredColumns (column_mem_declarations.1 hd) field
      simp [columnsAt, hc]
    | reference r => exact List.filter_comm _ _ _
  · exact List.filter_comm _ _ _

theorem filter_isMarkedBy_removeSynthesized (m : Model) (field own : String) :
    (m.removeSynthesized field).columns.filter (·.isMarkedBy own) =
      if own = field then [] else m.columns.filter (·.isMarkedBy own) := by
  show (m.columns.filter (!·.isMarkedBy field)).filter _ = _
  rw [List.filter_filter]
  split
  · rename_i hown
    subst hown
    exact List.filter_eq_nil_iff.2 fun c _ => by simp
  · rename_i hown
    refine List.filter_congr fun c _ => ?_
    cases hmark : c.isMarkedBy field
    · exact Bool.and_true _
    · have hother : c.isMarkedBy own = false := by
        by_contra hmark'
        exact hown (Column.field_eq_of_isMarkedBy (Bool.not_eq_false _ ▸ hmark') hmark)
      rw [hother, Bool.false_and]

/-- A column with the mark of a reference is no stray. -/
theorem strayColumns_removeSynthesized (hf : f ∈ m.references) :
    (m.removeSynthesized f.field).strayColumns = m.strayColumns := by
  refine (List.filter_comm _ _ _).trans (List.filter_eq_self.2 fun c hc => ?_)
  have hmark := List.filter_eq_nil_iff.1 (filter_isMarkedBy_strayColumns hf) c hc
  simpa using hmark

/-- Columns with the mark of a reference are added behind those that already have it. -/
theorem filter_isMarkedBy_arrange_append (h : (m.references.map (·.field)).Nodup)
    {columns : List Column} (hown : ∀ c ∈ columns, c.synthesizedBy = some f.field) {r : Reference}
    (hr : r ∈ m.references) :
    (arrange { m with columns := m.columns ++ columns }).columns.filter (·.isMarkedBy r.field) =
      m.columns.filter (·.isMarkedBy r.field) ++ if f.field = r.field then columns else [] := by
  refine (filter_isMarkedBy_arrange (m := { m with columns := m.columns ++ columns }) h hr).trans ?_
  rw [List.filter_append, filter_isMarkedBy_eq_ite hown]

theorem strayColumns_arrange_append {columns : List Column}
    (hown : ∀ c ∈ columns, c.synthesizedBy = some f.field) (hf : f ∈ m.references) :
    (arrange { m with columns := m.columns ++ columns }).strayColumns = m.strayColumns := by
  refine (strayColumns_arrange _).trans ?_
  have hnone : columns.filter (fun c =>
      c.isSynthesized && !m.references.any fun r => c.isMarkedBy r.field) = [] := by
    refine List.filter_eq_nil_iff.2 fun c hc hstray => ?_
    rw [Bool.and_eq_true, Bool.not_eq_true', List.any_eq_false] at hstray
    exact hstray.2 f hf (beq_iff_eq.2 (hown c hc))
  show (m.columns ++ columns).filter _ = _
  rw [List.filter_append]
  exact (congrArg (_ ++ ·) hnone).trans (List.append_nil _)

end Arrange

/-! ## 2. Models without resolutions -/

/-- The model without its id and its resolutions, but with all of its columns. -/
def stripped (m : Model) : Model :=
  { m with
    id := none
    columns := m.columns.map Column.bare
    references := m.references.map Reference.bare }

section Stripped

variable {m : Model}

theorem declaredColumns_stripped (m : Model) :
    m.stripped.declaredColumns = m.declaredColumns.map Column.bare := by
  simp only [declaredColumns, stripped, List.filter_map, Function.comp_def]
  rfl

theorem bare_stripped (m : Model) : m.stripped.bare = m.bare := by
  have hcolumns : m.stripped.declaredColumns.map Column.bare = m.declaredColumns.map Column.bare := by
    rw [declaredColumns_stripped, List.map_map]
    rfl
  have hreferences : m.stripped.references.map Reference.bare = m.references.map Reference.bare :=
    List.map_map
  rw [bare, hcolumns, hreferences]
  rfl

theorem declarations_stripped (m : Model) :
    m.stripped.declarations = m.declarations.map Declaration.bare :=
  declarations_eq_map (fun _ => rfl) m.declaredColumns_stripped rfl

theorem filter_isMarkedBy_stripped (m : Model) (field : String) :
    m.stripped.columns.filter (·.isMarkedBy field) =
      (m.columns.filter (·.isMarkedBy field)).map Column.bare :=
  List.filter_map

theorem strayColumns_stripped (m : Model) :
    m.stripped.strayColumns = m.strayColumns.map Column.bare := by
  simp only [strayColumns, stripped, List.filter_map, List.any_map, Function.comp_def]
  rfl

theorem stripped_arrange (m : Model) : m.arrange.stripped = m.stripped.arrange := by
  have hcolumns : (m.declarations.flatMap m.columnsAt ++ m.strayColumns).map Column.bare =
      m.stripped.declarations.flatMap m.stripped.columnsAt ++ m.stripped.strayColumns := by
    rw [List.map_append, strayColumns_stripped, declarations_stripped, List.map_flatMap,
      List.flatMap_map]
    refine congrArg (· ++ m.strayColumns.map Column.bare) (List.flatMap_congr fun d _ => ?_)
    cases d with
    | column c => rfl
    | reference r => exact (m.filter_isMarkedBy_stripped r.field).symm
  exact congrArg (fun columns => { m.stripped with columns := columns }) hcolumns

@[simp] theorem stripped_setResolution (m : Model) (index : Nat)
    (resolution : Option Resolution) :
    (m.setResolution index resolution).stripped = m.stripped := by
  have hcolumns : (m.setResolution index resolution).columns.map Column.bare =
      m.columns.map Column.bare := by
    simp [setResolution, refreshForeignKeys, Function.comp_def, Column.bare]
  rw [stripped, hcolumns, map_references_setResolution fun _ _ => rfl]
  rfl

theorem stripped_removeSynthesized (m : Model) (field : String) :
    (m.removeSynthesized field).stripped = m.stripped.removeSynthesized field := by
  simp only [stripped, removeSynthesized, List.filter_map, Function.comp_def]
  rfl

theorem stripped_of_synthesize {synthesized : Model} {f : Reference} {separator : String}
    {key : PrimaryKey} (hs : m.synthesize f separator key = .ok synthesized) :
    synthesized.stripped = arrange
      { m.stripped with columns := m.stripped.columns ++ f.columnsFor separator key } := by
  obtain ⟨-, -, rfl⟩ := synthesize_eq_ok_iff.1 hs
  have hbrought : (f.columnsFor separator key).map Column.bare = f.columnsFor separator key :=
    List.map_map
  rw [stripped_arrange, map_joined_sourceColumns, stripped]
  dsimp only
  rw [List.map_append, hbrought]
  rfl

end Stripped

/-! ## 3. What is left of a declaration -/

/-- The model has come about from `left` by resolving references: to the columns of `left` each
reference has added those that it has brought, and all of them stand as they were added or, if an
implicit reference has been resolved, as they are arranged. -/
structure Retains (m left : Model) : Prop where
  bare_eq : m.bare = left.bare
  stripped_eq : left.stripped = left
  marked_eq : ∀ f ∈ m.references, m.stripped.columns.filter (·.isMarkedBy f.field) =
    left.columns.filter (·.isMarkedBy f.field) ++ f.broughtColumns
  stray_eq : m.stripped.strayColumns = left.strayColumns
  order : (∀ f ∈ m.references, f.isImplicit → f.resolution = none) ∧
      m.stripped.columns = left.columns ∨
    (∃ f ∈ m.references, f.isImplicit) ∧ m.stripped.arrange.columns = m.stripped.columns

theorem references_setResolution_eq_map {m : Model} (h : (m.references.map (·.field)).Nodup)
    {index : Nat} {f : Reference} (hf : m.references[index]? = some f)
    (resolution : Option Resolution) :
    (m.setResolution index resolution).references =
      m.references.map (Reference.resolveAt f.field resolution) :=
  Reference.modify_eq_map h hf resolution

namespace Retains

variable {m left : Model} {index : Nat} {f : Reference}

theorem references_eq (h : m.Retains left) : m.stripped.references = left.references := by
  have hreferences : m.references.map Reference.bare = left.references.map Reference.bare :=
    congrArg Model.references h.bare_eq
  have hleft : left.references.map Reference.bare = left.references :=
    congrArg Model.references h.stripped_eq
  exact hreferences.trans hleft

/-- A model that has only been handed in is what it was declared as. -/
theorem of_open (hopen : ∀ f ∈ m.references, f.resolution = none) : m.Retains m.stripped where
  bare_eq := m.bare_stripped.symm
  stripped_eq := by
    have hcolumns : m.stripped.columns.map Column.bare = m.stripped.columns := List.map_map
    have hreferences : m.stripped.references.map Reference.bare = m.stripped.references :=
      List.map_map
    rw [stripped, hcolumns, hreferences]
    rfl
  marked_eq f hf := by
    rw [Reference.broughtColumns_of_unresolved (hopen f hf), List.append_nil]
  stray_eq := rfl
  order := .inl ⟨fun f hf _ => hopen f hf, rfl⟩

/-- A reference that loses its resolution takes along the added columns with its mark. -/
theorem drop (h : m.Retains left) (hfields : (m.references.map (·.field)).Nodup)
    (hf : m.references[index]? = some f) :
    ((m.removeSynthesized f.field).setResolution index none).Retains
      (left.removeSynthesized f.field) := by
  have hreferences : ((m.removeSynthesized f.field).setResolution index none).references =
      m.references.map (Reference.resolveAt f.field none) :=
    references_setResolution_eq_map hfields hf none
  have hmem := List.mem_of_getElem? hf
  have hstripped : ((m.removeSynthesized f.field).setResolution index none).stripped =
      m.stripped.removeSynthesized f.field := by
    rw [stripped_setResolution, stripped_removeSynthesized]
  have hbare : f.bare ∈ m.stripped.references := List.mem_map_of_mem hmem
  refine ⟨?_, ?_, fun g hg => ?_, ?_, ?_⟩
  · rw [bare_setResolution, bare_removeSynthesized, bare_removeSynthesized]
    exact h.bare_eq
  · rw [stripped_removeSynthesized, h.stripped_eq]
  · rw [hreferences] at hg
    obtain ⟨r, hr, rfl⟩ := List.mem_map.1 hg
    rw [hstripped, filter_isMarkedBy_removeSynthesized, filter_isMarkedBy_removeSynthesized,
      Reference.field_resolveAt]
    by_cases hfield : r.field = f.field
    · rw [if_pos hfield, if_pos hfield, ← hfield, Reference.resolveAt_self,
        Reference.broughtColumns_of_unresolved rfl]
      rfl
    · rw [if_neg hfield, if_neg hfield, Reference.resolveAt_of_ne hfield, h.marked_eq r hr]
  · rw [hstripped]
    refine (strayColumns_removeSynthesized (f := f.bare) hbare).trans (h.stray_eq.trans ?_)
    exact (strayColumns_removeSynthesized (f := f.bare) (h.references_eq ▸ hbare)).symm
  · rw [hreferences, hstripped]
    rcases h.order with ⟨hopen, hcolumns⟩ | ⟨⟨r, hr, himplicit⟩, harranged⟩
    · refine .inl ⟨fun g hg himplicit => ?_, ?_⟩
      · obtain ⟨r, hr, rfl⟩ := List.mem_map.1 hg
        rw [Reference.isImplicit_resolveAt] at himplicit
        unfold Reference.resolveAt
        split
        · rfl
        · exact hopen r hr himplicit
      · exact congrArg (List.filter _) hcolumns
    · refine .inr ⟨⟨_, List.mem_map_of_mem hr, ?_⟩, ?_⟩
      · rwa [Reference.isImplicit_resolveAt]
      · rw [columns_arrange_removeSynthesized]
        exact congrArg (List.filter _) harranged

/-- An explicit reference is resolved and no column moves. -/
theorem setResolution_of_explicit (h : m.Retains left)
    (hfields : (m.references.map (·.field)).Nodup) (hf : m.references[index]? = some f)
    (hexplicit : f.isImplicit = false) (resolution : Option Resolution) :
    (m.setResolution index resolution).Retains left := by
  have hreferences := references_setResolution_eq_map hfields hf resolution
  -- the reference of the field is the explicit one, and any other one stays
  have hat : ∀ r ∈ m.references, r.resolveAt f.field resolution = r ∨ r.isImplicit = false := by
    intro r hr
    by_cases hfield : r.field = f.field
    · obtain rfl := List.inj_on_of_nodup_map hfields hr (List.mem_of_getElem? hf) hfield
      exact .inr hexplicit
    · exact .inl (Reference.resolveAt_of_ne hfield)
  refine ⟨?_, h.stripped_eq, fun g hg => ?_, ?_, ?_⟩
  · rw [bare_setResolution, h.bare_eq]
  · rw [hreferences] at hg
    obtain ⟨r, hr, rfl⟩ := List.mem_map.1 hg
    rw [stripped_setResolution, Reference.field_resolveAt, h.marked_eq r hr]
    rcases hat r hr with hsame | hown
    · rw [hsame]
    · have hafter : (r.resolveAt f.field resolution).isImplicit = false := by
        rwa [Reference.isImplicit_resolveAt]
      rw [Reference.broughtColumns_of_explicit hown, Reference.broughtColumns_of_explicit hafter]
  · rw [stripped_setResolution]
    exact h.stray_eq
  · rw [hreferences, stripped_setResolution]
    rcases h.order with ⟨hopen, hcolumns⟩ | ⟨⟨r, hr, himplicit⟩, harranged⟩
    · refine .inl ⟨fun g hg himplicit => ?_, hcolumns⟩
      obtain ⟨r, hr, rfl⟩ := List.mem_map.1 hg
      rw [Reference.isImplicit_resolveAt] at himplicit
      rcases hat r hr with hsame | hown
      · rw [hsame]
        exact hopen r hr himplicit
      · rw [hown] at himplicit
        cases himplicit
    · refine .inr ⟨⟨_, List.mem_map_of_mem hr, ?_⟩, harranged⟩
      rwa [Reference.isImplicit_resolveAt]

/-- An implicit reference is resolved and brings its columns, which stand behind the added columns
with its mark. -/
theorem setResolution_of_synthesize {synthesized : Model} {separator : String} {key : PrimaryKey}
    (h : m.Retains left) (hfields : (m.references.map (·.field)).Nodup)
    (hf : m.references[index]? = some f) (hopen : f.resolution = none) (himplicit : f.isImplicit)
    (hs : m.synthesize f separator key = .ok synthesized) (target : ModelId) :
    (synthesized.setResolution index
      (some ⟨target, key, f.sourcePairs separator key⟩)).Retains left := by
  have hmem : f.bare ∈ m.stripped.references := List.mem_map_of_mem (List.mem_of_getElem? hf)
  have hown : ∀ c ∈ f.columnsFor separator key, c.synthesizedBy = some f.bare.field :=
    fun c hc => synthesizedBy_of_mem_columnsFor hc
  have hstrippedFields : (m.stripped.references.map (·.field)).Nodup := by
    have hsame : m.stripped.references.map (·.field) = m.references.map (·.field) := List.map_map
    rwa [hsame]
  have hsame := references_of_synthesize hs
  have hreferences : (synthesized.setResolution index
      (some ⟨target, key, f.sourcePairs separator key⟩)).references =
      m.references.map (Reference.resolveAt f.field
        (some ⟨target, key, f.sourcePairs separator key⟩)) := by
    rw [← hsame] at hfields hf ⊢
    exact references_setResolution_eq_map hfields hf _
  refine ⟨?_, h.stripped_eq, fun g hg => ?_, ?_, ?_⟩
  · rw [bare_setResolution, bare_of_synthesize hs, h.bare_eq]
  · rw [hreferences] at hg
    obtain ⟨r, hr, rfl⟩ := List.mem_map.1 hg
    have hbare : r.bare ∈ m.stripped.references := List.mem_map_of_mem hr
    have hadded := filter_isMarkedBy_arrange_append hstrippedFields hown hbare
    rw [stripped_setResolution, stripped_of_synthesize hs, Reference.field_resolveAt]
    refine hadded.trans ?_
    rw [show r.bare.field = r.field from rfl, show f.bare.field = f.field from rfl,
      h.marked_eq r hr, List.append_assoc]
    refine congrArg (left.columns.filter (·.isMarkedBy r.field) ++ ·) ?_
    by_cases hfield : f.field = r.field
    · obtain rfl := List.inj_on_of_nodup_map hfields hr (List.mem_of_getElem? hf) hfield.symm
      rw [if_pos rfl, Reference.broughtColumns_of_unresolved hopen,
        Reference.broughtColumns_resolveAt_self himplicit]
      rfl
    · rw [if_neg hfield, Reference.resolveAt_of_ne (Ne.symm hfield), List.append_nil]
  · rw [stripped_setResolution, stripped_of_synthesize hs, strayColumns_arrange_append hown hmem,
      h.stray_eq]
  · refine .inr ⟨?_, ?_⟩
    · rw [hreferences]
      refine ⟨_, List.mem_map_of_mem (List.mem_of_getElem? hf), ?_⟩
      rwa [Reference.isImplicit_resolveAt]
    · rw [stripped_setResolution, stripped_of_synthesize hs]
      exact columns_arrange_arrange hstrippedFields

/-! ## 4. Which columns are left, and in which order -/

/-- What has been added without a mark stays, in its order. -/
theorem declaredColumns_eq (h : m.Retains left) :
    m.declaredColumns.map Column.bare = left.declaredColumns := by
  have hcolumns : m.declaredColumns.map Column.bare = left.declaredColumns.map Column.bare :=
    congrArg Model.columns h.bare_eq
  rw [hcolumns, ← declaredColumns_stripped, h.stripped_eq]

end Retains

/-- A column is declared, marked by a reference, or astray. -/
theorem mem_columns_iff_of_mark {m : Model} {c : Column} :
    c ∈ m.columns ↔ c ∈ m.declaredColumns ∨
      (∃ f ∈ m.references, c ∈ m.columns.filter (·.isMarkedBy f.field)) ∨ c ∈ m.strayColumns := by
  constructor
  · intro hc
    by_cases hmark : ∃ f ∈ m.references, c.isMarkedBy f.field
    · obtain ⟨f, hf, hmark⟩ := hmark
      exact .inr (.inl ⟨f, hf, List.mem_filter.2 ⟨hc, hmark⟩⟩)
    · have hnone : (m.references.any fun r => c.isMarkedBy r.field) = false :=
        List.any_eq_false.2 fun r hr hmark' => hmark ⟨r, hr, hmark'⟩
      cases hsynthesized : c.isSynthesized with
      | false => exact .inl (List.mem_filter.2 ⟨hc, by rw [hsynthesized]; rfl⟩)
      | true => exact .inr (.inr (List.mem_filter.2 ⟨hc, by rw [hsynthesized, hnone]; rfl⟩))
  · rintro (hc | ⟨f, -, hc⟩ | hc)
    · exact (List.mem_filter.1 hc).1
    · exact (List.mem_filter.1 hc).1
    · exact (List.mem_filter.1 hc).1

namespace Retains

variable {m left : Model}

/-- The columns are those that are left and those that the references have brought. -/
theorem mem_columns_iff (h : m.Retains left) {c : Column} :
    c ∈ m.stripped.columns ↔ c ∈ left.columns ∨ ∃ f ∈ m.references, c ∈ f.broughtColumns := by
  have hdeclared : m.stripped.declaredColumns = left.declaredColumns := by
    rw [declaredColumns_stripped, h.declaredColumns_eq]
  have hmarked : (∃ f ∈ m.stripped.references, c ∈ m.stripped.columns.filter (·.isMarkedBy f.field))
      ↔ (∃ f ∈ left.references, c ∈ left.columns.filter (·.isMarkedBy f.field)) ∨
        ∃ f ∈ m.references, c ∈ f.broughtColumns := by
    rw [← h.references_eq]
    have hat : ∀ f ∈ m.references, c ∈ m.stripped.columns.filter (·.isMarkedBy f.bare.field) ↔
        c ∈ left.columns.filter (·.isMarkedBy f.bare.field) ∨ c ∈ f.broughtColumns := by
      intro f hf
      rw [← List.mem_append]
      exact (congrArg (c ∈ ·) (h.marked_eq f hf)).to_iff
    constructor
    · rintro ⟨r, hr, hc⟩
      obtain ⟨f, hf, rfl⟩ := List.mem_map.1 hr
      rcases (hat f hf).1 hc with hc | hc
      · exact .inl ⟨f.bare, hr, hc⟩
      · exact .inr ⟨f, hf, hc⟩
    · rintro (⟨r, hr, hc⟩ | ⟨f, hf, hc⟩)
      · obtain ⟨f, hf, rfl⟩ := List.mem_map.1 hr
        exact ⟨f.bare, hr, (hat f hf).2 (.inl hc)⟩
      · exact ⟨f.bare, List.mem_map_of_mem hf, (hat f hf).2 (.inr hc)⟩
  rw [mem_columns_iff_of_mark, hmarked, hdeclared, h.stray_eq,
    mem_columns_iff_of_mark (m := left), or_assoc, or_assoc, or_assoc]
  exact or_congr_right (or_congr_right or_comm)

theorem declarations_eq (h : m.Retains left) : m.stripped.declarations = left.declarations := by
  rw [declarations, declarations, declaredColumns_stripped, h.declaredColumns_eq, h.references_eq]

/-- Once arranged, what is left stands as it is arranged by itself. -/
theorem arrange_sublist (h : m.Retains left) :
    left.arrange.columns.Sublist m.stripped.arrange.columns := by
  show (left.declarations.flatMap left.columnsAt ++ left.strayColumns).Sublist
    (m.stripped.declarations.flatMap m.stripped.columnsAt ++ m.stripped.strayColumns)
  rw [h.declarations_eq, h.stray_eq]
  refine (List.Sublist.flatMap_right _ fun d hd => ?_).append_right _
  cases d with
  | column c => exact .refl _
  | reference r =>
    have hr := reference_mem_declarations.1 hd
    rw [← h.references_eq] at hr
    obtain ⟨f, hf, rfl⟩ := List.mem_map.1 hr
    have hmarked : m.stripped.columnsAt (.reference f.bare) =
        left.columnsAt (.reference f.bare) ++ f.broughtColumns := h.marked_eq f hf
    rw [hmarked]
    exact List.sublist_append_left _ _

/-- The columns that are left stand in the order in which they were added, unless there is an
implicit reference and arranging would move them. -/
theorem sublist_iff (h : m.Retains left) (hnames : m.names.Nodup)
    (hresolved : ∀ f ∈ m.references, f.isResolved) :
    left.columns.Sublist m.stripped.columns ↔
      ((∃ f ∈ m.references, f.isImplicit) → left.arrange.columns = left.columns) := by
  rcases h.order with ⟨hopen, hcolumns⟩ | ⟨himplicit, harranged⟩
  · -- no implicit reference can have been resolved, so that there is none
    have hnone : ¬∃ f ∈ m.references, f.isImplicit := by
      rintro ⟨f, hf, himplicit⟩
      have hres := hresolved f hf
      rw [Reference.isResolved, hopen f hf himplicit] at hres
      cases hres
    exact ⟨fun _ himplicit => absurd himplicit hnone, fun _ => hcolumns ▸ .refl _⟩
  · have hsub := harranged ▸ h.arrange_sublist
    refine ⟨fun hleft _ => ?_, fun hsame => hsame himplicit ▸ hsub⟩
    have hfields : (left.references.map (·.field)).Nodup := by
      have hsame : left.references.map (·.field) = m.references.map (·.field) := by
        rw [← h.references_eq]
        exact List.map_map
      rw [hsame]
      exact (List.nodup_append.1 hnames).2.1
    have hcolumns : m.stripped.columns.Nodup := by
      have hmap : m.stripped.columns.map (·.name) = m.columns.map (·.name) := List.map_map
      exact List.Nodup.of_map (·.name) (hmap ▸ (List.nodup_append.1 hnames).1)
    exact (hcolumns.perm_iff_eq_of_sublist hsub hleft).1 (arrange_columns_perm hfields)

end Retains

/-- The model keeps what was added to the declared one, except for columns with a lost mark. -/
def KeepsAllBut (m : Model) (lost : String → Prop) (declared : Model) : Prop :=
  ∃ kept, m.Retains { declared with columns := kept } ∧ kept.Sublist declared.columns ∧
    ∀ c ∈ declared.columns, c ∈ kept ↔ ∀ field, c.isMarkedBy field → ¬lost field

namespace KeepsAllBut

variable {m declared : Model} {lost : String → Prop} {index : Nat} {f : Reference}

theorem congr (h : m.KeepsAllBut lost declared) {others : String → Prop}
    (hiff : ∀ field, others field ↔ lost field) : m.KeepsAllBut others declared := by
  have hsame : others = lost := funext fun field => propext (hiff field)
  rwa [hsame]

theorem drop (h : m.KeepsAllBut lost declared) (hfields : (m.references.map (·.field)).Nodup)
    (hf : m.references[index]? = some f) :
    ((m.removeSynthesized f.field).setResolution index none).KeepsAllBut
      (fun field => lost field ∨ field = f.field) declared := by
  obtain ⟨kept, hretains, hsub, hkept⟩ := h
  refine ⟨_, hretains.drop hfields hf, List.filter_sublist.trans hsub, fun c hc => ?_⟩
  rw [List.mem_filter, hkept c hc, Bool.not_eq_true']
  constructor
  · rintro ⟨hall, hmark⟩ field hfield (hlost | rfl)
    · exact hall field hfield hlost
    · rw [hmark] at hfield
      cases hfield
  · intro hall
    refine ⟨fun field hfield hlost => hall field hfield (.inl hlost), ?_⟩
    cases hmark : c.isMarkedBy f.field
    · rfl
    · exact absurd (.inr rfl) (hall f.field hmark)

end KeepsAllBut

end Model

end RelSchema
