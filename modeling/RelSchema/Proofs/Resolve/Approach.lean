import RelSchema.Proofs.Resolve.Confluence

/-!
# On the way to an outcome

Once some order of registration is known to resolve, the outcome is known for every other order, and
a run in that order can only come closer to it.  What it attempts succeeds, unless a declared pair
starts at a column that the outcome has and the run has not yet brought.
-/

namespace RelSchema

namespace Registry

/-- The registry has the declarations of the outcome, in any order, and what it has resolved is
settled. -/
structure Approaches (separator : String) (outcome r : Registry) : Prop where
  coherent : r.Coherent
  usesSeparator : r.UsesSeparator separator
  perm : (r.models.map Model.bare).Perm (outcome.models.map Model.bare)

namespace Approaches

variable {separator : String} {outcome r : Registry} {m n t : Model} {f : Reference}

/-! ## 1. Counterparts -/

theorem exists_in_outcome (h : Approaches separator outcome r) (hm : m ∈ r.models) :
    ∃ n ∈ outcome.models, m.bare = n.bare := by
  obtain ⟨n, hn, hbare⟩ := List.mem_map.1 (h.perm.mem_iff.1 (List.mem_map_of_mem hm))
  exact ⟨n, hn, hbare.symm⟩

theorem exists_of_outcome (h : Approaches separator outcome r) (hn : n ∈ outcome.models) :
    ∃ m ∈ r.models, m.bare = n.bare :=
  List.mem_map.1 (h.perm.mem_iff.2 (List.mem_map_of_mem hn))

/-- Every reference of the registry is resolved in the outcome, and its target is there. -/
theorem exists_settled (houtcome : outcome.Complete separator) (hn : n ∈ outcome.models)
    (hbare : m.bare = n.bare) (hf : f ∈ m.references) :
    ∃ g ∈ n.references, f.bare = g.bare ∧ ∃ resolution, g.SettledIn outcome n resolution ∧
      ∃ u ∈ outcome.models, u.name = f.target ∧ u.keyShape = resolution.key := by
  obtain ⟨g, hg, hfg⟩ := Model.exists_reference_of_bare_eq hbare hf
  obtain ⟨resolution, hres⟩ := Reference.isResolved_iff.1 (houtcome.isResolved n hn g hg)
  have hsettled := houtcome.coherent.settled n hn g hg resolution hres
  obtain ⟨u, hu, hname, -, hkey⟩ :=
    hsettled.exists_named_target houtcome.coherent.sound hn hg
  refine ⟨g, hg, hfg.symm, resolution, hsettled, u, mem_of_get? hu, ?_, hkey⟩
  rw [hname, Reference.congr_of_bare_eq hfg (·.target)]

theorem exists_target (h : Approaches separator outcome r) (houtcome : outcome.Complete separator)
    (hm : m ∈ r.models) (hf : f ∈ m.references) : ∃ t ∈ r.models, t.name = f.target := by
  obtain ⟨n, hn, hbare⟩ := h.exists_in_outcome hm
  obtain ⟨-, -, -, -, -, u, hu, huname, -⟩ := exists_settled houtcome hn hbare hf
  obtain ⟨t, ht, htu⟩ := h.exists_of_outcome hu
  exact ⟨t, ht, (Model.name_eq_of_bare_eq htu).trans huname⟩

theorem alikeOn (h : Approaches separator outcome r) (houtcome : outcome.Complete separator) :
    AlikeOn {name | ∃ n ∈ outcome.models, n.name = name} r outcome := by
  refine ⟨?_, ?_⟩
  · rintro name ⟨n, hn, rfl⟩
    obtain ⟨m, hm, hbare⟩ := h.exists_of_outcome hn
    exact ⟨m, hm, n, hn, Model.name_eq_of_bare_eq hbare, hbare⟩
  · rintro m hm - f hf
    obtain ⟨n, hn, hbare⟩ := h.exists_in_outcome hm
    obtain ⟨-, -, -, -, -, u, hu, huname, -⟩ := exists_settled houtcome hn hbare hf
    exact ⟨u, hu, huname⟩

/-- Every model is on its way to its counterpart. -/
theorem growsTo (h : Approaches separator outcome r) (houtcome : outcome.Complete separator)
    (hm : m ∈ r.models) (hn : n ∈ outcome.models) (hbare : m.bare = n.bare) : m.GrowsTo n := by
  refine ⟨hbare, fun f hf g hg hfield hres => ?_⟩
  have hlaid := houtcome.coherent.sound.laid n hn
  exact (h.alikeOn houtcome).shape_eq h.coherent houtcome.coherent h.usesSeparator
    houtcome.usesSeparator ⟨n, hn, (Model.name_eq_of_bare_eq hbare).symm⟩ hm hn hf hg
    (Model.bare_eq_of_field_eq hbare hlaid hf hg hfield) hres (houtcome.isResolved n hn g hg)

theorem keyShape_eq (h : Approaches separator outcome r) (houtcome : outcome.Complete separator)
    (hm : m ∈ r.models) (hn : n ∈ outcome.models) (hbare : m.bare = n.bare)
    (hfinal : m.isKeyFinal) : m.keyShape = n.keyShape :=
  (h.growsTo houtcome hm hn hbare).keyShape_eq (h.coherent.sound.laid m hm)
    (houtcome.coherent.sound.laid n hn) (Model.awaitsKeyColumns_eq_false_of_isKeyFinal hfinal)

/-! ## 2. Columns that are there already -/

/-- A column of the outcome is missing exactly as long as the reference that brings it is open. -/
theorem column?_eq_none_iff (h : Approaches separator outcome r)
    (houtcome : outcome.Complete separator) (hm : m ∈ r.models) (hn : n ∈ outcome.models)
    (hbare : m.bare = n.bare) {c : Column} (hc : c ∈ n.columns) :
    m.column? c.name = none ↔
      ∃ g ∈ m.references, g.resolution = none ∧ c.isMarkedBy g.field := by
  have hmLaid := h.coherent.sound.laid m hm
  have hnLaid := houtcome.coherent.sound.laid n hn
  have hgrow := h.growsTo houtcome hm hn hbare
  rw [Model.column?_eq_none_iff]
  constructor
  · intro hmissing
    rcases hnLaid.mem_columns_iff.1 hc with hdeclared | ⟨g, hg, hbrought⟩
    · obtain ⟨d, hd, hdc⟩ := Model.exists_declaredColumn_of_bare_eq hbare.symm hdeclared
      exact absurd (Column.congr_of_bare_eq hdc (·.name))
        (hmissing d (hmLaid.mem_columns_iff.2 (.inl hd)))
    · obtain ⟨f, hf, hfg⟩ := Model.exists_reference_of_bare_eq hbare.symm hg
      have hfield : f.field = g.field := Reference.congr_of_bare_eq hfg (·.field)
      refine ⟨f, hf, ?_, ?_⟩
      · -- if it were resolved, it would have brought the column here too
        rw [← Reference.isResolved_eq_false_iff, ← Bool.not_eq_true]
        intro hres
        have hshape := hgrow.shape_eq f hf g hg hfield hres
        rw [← Reference.broughtColumns_congr hfg hshape] at hbrought
        exact hmissing c (hmLaid.mem_columns_iff.2 (.inr ⟨f, hf, hbrought⟩)) rfl
      · rw [hfield]
        exact Reference.isMarkedBy_of_mem_broughtColumns hbrought
  · rintro ⟨g, hg, hopen, hmark⟩ d hd hname
    -- a column of the name would be the column itself, which only the open reference brings
    obtain ⟨d', hd', hbared⟩ := hgrow.exists_column hmLaid hnLaid hd
    have hsame : d' = c := hnLaid.column_inj hd' hc
      ((Column.congr_of_bare_eq hbared (·.name)).trans hname)
    have hdmark : d.isMarkedBy g.field := by
      rw [← Column.congr_of_bare_eq hbared (·.isMarkedBy g.field), hsame]
      exact hmark
    have hmem : d ∈ m.columns.filter (·.isMarkedBy g.field) := List.mem_filter.2 ⟨hd, hdmark⟩
    rw [hmLaid.filter_isMarkedBy hg, Reference.broughtColumns_of_unresolved hopen] at hmem
    exact List.not_mem_nil hmem

/-- The name of a column that an open reference is to bring is free. -/
theorem not_mem_names (h : Approaches separator outcome r) (houtcome : outcome.Complete separator)
    (hm : m ∈ r.models) (hn : n ∈ outcome.models) (hbare : m.bare = n.bare)
    (hf : f ∈ m.references) (hopen : f.resolution = none) {g : Reference} (hg : g ∈ n.references)
    (hfg : f.bare = g.bare) {c : Column} (hc : c ∈ g.broughtColumns) : c.name ∉ m.names := by
  have hnLaid := houtcome.coherent.sound.laid n hn
  have hcmem : c ∈ n.columns := hnLaid.mem_columns_iff.2 (.inr ⟨g, hg, hc⟩)
  intro hmem
  rcases List.mem_append.1 hmem with hcolumn | hfield
  · have hmark : c.isMarkedBy f.field := by
      rw [Reference.congr_of_bare_eq hfg (·.field)]
      exact Reference.isMarkedBy_of_mem_broughtColumns hc
    have hmissing : m.column? c.name = none :=
      (h.column?_eq_none_iff houtcome hm hn hbare hcmem).2 ⟨f, hf, hopen, hmark⟩
    obtain ⟨d, hd, hdname⟩ := List.mem_map.1 hcolumn
    exact Model.column?_eq_none_iff.1 hmissing d hd hdname
  · -- a field of this model is a field of the outcome, where it differs from all column names
    obtain ⟨e, he, hename⟩ := List.mem_map.1 hfield
    obtain ⟨e', he', hee'⟩ := Model.exists_reference_of_bare_eq hbare he
    have hfieldEq : e'.field = e.field := Reference.congr_of_bare_eq hee' (·.field)
    exact hnLaid.name_ne_field hcmem he' (hename.symm.trans hfieldEq.symm)

/-- A pair that fits in the outcome fits here as well, once its source is there. -/
theorem missing_or_fits (h : Approaches separator outcome r) (houtcome : outcome.Complete separator)
    (hm : m ∈ r.models) (hn : n ∈ outcome.models) (hbare : m.bare = n.bare) {g : Reference}
    (hfg : f.bare = g.bare) {key : PrimaryKey} {p : Pair} (hfits : p.Fits n g key) :
    m.column? p.source = none ∨ p.Fits m f key := by
  have hmLaid := h.coherent.sound.laid m hm
  have hnLaid := houtcome.coherent.sound.laid n hn
  obtain ⟨c, hc, k, hk, hcname, hkname, htype, hnullable, hcprimary⟩ := hfits
  cases hfind : m.column? p.source with
  | none => exact .inl rfl
  | some d =>
    -- the column found here is the one that the outcome pairs, up to its flag
    obtain ⟨hd, hdname⟩ := (Model.column?_eq_some_iff hmLaid.nodup_columnNames).1 hfind
    obtain ⟨d', hd', hbared⟩ := (h.growsTo houtcome hm hn hbare).exists_column hmLaid hnLaid hd
    have hsame : d' = c := hnLaid.column_inj hd' hc
      ((Column.congr_of_bare_eq hbared (·.name)).trans (hdname.trans hcname.symm))
    have hprimary : f.primaryKey = g.primaryKey := Reference.congr_of_bare_eq hfg (·.primaryKey)
    rw [← hsame] at htype hnullable hcprimary
    rw [Column.congr_of_bare_eq hbared (·.type)] at htype
    rw [Column.congr_of_bare_eq hbared (·.nullable)] at hnullable
    rw [Column.congr_of_bare_eq hbared (·.primaryKey), ← hprimary] at hcprimary
    exact .inr ⟨d, hd, k, hk, hdname, hkname, htype, hnullable, hcprimary⟩

/-! ## 3. Attempts -/

/-- The outcome has settled every reference against the key that its target has here, if that key is
final. -/
theorem exists_settled_of_isKeyFinal (h : Approaches separator outcome r)
    (houtcome : outcome.Complete separator) (hn : n ∈ outcome.models) (hbare : m.bare = n.bare)
    (hf : f ∈ m.references) (ht : t ∈ r.models) (htname : t.name = f.target)
    (hfinal : t.isKeyFinal) :
    ∃ g ∈ n.references, f.bare = g.bare ∧
      ∃ resolution, g.SettledIn outcome n resolution ∧ t.keyShape = resolution.key := by
  obtain ⟨g, hg, hfg, resolution, hsettled, u, hu, huname, hkey⟩ :=
    exists_settled houtcome hn hbare hf
  obtain ⟨t', ht', htu⟩ := h.exists_of_outcome hu
  obtain rfl := h.coherent.sound.model_inj ht' ht
    ((Model.name_eq_of_bare_eq htu).trans (huname.trans htname.symm))
  exact ⟨g, hg, hfg, resolution, hsettled, (h.keyShape_eq houtcome ht' hu htu hfinal).trans hkey⟩

/-- The columns of an implicit reference can be added when its turn comes. -/
theorem synthesize (h : Approaches separator outcome r) (houtcome : outcome.Complete separator)
    (hm : m ∈ r.models) (hf : f ∈ m.references) (hopen : f.resolution = none)
    (himplicit : f.isImplicit) (ht : t ∈ r.models) (htname : t.name = f.target)
    (hfinal : t.isKeyFinal) : ∃ settled, m.synthesize f separator t.keyShape = .ok settled := by
  obtain ⟨n, hn, hbare⟩ := h.exists_in_outcome hm
  obtain ⟨g, hg, hfg, resolution, hsettled, hkey⟩ :=
    h.exists_settled_of_isKeyFinal houtcome hn hbare hf ht htname hfinal
  have hnLaid := houtcome.coherent.sound.laid n hn
  have hres := hsettled.resolution_eq
  have hgimplicit : g.isImplicit := by
    rw [← Reference.congr_of_bare_eq hfg (·.isImplicit)]
    exact himplicit
  -- the columns to be added are the ones that the outcome has
  have hcolumns : f.columnsFor separator t.keyShape = g.broughtColumns := by
    rw [Reference.broughtColumns_of_implicit hgimplicit hres
      (houtcome.usesSeparator n hn g hg resolution hres hgimplicit), hkey]
    exact Reference.congr_of_bare_eq hfg (·.columnsFor separator resolution.key)
  have hnames : t.keyShape.map (f.sourceName separator) = g.broughtColumns.map (·.name) := by
    rw [← hcolumns, Reference.columnsFor, List.map_map]
    rfl
  have hnodup : (t.keyShape.map (f.sourceName separator)).Nodup := by
    rw [hnames, ← hnLaid.filter_isMarkedBy hg]
    exact hnLaid.nodup_columnNames.sublist (List.filter_sublist.map _)
  have hfree : ∀ k ∈ t.keyShape, f.sourceName separator k ∉ m.names := by
    intro k hk
    have hsource : f.sourceName separator k ∈ g.broughtColumns.map (·.name) := by
      rw [← hnames]
      exact List.mem_map_of_mem hk
    obtain ⟨c, hc, hcname⟩ := List.mem_map.1 hsource
    rw [← hcname]
    exact h.not_mem_names houtcome hm hn hbare hf hopen hg hfg hc
  exact ⟨_, Model.synthesize_eq_ok_iff.2 ⟨hnodup, hfree, rfl⟩⟩

/-- The declared pairs of an explicit reference pass, unless a source of theirs is still missing. -/
theorem checkPairs (h : Approaches separator outcome r) (houtcome : outcome.Complete separator)
    (hm : m ∈ r.models) (hf : f ∈ m.references) (hexplicit : f.isImplicit = false)
    (ht : t ∈ r.models) (htname : t.name = f.target) (hfinal : t.isKeyFinal) :
    ((∀ p ∈ f.declaredPairs, m.column? p.source ≠ none) ∧
      ∃ pairs, f.checkPairs m t t.keyShape = .ok pairs) ∨
    ∃ p ∈ f.declaredPairs, m.column? p.source = none ∧ f.checkPairs m t t.keyShape =
      .error (.invalidPair m.name f.field (.sourceMissing p.source m.name)) := by
  obtain ⟨n, hn, hbare⟩ := h.exists_in_outcome hm
  obtain ⟨g, hg, hfg, resolution, hsettled, hkey⟩ :=
    h.exists_settled_of_isKeyFinal houtcome hn hbare hf ht htname hfinal
  have hgexplicit : g.isImplicit = false := by
    rw [← Reference.congr_of_bare_eq hfg (·.isImplicit)]
    exact hexplicit
  have hpairs : f.declaredPairs = g.declaredPairs :=
    Reference.congr_of_bare_eq hfg (·.declaredPairs)
  obtain ⟨hmatches, -⟩ := hsettled.matches_key hgexplicit
  rw [← hkey] at hmatches
  have hfits : ∀ p ∈ f.declaredPairs, m.column? p.source = none ∨ p.Fits m f t.keyShape :=
    fun p hp => h.missing_or_fits houtcome hm hn hbare hfg (hmatches.fits p (hpairs ▸ hp))
  have hcolumnNames := (h.coherent.sound.laid m hm).nodup_columnNames
  have hkeyNames := (h.coherent.sound.laid t ht).nodup_names_keyShape
  have hpresent : ∀ k ∈ t.keyShape, (t.column? k.name).isSome :=
    fun k hk => Model.exists_column?_of_mem_keyShape hk
  -- every pair fits or lacks its source, which is all that the check can then complain about
  have hcheck := Reference.checkPairs_eq_ok_or hcolumnNames hkeyNames hpresent hfits
    (hpairs ▸ hmatches.nodup_sources) (hpairs ▸ hmatches.targets_perm)
  rcases hcheck with hok | ⟨p, hp, hmissing, herror⟩
  · left
    refine ⟨?_, _, hok⟩
    intro p hp hmissing
    have hmatched := ((Reference.checkPairs_eq_ok_iff hcolumnNames hkeyNames hpresent).1 hok).1
    obtain ⟨c, hc, -, -, hcname, -⟩ := hmatched.fits p hp
    exact Model.column?_eq_none_iff.1 hmissing c hc hcname
  · right
    exact ⟨p, hp, hmissing, herror⟩

/-- Settling an open reference goes through, unless a source of its pairs is still missing. -/
theorem settle (h : Approaches separator outcome r) (houtcome : outcome.Complete separator)
    (hm : m ∈ r.models) (hf : f ∈ m.references) (hopen : f.resolution = none)
    (ht : t ∈ r.models) (htname : t.name = f.target) (hfinal : t.isKeyFinal) :
    ((∀ p ∈ f.declaredPairs, m.column? p.source ≠ none) ∧
      ∃ settled pairs, f.settle m t separator t.keyShape = .ok (settled, pairs)) ∨
    ∃ p ∈ f.declaredPairs, m.column? p.source = none ∧ f.settle m t separator t.keyShape =
      .error (.invalidPair m.name f.field (.sourceMissing p.source m.name)) := by
  cases himplicit : f.isImplicit with
  | true =>
    obtain ⟨settled, hsettled⟩ := h.synthesize houtcome hm hf hopen himplicit ht htname hfinal
    have hnil : f.declaredPairs = [] := List.isEmpty_iff.1 himplicit
    left
    refine ⟨by simp [hnil], settled, f.sourcePairs separator t.keyShape, ?_⟩
    exact (Reference.settle_eq_ok_iff_of_implicit himplicit).2 ⟨hsettled, rfl⟩
  | false =>
    rcases h.checkPairs houtcome hm hf himplicit ht htname hfinal with
      ⟨hsources, pairs, hok⟩ | ⟨p, hp, hmissing, herror⟩
    · left
      refine ⟨hsources, m, pairs, ?_⟩
      exact (Reference.settle_eq_ok_iff_of_explicit himplicit).2 ⟨hok, rfl⟩
    · right
      refine ⟨p, hp, hmissing, ?_⟩
      rw [Reference.settle, if_neg (by simp [himplicit]), herror]
      rfl

end Approaches

end Registry

end RelSchema
