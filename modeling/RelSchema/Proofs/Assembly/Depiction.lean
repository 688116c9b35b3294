import RelSchema.Proofs.Assembly.Constraints
import RelSchema.Proofs.Assembly.Failures
import RelSchema.Proofs.Resolve.LocalColumns

/-!
# Schemas depict registries

A schema that assembly returns shows its registry table by table, column by column and reference by
reference, and no id in it leads out of it.  This needs no verification, and it holds after
replacements too: what assembly looks up by name is unique, and a reference that is not stale leads
to the whole key of its target.
-/

namespace RelSchema

namespace Storage

/-! ## 1. What a schema shows -/

/-- The table is named as the options and the model say, and has the model's columns, numbered by
their positions.  The flagged ones are its key. -/
structure Table.Depicts (o : BuildOptions) (id : TableId) (m : Model) (t : Table) : Prop where
  id_eq : t.id = id
  model_eq : t.model = m.name
  name_eq : t.name = o.tablePrefix.getD "" ++ m.tableName.getD m.name
  columns_eq : t.columns = m.columns.mapIdx fun index c =>
    ⟨⟨id, index⟩, c.name, .ofColumnType c.type, c.nullable, c.primaryKey, c.foreignKey⟩
  nodup_names : (t.columns.map (·.name)).Nodup
  primaryKey_eq : t.primaryKey = (t.columns.filter (·.primaryKey)).map (·.id)
  primaryKey_ne_nil : t.primaryKey ≠ []

/-- The ids lead to the columns that the pair names, from the one table to the key of the other. -/
structure ColumnPair.Depicts (s : Schema) (t target : Table) (p : Pair) (pair : ColumnPair) :
    Prop where
  source_table : pair.source.table = t.id
  source_column : ∃ c ∈ t.columns, s.column pair.source = .ok c ∧ c.id = pair.source ∧
    c.name = p.source
  target_table : pair.target.table = target.id
  target_column : ∃ c ∈ target.columns, s.column pair.target = .ok c ∧ c.id = pair.target ∧
    c.name = p.target ∧ c.primaryKey

/-- The constraint is what the reference declares, and its pairs are those of the reference.  They
lead to the whole key of the table of the model that the reference names, in the order of the
key. -/
structure Constraint.Depicts (r : Registry) (s : Schema) (t : Table) (f : Reference)
    (c : Constraint) : Prop where
  field_eq : c.field = f.field
  onDelete_eq : c.onDelete = f.onDelete
  onUpdate_eq : c.onUpdate = f.onUpdate
  deferred_eq : c.deferred = f.deferred
  target_eq : r.idOf f.target = some c.target
  exists_target : ∃ target, s.table c.target = .ok target ∧ target.model = f.target ∧
    c.pairs.map (·.target) = target.primaryKey ∧
    List.Forall₂ (ColumnPair.Depicts s t target) f.pairs c.pairs

/-- The tables are those of the models, in order and under different names, and every column is
found by its id. -/
structure Schema.Depicts (o : BuildOptions) (r : Registry) (s : Schema) : Prop where
  length_eq : s.tables.length = r.size
  nodup_names : (s.tables.map (·.name)).Nodup
  exists_table : ∀ id m, r.get? id = some m → ∃ t, s.table id = .ok t ∧ t.Depicts o id m ∧
    (∀ c ∈ t.columns, s.column c.id = .ok c) ∧
    List.Forall₂ (fun f c => c.Depicts r s t f) m.references t.constraints

end Storage

namespace Registry

open Storage (Table TableId Constraint ColumnPair Schema)

variable {o : BuildOptions} {r : Registry} {s : Schema} {m t : Model} {f : Reference} {id : TableId}

/-! ## 2. References that are not stale -/

/-- The pairs of a resolved reference lead to the recorded key, in the order of the key. -/
theorem Checked.map_target_pairs (hchecked : r.Checked) (hr : r.Sound) (hm : m ∈ r.models)
    (hf : f ∈ m.references) {resolution : Resolution} (hres : f.resolution = some resolution) :
    resolution.pairs.map (·.target) = resolution.key.names := by
  cases himplicit : f.isImplicit with
  | true =>
    obtain ⟨separator, hpairs⟩ := (hr.laid m hm).pairs_eq f hf resolution hres himplicit
    rw [hpairs, Reference.sourcePairs, List.map_map]
    rfl
  | false =>
    -- the declared pairs matched the key when it was recorded
    obtain ⟨hpairs, past, -, -, hmatches⟩ := hchecked m hm f hf resolution hres himplicit
    rw [hpairs]
    exact hmatches.map_target_filterMap

theorem unsettled_eq_nil_iff :
    r.unsettled = [] ↔ ∀ m ∈ r.models, ∀ f ∈ m.references, f.isResolved ∧ r.isStale f = false := by
  simp only [unsettled, List.flatMap_eq_nil_iff, List.map_eq_nil_iff, List.filter_eq_nil_iff,
    Bool.or_eq_true, Bool.not_eq_true', not_or, Bool.not_eq_true, Bool.not_eq_false]

/-- A reference that is resolved and not stale records the key that the model it names has. -/
theorem Sound.exists_target_key (hr : r.Sound) (hm : m ∈ r.models) (hf : f ∈ m.references)
    (hres : f.isResolved) (hstale : r.isStale f = false) :
    ∃ resolution t, f.resolution = some resolution ∧ r.idOf f.target = some resolution.target ∧
      r.get? resolution.target = some t ∧ t.name = f.target ∧ t.keyShape = resolution.key := by
  obtain ⟨resolution, hres⟩ := Reference.isResolved_iff.1 hres
  obtain ⟨t, ht, hname⟩ := hr.exists_target hm hf hres
  rw [← Bool.not_eq_true, hr.isStale_iff hm hf hres ht, not_not] at hstale
  exact ⟨resolution, t, hres, hr.target_eq m hm f hf resolution hres, ht, hname, hstale⟩

/-! ## 3. Schemas that represent a registry -/

theorem Represents.map_name_tables (hs : r.Represents o s) :
    s.tables.map (·.name) = r.models.map o.tableName := by
  apply List.ext_getElem?
  intro id
  rw [List.getElem?_map, List.getElem?_map]
  cases hm : r.get? id with
  | none =>
    have hlen : r.models.length ≤ id := List.getElem?_eq_none_iff.1 hm
    have hlen' : s.tables.length ≤ id := hs.length_eq ▸ hlen
    rw [List.getElem?_eq_none_iff.2 hlen, List.getElem?_eq_none_iff.2 hlen']
    rfl
  | some m =>
    obtain ⟨constraints, ht⟩ := hs.exists_table hm
    rw [Storage.Schema.table_eq_ok_iff.1 ht, show r.models[id]? = some m from hm]
    rfl

theorem depicts_ofModel (hm : (m.columns.map (·.name)).Nodup) (hkey : m.keyShape ≠ [])
    (constraints : List Constraint) :
    ({ Table.ofModel id (o.tableName m) m with constraints := constraints } : Table).Depicts
      o id m := by
  have hsound : (Table.ofModel id (o.tableName m) m).Sound := Table.sound_ofModel hm hkey
  exact ⟨rfl, rfl, rfl, rfl, hsound.nodup_names, rfl, hsound.key_ne_nil⟩

/-- The ids of a pair lead to the columns that it names. -/
theorem depicts_columnPair (hr : r.Sound) (hs : r.Represents o s) (hm : r.get? id = some m)
    {targetId : TableId} (ht : r.get? targetId = some t) {p : Pair} {pair : ColumnPair}
    (hpair : columnPair (Table.ofModel id (o.tableName m) m)
      (Table.ofModel targetId (o.tableName t) t) p = .ok pair)
    (hkey : pair.target ∈ (Table.ofModel targetId (o.tableName t) t).primaryKey)
    (constraints targetConstraints : List Constraint) :
    pair.Depicts s { Table.ofModel id (o.tableName m) m with constraints := constraints }
      { Table.ofModel targetId (o.tableName t) t with constraints := targetConstraints } p := by
  obtain ⟨sourceId, columnId⟩ := pair
  obtain ⟨hsource, htarget⟩ := columnPair_eq_ok_iff.1 hpair
  rw [Table.columnId_ofModel_eq_ok_iff (hr.laid m (mem_of_get? hm)).nodup_columnNames] at hsource
  rw [Table.columnId_ofModel_eq_ok_iff (hr.laid t (mem_of_get? ht)).nodup_columnNames] at htarget
  obtain ⟨index, c, hc, hcname, rfl⟩ := hsource
  obtain ⟨targetIndex, d, hd, hdname, rfl⟩ := htarget
  -- the position is one of the key, hence that of a flagged column
  obtain ⟨keyIndex, e, he, hflag, hsame⟩ := Table.mem_primaryKey_ofModel.1 hkey
  obtain rfl : targetIndex = keyIndex := congrArg (·.index) hsame
  obtain rfl := Option.some.inj (hd.symm.trans he)
  have hcmem : Storage.Column.ofModelColumn id c index ∈
      (Table.ofModel id (o.tableName m) m).columns :=
    Table.mem_columns_ofModel.2 ⟨index, c, hc, rfl⟩
  have hdmem : Storage.Column.ofModelColumn targetId d targetIndex ∈
      (Table.ofModel targetId (o.tableName t) t).columns :=
    Table.mem_columns_ofModel.2 ⟨targetIndex, d, hd, rfl⟩
  exact ⟨rfl, ⟨_, hcmem, hs.column_eq hm hc, rfl, hcname⟩, rfl,
    ⟨_, hdmem, hs.column_eq ht hd, rfl, hdname, hflag⟩⟩

/-- The constraint that is made of a reference shows it, unless the reference is stale. -/
theorem depicts_constraint (hr : r.Sound) (hchecked : r.Checked) (hs : r.Represents o s)
    (hm : r.get? id = some m) (hf : f ∈ m.references) (hresolved : f.isResolved)
    (hstale : r.isStale f = false) {c : Constraint} (hc : r.constraintOf o id m f = .ok c)
    (constraints : List Constraint) :
    c.Depicts r s { Table.ofModel id (o.tableName m) m with constraints := constraints } f := by
  have hmem := mem_of_get? hm
  obtain ⟨resolution, t, hres, hid, ht, htname, hkey⟩ :=
    hr.exists_target_key hmem hf hresolved hstale
  obtain ⟨resolution', target, pairs, hres', htarget, hpairs, rfl⟩ := constraint_eq_ok_iff.1 hc
  obtain rfl := Option.some.inj (hres.symm.trans hres')
  obtain rfl := Option.some.inj (htarget.symm.trans (getElem?_bareTables_of_get? ht))
  obtain ⟨targetConstraints, htable⟩ := hs.exists_table ht
  -- the recorded key is the whole key of the target now, and so are the ids
  have htargets : resolution.pairs.map (·.target) = t.keyShape.names :=
    hkey ▸ hchecked.map_target_pairs hr hmem hf hres
  have hids := map_target_eq_primaryKey (hr.laid t (mem_of_get? ht)).nodup_columnNames htargets
    hpairs
  refine ⟨rfl, rfl, rfl, rfl, hid, _, htable, htname, hids, ?_⟩
  rw [Reference.pairs_eq_of_resolution hres]
  refine forall₂_imp_of_mem hpairs fun p _ pair hmem hpair => ?_
  have hkeyId : pair.target ∈ (Table.ofModel resolution.target (o.tableName t) t).primaryKey :=
    hids ▸ List.mem_map_of_mem hmem
  exact depicts_columnPair hr hs hm ht hpair hkeyId constraints targetConstraints

/-! ## 4. What assembly returns -/

/-- Past the check in front, assembly makes the schema. -/
theorem toSchema_of_assemble (hr : r.Sound) (h : (r.assemble o).result = .ok s) :
    r.unsettled = [] ∧ r.toSchema o = .ok s := by
  rw [result_assemble hr.hasForeignTarget_eq_false] at h
  by_cases hempty : r.unsettled = []
  · rw [if_pos (List.isEmpty_iff.2 hempty)] at h
    exact ⟨hempty, h⟩
  · rw [if_neg (by simpa using hempty)] at h
    cases h

/-- Whatever assembly returns depicts the registry, and with verification on it is sound. -/
theorem depicts_of_assemble {operations : List Operation}
    (hfresh : ∀ operation ∈ operations, operation.Fresh)
    (h : ((after operations).assemble o).result = .ok s) :
    s.Depicts o (after operations) ∧ (o.verify → s.Sound) := by
  have hr := sound_after hfresh
  have hchecked := checked_after hfresh
  obtain ⟨hsettled, hschema⟩ := toSchema_of_assemble hr h
  obtain ⟨hnames, hkeys, hs, hsound⟩ := toSchema_eq_ok_iff.1 hschema
  rw [unsettled_eq_nil_iff] at hsettled
  refine ⟨⟨hs.length_eq, hs.map_name_tables ▸ hnames, fun id m hm => ?_⟩, hsound⟩
  have hmem := mem_of_get? hm
  have hlaid := hr.laid m hmem
  obtain ⟨constraints, ht⟩ := hs.exists_table hm
  refine ⟨_, ht, depicts_ofModel hlaid.nodup_columnNames (hkeys m hmem) constraints,
    fun c hc => ?_, ?_⟩
  · have hcolumn : c ∈ (Table.ofModel id (o.tableName m) m).columns := hc
    obtain ⟨index, d, hd, rfl⟩ := Table.mem_columns_ofModel.1 hcolumn
    exact hs.column_eq hm hd
  obtain ⟨constraints', hconstraints, heq⟩ :=
    hs.table_eq id m _ hm (Storage.Schema.table_eq_ok_iff.1 ht)
  obtain rfl : constraints = constraints' := congrArg (·.constraints) heq
  refine forall₂_imp_of_mem hconstraints fun f hf c _ hc => ?_
  obtain ⟨hresolved, hstale⟩ := hsettled m hmem f hf
  exact depicts_constraint hr hchecked hs hm hf hresolved hstale hc constraints

/-- Countries are numbered now, so that all that rests on their codes is resolved again. -/
def countryNumbered : List Operation :=
  [.register country, .register city, .register person, .resolve "_",
    .replace (Model.ofFields "Country"
      [.column { name := "code", type := .integer, primaryKey := true }]),
    .resolve "_"]

theorem fresh_countryNumbered : ∀ operation ∈ countryNumbered, operation.Fresh := by
  simp only [countryNumbered, List.forall_mem_cons, List.not_mem_nil, false_imp_iff, implies_true,
    and_true]
  exact ⟨Model.fresh_ofFields _ _ (by decide), Model.fresh_ofFields _ _ (by decide),
    Model.fresh_ofFields _ _ (by decide), trivial, Model.fresh_ofFields _ _ (by decide), trivial⟩

def unverified : BuildOptions where
  tablePrefix := some "app_"
  verify := false

theorem depicts_countryNumbered :
    ∃ s, ((after countryNumbered).assemble unverified).result = .ok s ∧
      s.Depicts unverified (after countryNumbered) := by
  have hassemble : ∃ s, ((after countryNumbered).assemble unverified).result = .ok s := ⟨_, rfl⟩
  obtain ⟨s, hs⟩ := hassemble
  exact ⟨s, hs, (depicts_of_assemble fresh_countryNumbered hs).1⟩

end Registry

end RelSchema
