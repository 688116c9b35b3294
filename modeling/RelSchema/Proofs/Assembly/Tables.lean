import RelSchema.Assembly
import RelSchema.Proofs.Assembly.Verification
import RelSchema.Proofs.Resolve.Pairing

/-!
# Tables of models

The table of a model has the model's columns, each under its position, and its key consists of the
positions of the key columns.  A column name leads to one position, so that the names of the key
lead to exactly the key of the table.
-/

namespace RelSchema

namespace Storage.Table

/-! ## 1. Columns of a table -/

variable {id : TableId} {name : String} {m : Model} {index : Nat} {c : RelSchema.Column}

theorem getElem?_columns_ofModel :
    (ofModel id name m).columns[index]? =
      (m.columns[index]?).map fun c => Column.ofModelColumn id c index :=
  List.getElem?_mapIdx

theorem mem_columns_ofModel {d : Column} :
    d ∈ (ofModel id name m).columns ↔
      ∃ index c, m.columns[index]? = some c ∧ d = Column.ofModelColumn id c index := by
  rw [List.mem_iff_getElem?]
  refine exists_congr fun index => ?_
  rw [getElem?_columns_ofModel, Option.map_eq_some_iff]
  exact exists_congr fun c => and_congr_right fun _ => eq_comm

theorem columns_ofModel_eq_map_zipIdx :
    (ofModel id name m).columns =
      m.columns.zipIdx.map fun p => Column.ofModelColumn id p.1 p.2 :=
  List.mapIdx_eq_zipIdx_map

theorem map_name_columns_ofModel :
    (ofModel id name m).columns.map (·.name) = m.columns.map (·.name) := by
  rw [columns_ofModel_eq_map_zipIdx, List.map_map]
  conv_rhs => rw [← List.zipIdx_map_fst 0 m.columns, List.map_map]
  rfl

/-- Flags and names do not depend on positions. -/
theorem map_name_keyColumns_ofModel :
    ((ofModel id name m).columns.filter (·.primaryKey)).map (·.name) = m.keyShape.names := by
  rw [columns_ofModel_eq_map_zipIdx, List.filter_map, List.map_map, PrimaryKey.names,
    Model.keyShape, List.map_map]
  conv_rhs => rw [← List.zipIdx_map_fst 0 m.columns, List.filter_map, List.map_map]
  rfl

theorem numberedAt_ofModel : (ofModel id name m).NumberedAt id := by
  refine ⟨rfl, fun index d hd => ?_⟩
  rw [getElem?_columns_ofModel] at hd
  obtain ⟨c, -, rfl⟩ := Option.map_eq_some_iff.1 hd
  rfl

/-- A column is found at the index of its id, whatever table the id speaks of. -/
theorem column_ofModel (hc : m.columns[index]? = some c) (table : TableId) :
    (ofModel id name m).column ⟨table, index⟩ = .ok (Column.ofModelColumn id c index) := by
  unfold column
  rw [getElem?_columns_ofModel, hc, Option.map_some]

/-- The id that a name leads to is the position of the column of that name. -/
theorem columnId_ofModel_eq_ok_iff (hm : (m.columns.map (·.name)).Nodup) {columnName : String}
    {columnId : ColumnId} :
    (ofModel id name m).columnId columnName = .ok columnId ↔
      ∃ index c, m.columns[index]? = some c ∧ c.name = columnName ∧ columnId = ⟨id, index⟩ := by
  have hnodup : ((ofModel id name m).columns.map (·.name)).Nodup := by
    rw [map_name_columns_ofModel]
    exact hm
  constructor
  · intro h
    unfold Table.columnId at h
    cases hfind : (ofModel id name m).columnNamed? columnName with
    | none => simp [hfind] at h
    | some d =>
      simp only [hfind, Except.ok.injEq] at h
      have hdname : d.name = columnName := by simpa using List.find?_some hfind
      obtain ⟨index, c, hc, rfl⟩ := mem_columns_ofModel.1 (List.mem_of_find?_eq_some hfind)
      exact ⟨index, c, hc, hdname, h.symm⟩
  · rintro ⟨index, c, hc, rfl, rfl⟩
    have hfind : (ofModel id name m).columnNamed? c.name =
        some (Column.ofModelColumn id c index) :=
      find?_eq_some_of_mem hnodup (mem_columns_ofModel.2 ⟨index, c, hc, rfl⟩)
    simp only [Table.columnId, hfind]
    rfl

/-! ## 2. The key of a table -/

theorem mem_primaryKey_ofModel {columnId : ColumnId} :
    columnId ∈ (ofModel id name m).primaryKey ↔
      ∃ index c, m.columns[index]? = some c ∧ c.primaryKey ∧ columnId = ⟨id, index⟩ := by
  show columnId ∈ ((ofModel id name m).columns.filter (·.primaryKey)).map (·.id) ↔ _
  simp only [List.mem_map, List.mem_filter]
  constructor
  · rintro ⟨d, ⟨hd, hkey⟩, rfl⟩
    obtain ⟨index, c, hc, rfl⟩ := mem_columns_ofModel.1 hd
    exact ⟨index, c, hc, hkey, rfl⟩
  · rintro ⟨index, c, hc, hkey, rfl⟩
    exact ⟨_, ⟨mem_columns_ofModel.2 ⟨index, c, hc, rfl⟩, hkey⟩, rfl⟩

/-- The names of the key columns lead to the key of the table. -/
theorem forall₂_columnId_primaryKey (hm : (m.columns.map (·.name)).Nodup) :
    List.Forall₂ (fun keyName columnId => (ofModel id name m).columnId keyName = .ok columnId)
      m.keyShape.names (ofModel id name m).primaryKey := by
  rw [← map_name_keyColumns_ofModel]
  show List.Forall₂ _ _ (((ofModel id name m).columns.filter (·.primaryKey)).map (·.id))
  rw [List.forall₂_map_left_iff, List.forall₂_map_right_iff, List.forall₂_same]
  intro d hd
  obtain ⟨index, c, hc, rfl⟩ := mem_columns_ofModel.1 (List.mem_filter.1 hd).1
  exact (columnId_ofModel_eq_ok_iff hm).2 ⟨index, c, hc, rfl, rfl⟩

/-- The table of a laid out model with a key is sound. -/
theorem sound_ofModel (hm : (m.columns.map (·.name)).Nodup) (hkey : m.keyShape ≠ []) :
    (ofModel id name m).Sound := by
  refine ⟨fun hnil => ?_, fun columnId hid => ?_, ?_⟩
  · have hnames : List.Forall₂ _ m.keyShape.names (ofModel id name m).primaryKey :=
      forall₂_columnId_primaryKey hm
    rw [hnil, List.forall₂_nil_right_iff, PrimaryKey.names, List.map_eq_nil_iff] at hnames
    exact hkey hnames
  · obtain ⟨index, c, hc, hflag, rfl⟩ := mem_primaryKey_ofModel.1 hid
    exact ⟨_, column_ofModel hc id, hflag⟩
  · rw [map_name_columns_ofModel]
    exact hm

end Storage.Table

end RelSchema
