import RelSchema.Proofs.Assembly.Image
import RelSchema.Proofs.Resolve.Coherent

/-!
# Constraints of finished registries

A registry in which nothing is left to do has everything that assembly looks up and verification
checks: every pair leads from a column of its owner to a key column of its target, of one type and
in the order of the key.
-/

namespace RelSchema

open Storage (Table TableId ColumnId Constraint ColumnPair Schema)

/-! ## 1. Pairs become pairs of ids -/

section ColumnPairs

variable {m t : Model} {i j : TableId} {sourceName targetName : String} {f : Reference} {p : Pair}

/-- A pair that fits has an id on both sides, of columns of one type. -/
theorem Pair.Fits.exists_columnPair (h : p.Fits m f t.keyShape)
    (hm : (m.columns.map (·.name)).Nodup) (ht : (t.columns.map (·.name)).Nodup) :
    ∃ a b c d, m.columns[a]? = some c ∧ t.columns[b]? = some d ∧ c.type = d.type ∧
      Registry.columnPair (Table.ofModel i sourceName m) (Table.ofModel j targetName t) p =
        .ok ⟨⟨i, a⟩, ⟨j, b⟩⟩ := by
  obtain ⟨c, hc, k, hk, hcname, hkname, htype, -, -⟩ := h
  obtain ⟨d, hd, rfl⟩ := List.mem_map.1 hk
  obtain ⟨a, ha⟩ := List.getElem?_of_mem hc
  obtain ⟨b, hb⟩ := List.getElem?_of_mem (List.mem_filter.1 hd).1
  refine ⟨a, b, c, d, ha, hb, htype, Registry.columnPair_eq_ok_iff.2 ⟨?_, ?_⟩⟩
  · exact (Table.columnId_ofModel_eq_ok_iff hm).2 ⟨a, c, ha, hcname, rfl⟩
  · exact (Table.columnId_ofModel_eq_ok_iff ht).2 ⟨b, d, hb, hkname, rfl⟩

/-- Pairs that cover the key in its order lead to the key of the target's table. -/
theorem map_target_eq_primaryKey {source : Table} {pairs : List Pair} {ids : List ColumnPair}
    (ht : (t.columns.map (·.name)).Nodup) (hkey : pairs.map (·.target) = t.keyShape.names)
    (h : List.Forall₂
      (fun p pair => Registry.columnPair source (Table.ofModel j targetName t) p = .ok pair)
      pairs ids) :
    ids.map (·.target) = (Table.ofModel j targetName t).primaryKey := by
  -- both are what the names of the key lead to
  have hids : t.keyShape.names.mapM (Table.ofModel j targetName t).columnId =
      .ok (ids.map (·.target)) := by
    rw [← hkey, mapM_eq_ok_iff, List.forall₂_map_left_iff, List.forall₂_map_right_iff]
    exact h.imp fun p pair hpair => (Registry.columnPair_eq_ok_iff.1 hpair).2
  have hprimaryKey : t.keyShape.names.mapM (Table.ofModel j targetName t).columnId =
      .ok (Table.ofModel j targetName t).primaryKey :=
    mapM_eq_ok_iff.2 (Table.forall₂_columnId_primaryKey ht)
  exact Except.ok.inj (hids.symm.trans hprimaryKey)

end ColumnPairs

namespace Registry

variable {o : BuildOptions} {r : Registry} {s : Schema} {m : Model} {id : TableId} {f : Reference}

/-! ## 2. Schemas of registries -/

namespace Represents

/-- The table of a model, with its constraints. -/
theorem exists_table (h : r.Represents o s) (hm : r.get? id = some m) :
    ∃ constraints, s.table id =
      .ok { Table.ofModel id (o.tableName m) m with constraints := constraints } := by
  have hlt : id < s.tables.length := by
    rw [h.length_eq]
    exact (List.getElem?_eq_some_iff.1 hm).1
  have hget := List.getElem?_eq_getElem hlt
  obtain ⟨constraints, -, ht⟩ := h.table_eq id m _ hm hget
  rw [ht] at hget
  exact ⟨constraints, Schema.table_eq_ok_iff.2 hget⟩

theorem column_eq (h : r.Represents o s) (hm : r.get? id = some m) {index : Nat} {c : Column}
    (hc : m.columns[index]? = some c) :
    s.column ⟨id, index⟩ = .ok (Storage.Column.ofModelColumn id c index) := by
  obtain ⟨constraints, ht⟩ := h.exists_table hm
  have hat : (Table.ofModel id (o.tableName m) m).columns[index]? =
      some (Storage.Column.ofModelColumn id c index) := by
    rw [Table.getElem?_columns_ofModel, hc, Option.map_some]
  simp only [Schema.column, ht, hat]

/-- Every table is the table of a model. -/
theorem exists_model (h : r.Represents o s) {t : Table} (ht : s.tables[id]? = some t) :
    ∃ m constraints, r.get? id = some m ∧
      List.Forall₂ (fun f c => r.constraintOf o id m f = .ok c) m.references constraints ∧
      t = { Table.ofModel id (o.tableName m) m with constraints := constraints } := by
  have hlt : id < r.models.length := by
    have hlt := (List.getElem?_eq_some_iff.1 ht).1
    rw [h.length_eq] at hlt
    exact hlt
  have hm : r.get? id = some r.models[id] := List.getElem?_eq_getElem hlt
  obtain ⟨constraints, hconstraints, ht⟩ := h.table_eq id _ t hm ht
  exact ⟨_, constraints, hm, hconstraints, ht⟩

/-- The ids of tables and columns are their positions. -/
theorem numbered (h : r.Represents o s) : s.Numbered := by
  intro id t ht
  obtain ⟨m, constraints, -, -, rfl⟩ := h.exists_model ht
  exact Table.numberedAt_ofModel.withConstraints constraints

end Represents

/-! ## 3. Constraints of a finished registry -/

section Finished

variable (hr : r.Finished)
include hr

/-- The pairs of a reference fit the key of its target and cover it, in its order. -/
theorem Finished.exists_target (hm : m ∈ r.models) (hf : f ∈ m.references) :
    ∃ resolution t, f.resolution = some resolution ∧ r.get? resolution.target = some t ∧
      resolution.pairs.map (·.target) = t.keyShape.names ∧
      ∀ p ∈ resolution.pairs, p.Fits m f t.keyShape := by
  have hlaid := hr.coherent.sound.laid m hm
  obtain ⟨resolution, hres⟩ := Reference.isResolved_iff.1 (hr.isResolved m hm f hf)
  have hsettled := hr.coherent.settled m hm f hf resolution hres
  obtain ⟨t, ht, -, hkey⟩ := hsettled.exists_target
  refine ⟨resolution, t, hres, ht, ?_, fun p hp => ?_⟩
  · rw [hkey, ← hsettled.map_target_pairs hlaid hf, Reference.pairs_eq_of_resolution hres]
  · rw [← Reference.pairs_eq_of_resolution hres] at hp
    exact hkey ▸ hsettled.fits_of_mem_pairs hlaid hf hp

/-- Every reference of a finished registry becomes a constraint. -/
theorem exists_constraint (o : BuildOptions) (hm : r.get? id = some m) (hf : f ∈ m.references) :
    ∃ c, r.constraintOf o id m f = .ok c := by
  have hsound := hr.coherent.sound
  obtain ⟨resolution, t, hres, ht, -, hfits⟩ := hr.exists_target (mem_of_get? hm) hf
  have hpairs : ∀ p ∈ resolution.pairs, ∃ pair, columnPair (Table.ofModel id (o.tableName m) m)
      (Table.ofModel resolution.target (o.tableName t) t) p = .ok pair := by
    intro p hp
    obtain ⟨a, b, -, -, -, -, -, hpair⟩ := (hfits p hp).exists_columnPair
      (hsound.laid m (mem_of_get? hm)).nodup_columnNames
      (hsound.laid t (mem_of_get? ht)).nodup_columnNames
    exact ⟨_, hpair⟩
  obtain ⟨pairs, hpairs⟩ := exists_forall₂ hpairs
  exact ⟨_, constraint_eq_ok_iff.2
    ⟨resolution, _, pairs, hres, getElem?_bareTables_of_get? ht, hpairs, rfl⟩⟩

theorem exists_represents (o : BuildOptions) : ∃ s, r.Represents o s := by
  have htables : ∀ entry ∈ (bareTables o r.models).zip r.models, ∃ full,
      addConstraints (bareTables o r.models) entry.1 entry.2 = .ok full := by
    rintro ⟨t, m⟩ hentry
    obtain ⟨id, hid⟩ := List.getElem?_of_mem hentry
    obtain ⟨ht, hm⟩ : (bareTables o r.models)[id]? = some t ∧ r.models[id]? = some m :=
      List.getElem?_zip_eq_some.1 hid
    obtain rfl := Option.some.inj (ht.symm.trans (getElem?_bareTables_of_get? hm))
    obtain ⟨constraints, hconstraints⟩ := exists_forall₂ fun f hf => exists_constraint hr o hm hf
    exact ⟨_, addConstraints_eq_ok_iff.2 ⟨constraints, hconstraints, rfl⟩⟩
  obtain ⟨tables, htables⟩ := exists_forall₂ htables
  exact ⟨⟨tables⟩, mapM_addConstraints_eq_ok_iff.1 (mapM_eq_ok_iff.2 htables)⟩

/-- The constraint of a reference leads to the whole key of its target. -/
theorem sound_constraint (hs : r.Represents o s) (hm : r.get? id = some m)
    (hf : f ∈ m.references) {c : Constraint} (hc : r.constraintOf o id m f = .ok c)
    (constraints : List Constraint) :
    c.Sound s { Table.ofModel id (o.tableName m) m with constraints := constraints } := by
  have hsound := hr.coherent.sound
  obtain ⟨resolution, target, pairs, hres, htarget, hpairs, rfl⟩ := constraint_eq_ok_iff.1 hc
  obtain ⟨resolution', t, hres', ht, hkey, hfits⟩ := hr.exists_target (mem_of_get? hm) hf
  obtain rfl := Option.some.inj (hres.symm.trans hres')
  obtain rfl := Option.some.inj (htarget.symm.trans (getElem?_bareTables_of_get? ht))
  have hnames := (hsound.laid t (mem_of_get? ht)).nodup_columnNames
  -- every pair of ids belongs to a pair of the resolution, which fits
  have hpair : ∀ pair ∈ pairs, ∃ a b c d, m.columns[a]? = some c ∧ t.columns[b]? = some d ∧
      c.type = d.type ∧ pair = ⟨⟨id, a⟩, ⟨resolution.target, b⟩⟩ := by
    intro pair hmem
    obtain ⟨p, hp, hcolumnPair⟩ := exists_left_of_mem hpairs hmem
    obtain ⟨a, b, c, d, ha, hb, htype, hpair⟩ := (hfits p hp).exists_columnPair
      (hsound.laid m (mem_of_get? hm)).nodup_columnNames hnames
    exact ⟨a, b, c, d, ha, hb, htype, Except.ok.inj (hcolumnPair.symm.trans hpair)⟩
  refine ⟨?_, ?_, ?_⟩
  · obtain ⟨targetConstraints, htable⟩ := hs.exists_table ht
    exact ⟨_, htable, map_target_eq_primaryKey hnames hkey hpairs⟩
  · intro pair hmem
    obtain ⟨a, b, -, -, -, -, -, rfl⟩ := hpair pair hmem
    rfl
  · intro pair hmem
    obtain ⟨a, b, c, d, ha, hb, htype, rfl⟩ := hpair pair hmem
    exact ⟨_, _, hs.column_eq hm ha, hs.column_eq ht hb,
      congrArg Storage.StorageClass.ofColumnType htype⟩

/-- Whatever represents a finished registry passes verification. -/
theorem sound_of_represents (hs : r.Represents o s) : s.Sound := by
  have hsound := hr.coherent.sound
  refine ⟨fun t ht => ?_, fun t ht c hc => ?_⟩
  all_goals
    obtain ⟨id, hid⟩ := List.getElem?_of_mem ht
    obtain ⟨m, constraints, hm, hconstraints, rfl⟩ := hs.exists_model hid
  · have hmem := mem_of_get? hm
    exact (Table.sound_ofModel (hsound.laid m hmem).nodup_columnNames
      (hr.keyShape_ne_nil m hmem)).withConstraints constraints
  · obtain ⟨f, hf, hc⟩ := exists_left_of_mem hconstraints hc
    exact sound_constraint hr hs hm hf hc constraints

end Finished

end Registry

end RelSchema
