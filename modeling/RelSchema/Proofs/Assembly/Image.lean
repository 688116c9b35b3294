import RelSchema.Proofs.Assembly.Tables

/-!
# The schema as an image of the registry

Assembly goes through exactly when the table names differ, every model has a key, and every pair of
a resolution leads from a column of its table to one of the target.  Then every table is that of the
model at its place, with one constraint for each reference.
-/

namespace RelSchema

open Storage (Table TableId Constraint ColumnPair Schema)

namespace Registry

variable {o : BuildOptions} {models : List Model} {tables : List Table} {m : Model}

/-! ## 1. Tables without constraints -/

/-- The tables of the models, each at the model's position and as yet without constraints. -/
def bareTables (o : BuildOptions) (models : List Model) : List Table :=
  models.mapIdx fun i m => Table.ofModel i (o.tableName m) m

theorem getElem?_bareTables {id : TableId} :
    (bareTables o models)[id]? = (models[id]?).map fun m => Table.ofModel id (o.tableName m) m :=
  List.getElem?_mapIdx

theorem getElem?_bareTables_of_get? {r : Registry} {id : TableId} (hm : r.get? id = some m) :
    (bareTables o r.models)[id]? = some (Table.ofModel id (o.tableName m) m) := by
  rw [getElem?_bareTables, show r.models[id]? = some m from hm, Option.map_some]

theorem length_bareTables : (bareTables o models).length = models.length :=
  List.length_mapIdx

theorem map_name_bareTables : (bareTables o models).map (·.name) = models.map o.tableName := by
  rw [bareTables, List.mapIdx_eq_zipIdx_map, List.map_map]
  conv_rhs => rw [← List.zipIdx_map_fst 0 models, List.map_map]
  rfl

theorem bareTables_concat :
    bareTables o (models ++ [m]) =
      bareTables o models ++ [Table.ofModel models.length (o.tableName m) m] := by
  rw [bareTables, List.mapIdx_concat]
  rfl

theorem addTable_eq_ok_iff {next : List Table} :
    addTable o tables m = .ok next ↔
      o.tableName m ∉ tables.map (·.name) ∧ m.keyShape ≠ [] ∧
        next = tables ++ [Table.ofModel tables.length (o.tableName m) m] := by
  have hany : tables.any (·.name == o.tableName m) = true ↔
      o.tableName m ∈ tables.map (·.name) := by
    simp
  unfold addTable
  dsimp only
  by_cases htaken : o.tableName m ∈ tables.map (·.name)
  · rw [if_pos (hany.2 htaken)]
    exact iff_of_false nofun fun h => h.1 htaken
  · rw [if_neg (mt hany.1 htaken), and_iff_right htaken]
    by_cases hkey : m.keyShape = []
    · simp [hkey]
    · rw [if_neg (by simpa using hkey), and_iff_right hkey, Except.ok.injEq, eq_comm]

/-- A table name that an earlier table has is reported for the later model. -/
theorem addTable_of_taken (h : o.tableName m ∈ tables.map (·.name)) :
    addTable o tables m = .error (.error (.duplicateTable m.name (o.tableName m))) := by
  have hany : tables.any (·.name == o.tableName m) := by simpa using h
  unfold addTable
  rw [if_pos hany]

theorem foldlM_addTable_concat :
    (models ++ [m]).foldlM (addTable o) tables =
      models.foldlM (addTable o) tables >>= fun before => addTable o before m := by
  rw [List.foldlM_append]
  refine congrArg _ (funext fun before => ?_)
  rw [List.foldlM_cons]
  cases addTable o before m <;> rfl

theorem foldlM_addTable_eq_ok_iff :
    models.foldlM (addTable o) [] = .ok tables ↔
      (models.map o.tableName).Nodup ∧ (∀ m ∈ models, m.keyShape ≠ []) ∧
        tables = bareTables o models := by
  induction models using List.reverseRecOn generalizing tables with
  | nil =>
    show Except.ok [] = Except.ok tables ↔ _
    rw [Except.ok.injEq, eq_comm]
    simp [bareTables]
  | append_singleton models m ih =>
    rw [foldlM_addTable_concat, bind_eq_ok_iff, List.map_append, List.map_singleton,
      nodup_append_singleton_iff, bareTables_concat, List.forall_mem_append,
      List.forall_mem_singleton]
    simp only [ih, addTable_eq_ok_iff]
    constructor
    · rintro ⟨before, ⟨hnodup, hkeys, rfl⟩, hnew, hkey, rfl⟩
      rw [map_name_bareTables] at hnew
      exact ⟨⟨hnodup, hnew⟩, ⟨hkeys, hkey⟩, by rw [length_bareTables]⟩
    · rintro ⟨⟨hnodup, hnew⟩, ⟨hkeys, hkey⟩, rfl⟩
      refine ⟨_, ⟨hnodup, hkeys, rfl⟩, ?_, hkey, by rw [length_bareTables]⟩
      rw [map_name_bareTables]
      exact hnew

/-- The first model whose table name an earlier one has ends the assembly. -/
theorem foldlM_addTable_of_taken {before rest : List Model}
    (hnodup : (before.map o.tableName).Nodup) (hkeys : ∀ n ∈ before, n.keyShape ≠ [])
    (htaken : o.tableName m ∈ before.map o.tableName) :
    (before ++ m :: rest).foldlM (addTable o) [] =
      .error (.error (.duplicateTable m.name (o.tableName m))) := by
  have hbefore := foldlM_addTable_eq_ok_iff.2 ⟨hnodup, hkeys, rfl⟩
  rw [← map_name_bareTables] at htaken
  rw [List.foldlM_append, hbefore]
  show (m :: rest).foldlM (addTable o) (bareTables o before) = _
  rw [List.foldlM_cons, addTable_of_taken htaken]
  rfl

/-! ## 2. Constraints -/

theorem columnPair_eq_ok_iff {source target : Table} {p : Pair} {pair : ColumnPair} :
    columnPair source target p = .ok pair ↔
      source.columnId p.source = .ok pair.source ∧ target.columnId p.target = .ok pair.target := by
  obtain ⟨sourceId, targetId⟩ := pair
  unfold columnPair
  cases source.columnId p.source <;> cases target.columnId p.target <;> simp

theorem constraint_eq_ok_iff {t : Table} {f : Reference} {c : Constraint} :
    constraint tables t f = .ok c ↔ ∃ resolution target pairs,
      f.resolution = some resolution ∧ tables[resolution.target]? = some target ∧
        List.Forall₂ (fun p pair => columnPair t target p = .ok pair) resolution.pairs pairs ∧
        c = ⟨f.field, resolution.target, pairs, f.onDelete, f.onUpdate, f.deferred⟩ := by
  unfold constraint
  simp only [← mapM_eq_ok_iff]
  cases f.resolution with
  | none => simp
  | some resolution =>
    simp only [Option.some.injEq, exists_and_left, exists_eq_left']
    cases tables[resolution.target]? with
    | none => simp
    | some target =>
      cases hpairs : resolution.pairs.mapM (columnPair t target) <;> simp [hpairs, eq_comm]

theorem addConstraints_eq_ok_iff {t full : Table} :
    addConstraints tables t m = .ok full ↔ ∃ constraints,
      List.Forall₂ (fun f c => constraint tables t f = .ok c) m.references constraints ∧
        full = { t with constraints := constraints } := by
  unfold addConstraints
  simp only [← mapM_eq_ok_iff]
  cases m.references.mapM (constraint tables t) <;> simp [eq_comm]

/-! ## 3. Schemas -/

/-- The constraint that reference `f` becomes in the table of model `m`. -/
def constraintOf (r : Registry) (o : BuildOptions) (id : TableId) (m : Model) (f : Reference) :
    Except Failure Constraint :=
  constraint (bareTables o r.models) (Table.ofModel id (o.tableName m) m) f

/-- Table `i` is the table of model `i`, with one constraint for each reference of the model. -/
structure Represents (o : BuildOptions) (r : Registry) (s : Schema) : Prop where
  length_eq : s.tables.length = r.size
  table_eq : ∀ (id : TableId) (m : Model) (t : Table), r.get? id = some m →
    s.tables[id]? = some t → ∃ constraints,
      List.Forall₂ (fun f c => r.constraintOf o id m f = .ok c) m.references constraints ∧
      t = { Table.ofModel id (o.tableName m) m with constraints := constraints }

variable {r : Registry} {s : Schema}

theorem mapM_addConstraints_eq_ok_iff :
    ((bareTables o r.models).zip r.models).mapM
        (fun entry => addConstraints (bareTables o r.models) entry.1 entry.2) = .ok s.tables ↔
      r.Represents o s := by
  rw [mapM_eq_ok_iff, forall₂_iff_getElem?, List.length_zip, length_bareTables, Nat.min_self]
  simp only [Prod.forall, List.getElem?_zip_eq_some, addConstraints_eq_ok_iff]
  constructor
  · rintro ⟨hlen, htables⟩
    refine ⟨hlen.symm, fun id m t hm ht => ?_⟩
    exact htables id _ m t ⟨getElem?_bareTables_of_get? hm, hm⟩ ht
  · rintro ⟨hlen, htables⟩
    refine ⟨hlen.symm, fun id bare m t hentry ht => ?_⟩
    obtain ⟨hbare, hm⟩ := hentry
    obtain rfl := Option.some.inj (hbare.symm.trans (getElem?_bareTables_of_get? hm))
    exact htables id m t hm ht

theorem verified_eq_ok_iff {t : Schema} :
    (if o.verify then t.verify >>= fun _ => pure t else pure t : Except Failure Schema) = .ok s ↔
      (o.verify → s.Sound) ∧ t = s := by
  have hpure : (pure t : Except Failure Schema) = .ok s ↔ t = s := by
    show Except.ok t = Except.ok s ↔ _
    rw [Except.ok.injEq]
  by_cases hverify : o.verify
  · rw [if_pos hverify, bind_eq_ok_iff]
    constructor
    · rintro ⟨⟨⟩, hverified, hs⟩
      obtain rfl := hpure.1 hs
      exact ⟨fun _ => Schema.verify_eq_ok_iff.1 hverified, rfl⟩
    · rintro ⟨hsound, rfl⟩
      exact ⟨(), Schema.verify_eq_ok_iff.2 (hsound hverify), rfl⟩
  · rw [if_neg hverify, hpure]
    simp [hverify]

/-- When assembly goes through, and what it gives. -/
theorem toSchema_eq_ok_iff :
    r.toSchema o = .ok s ↔
      (r.models.map o.tableName).Nodup ∧ (∀ m ∈ r.models, m.keyShape ≠ []) ∧
        r.Represents o s ∧ (o.verify → s.Sound) := by
  have hstages : r.toSchema o = .ok s ↔ ∃ bare, r.models.foldlM (addTable o) [] = .ok bare ∧
      ∃ full, (bare.zip r.models).mapM (fun entry => addConstraints bare entry.1 entry.2) =
        .ok full ∧ (o.verify → s.Sound) ∧ (⟨full⟩ : Schema) = s := by
    unfold toSchema
    refine bind_eq_ok_iff.trans (exists_congr fun bare => and_congr_right fun _ => ?_)
    refine bind_eq_ok_iff.trans (exists_congr fun full => and_congr_right fun _ => ?_)
    exact verified_eq_ok_iff
  rw [hstages]
  constructor
  · rintro ⟨bare, hbare, full, hfull, hsound, rfl⟩
    obtain ⟨hnodup, hkeys, rfl⟩ := foldlM_addTable_eq_ok_iff.1 hbare
    exact ⟨hnodup, hkeys, mapM_addConstraints_eq_ok_iff.1 hfull, hsound⟩
  · rintro ⟨hnodup, hkeys, hrepresents, hsound⟩
    exact ⟨_, foldlM_addTable_eq_ok_iff.2 ⟨hnodup, hkeys, rfl⟩, s.tables,
      mapM_addConstraints_eq_ok_iff.2 hrepresents, hsound, rfl⟩

/-- Nothing is assembled when two models get one table name: the first model whose name is taken is
reported. -/
theorem toSchema_of_taken {before rest : List Model} (hmodels : r.models = before ++ m :: rest)
    (hnodup : (before.map o.tableName).Nodup) (hkeys : ∀ n ∈ before, n.keyShape ≠ [])
    (htaken : o.tableName m ∈ before.map o.tableName) :
    r.toSchema o = .error (.error (.duplicateTable m.name (o.tableName m))) := by
  unfold toSchema
  rw [hmodels, foldlM_addTable_of_taken hnodup hkeys htaken]
  rfl

end Registry

end RelSchema
