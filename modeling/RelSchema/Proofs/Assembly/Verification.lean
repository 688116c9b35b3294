import RelSchema.Proofs.Assembly.Traversals
import RelSchema.Storage.Verify

/-!
# What verification accepts

Verification passes exactly the sound schemas: every table has a key of flagged columns and
different column names, and every constraint leads from columns of its own table to the whole key of
its target.
-/

namespace RelSchema

namespace Storage

/-! ## 1. Sound schemas -/

/-- The key is not empty, its columns are flagged, and the columns have different names. -/
structure Table.Sound (t : Table) : Prop where
  key_ne_nil : t.primaryKey ≠ []
  key_flagged : ∀ id ∈ t.primaryKey, ∃ c, t.column id = .ok c ∧ c.primaryKey
  nodup_names : (t.columns.map (·.name)).Nodup

theorem Table.Sound.withConstraints {t : Table} (h : t.Sound) (constraints : List Constraint) :
    ({ t with constraints := constraints } : Table).Sound :=
  ⟨h.key_ne_nil, h.key_flagged, h.nodup_names⟩

/-- The constraint leads from columns of the table to the whole key of its target, in key order. -/
structure Constraint.Sound (s : Schema) (t : Table) (c : Constraint) : Prop where
  exists_target : ∃ target, s.table c.target = .ok target ∧
    c.pairs.map (·.target) = target.primaryKey
  source_table : ∀ pair ∈ c.pairs, pair.source.table = t.id
  types_eq : ∀ pair ∈ c.pairs, ∃ source target, s.column pair.source = .ok source ∧
    s.column pair.target = .ok target ∧ source.type = target.type

structure Schema.Sound (s : Schema) : Prop where
  tables : ∀ t ∈ s.tables, t.Sound
  constraints : ∀ t ∈ s.tables, ∀ c ∈ t.constraints, c.Sound s t

/-- The id of the table and those of its columns are their positions. -/
structure Table.NumberedAt (id : TableId) (t : Table) : Prop where
  id_eq : t.id = id
  column_id : ∀ (index : Nat) (c : Column), t.columns[index]? = some c → c.id = ⟨id, index⟩

theorem Table.NumberedAt.withConstraints {t : Table} {id : TableId} (h : t.NumberedAt id)
    (constraints : List Constraint) :
    ({ t with constraints := constraints } : Table).NumberedAt id :=
  ⟨h.id_eq, h.column_id⟩

def Schema.Numbered (s : Schema) : Prop :=
  ∀ (id : TableId) (t : Table), s.tables[id]? = some t → t.NumberedAt id

/-! ## 2. Verification -/

theorem firstRepeated?_eq_none_iff {seen names : List String} :
    firstRepeated? seen names = none ↔ names.Nodup ∧ ∀ name ∈ names, name ∉ seen := by
  induction names generalizing seen with
  | nil => simp [firstRepeated?]
  | cons name rest ih =>
    rw [firstRepeated?, List.nodup_cons, List.forall_mem_cons]
    by_cases hseen : name ∈ seen
    · simp [hseen]
    · simp only [List.contains_iff_mem, hseen, if_false, ih, List.mem_cons, not_or,
        not_false_eq_true, true_and]
      constructor
      · rintro ⟨hrest, hnew⟩
        exact ⟨⟨fun hmem => (hnew name hmem).1 rfl, hrest⟩, fun other h => (hnew other h).2⟩
      · rintro ⟨⟨hname, hrest⟩, hnew⟩
        exact ⟨hrest, fun other h => ⟨fun heq => hname (heq ▸ h), hnew other h⟩⟩

namespace Table

variable {t : Table}

theorem verifyKey_eq_ok_iff :
    t.verifyKey = .ok () ↔
      t.primaryKey ≠ [] ∧ ∀ id ∈ t.primaryKey, ∃ c, t.column id = .ok c ∧ c.primaryKey := by
  unfold verifyKey
  by_cases hempty : t.primaryKey = []
  · simp [hempty]
  · rw [if_neg (by simpa using hempty), forM_eq_ok_iff, and_iff_right hempty]
    refine forall₂_congr fun id _ => ?_
    cases t.column id with
    | error f => simp
    | ok c =>
      simp only [Except.ok.injEq, exists_eq_left']
      exact guard_eq_ok_iff

theorem verifyNames_eq_ok_iff : t.verifyNames = .ok () ↔ (t.columns.map (·.name)).Nodup := by
  have hnodup : firstRepeated? [] (t.columns.map (·.name)) = none ↔
      (t.columns.map (·.name)).Nodup := by
    rw [firstRepeated?_eq_none_iff, and_iff_left fun name _ => List.not_mem_nil]
  rw [← hnodup]
  unfold verifyNames
  cases firstRepeated? [] (t.columns.map (·.name)) <;> simp

end Table

namespace Schema

variable {s : Schema} {t : Table} {c : Constraint}

theorem table_eq_ok_iff {id : TableId} : s.table id = .ok t ↔ s.tables[id]? = some t := by
  unfold table
  cases s.tables[id]? <;> simp

theorem verifyTarget_eq_ok_iff :
    s.verifyTarget t c = .ok () ↔
      (∃ target, s.table c.target = .ok target ∧ c.pairs.map (·.target) = target.primaryKey) ∧
        ∀ pair ∈ c.pairs, pair.source.table = t.id := by
  unfold verifyTarget
  cases s.table c.target with
  | error f => simp
  | ok target =>
    dsimp only
    rw [ite_eq_ok_iff, forM_eq_ok_iff]
    refine and_congr (by simp) (forall₂_congr fun pair _ => ?_)
    exact guard_eq_ok_iff.trans beq_iff_eq

theorem verifyPair_eq_ok_iff {pair : ColumnPair} :
    s.verifyPair t c pair = .ok () ↔
      ∃ source target, s.column pair.source = .ok source ∧ s.column pair.target = .ok target ∧
        source.type = target.type := by
  unfold verifyPair
  cases s.column pair.source with
  | error f => simp
  | ok source =>
    cases s.column pair.target with
    | error f => simp
    | ok target =>
      simp only [Except.ok.injEq, exists_eq_left', exists_and_left]
      exact guard_eq_ok_iff.trans beq_iff_eq

/-- A schema passes verification exactly when it is sound. -/
theorem verify_eq_ok_iff : s.verify = .ok () ↔ s.Sound := by
  unfold verify
  simp only [check_bind_eq_ok_iff, forM_eq_ok_iff, Table.verifyKey_eq_ok_iff,
    Table.verifyNames_eq_ok_iff, verifyTarget_eq_ok_iff, verifyPair_eq_ok_iff]
  constructor
  · rintro ⟨hkeys, hnames, htargets, hpairs⟩
    exact ⟨fun t ht => ⟨(hkeys t ht).1, (hkeys t ht).2, hnames t ht⟩,
      fun t ht c hc => ⟨(htargets t ht c hc).1, (htargets t ht c hc).2, hpairs t ht c hc⟩⟩
  · rintro ⟨htables, hconstraints⟩
    exact ⟨fun t ht => ⟨(htables t ht).key_ne_nil, (htables t ht).key_flagged⟩,
      fun t ht => (htables t ht).nodup_names,
      fun t ht c hc =>
        ⟨(hconstraints t ht c hc).exists_target, (hconstraints t ht c hc).source_table⟩,
      fun t ht c hc => (hconstraints t ht c hc).types_eq⟩

end Schema

end Storage

end RelSchema
