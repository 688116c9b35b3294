import Mathlib.Data.List.Nodup
import Mathlib.Data.List.Perm.Basic
import RelSchema.Proofs.Model.Bare
import RelSchema.Resolve.Synthesis

/-!
# The layout invariant

A model is laid out when its columns are, declaration by declaration, the declared column itself or
the columns that the reference has brought.  Settling a reference and dropping its resolution both
keep a model laid out, however many other references of the model are resolved.
-/

namespace RelSchema

/-! ## 1. What stands at a declaration -/

namespace Reference

/-- The column that holds a key column of the target, once it has joined the model. -/
def broughtColumn (r : Reference) (k : KeyColumn) (p : Pair) : Column where
  name := p.source
  type := k.type
  nullable := k.nullable
  primaryKey := r.primaryKey
  foreignKey := true
  synthesizedBy := some r.field
  declaredForeignKey := true

/-- The columns that a reference has brought: one for each pair of an implicit reference that is
resolved, none for any other. -/
def broughtColumns (r : Reference) : List Column :=
  match r.resolution with
  | none => []
  | some resolution =>
      if r.isImplicit then
        (resolution.key.zip resolution.pairs).map fun (k, p) => r.broughtColumn k p
      else []

/-- The columns that the reference brings when it is resolved against a key. -/
def columnsFor (r : Reference) (separator : String) (key : PrimaryKey) : List Column :=
  key.map fun k => r.broughtColumn k ⟨r.sourceName separator k, k.name⟩

theorem eq_broughtColumn_of_mem {r : Reference} {c : Column} (h : c ∈ r.broughtColumns) :
    ∃ k p, c = r.broughtColumn k p := by
  unfold broughtColumns at h
  split at h
  · simp at h
  · split at h
    · obtain ⟨⟨k, p⟩, -, rfl⟩ := List.mem_map.1 h
      exact ⟨k, p, rfl⟩
    · simp at h

theorem synthesizedBy_of_mem_broughtColumns {r : Reference} {c : Column}
    (h : c ∈ r.broughtColumns) : c.synthesizedBy = some r.field := by
  obtain ⟨k, p, rfl⟩ := eq_broughtColumn_of_mem h
  rfl

theorem isMarkedBy_of_mem_broughtColumns {r : Reference} {c : Column}
    (h : c ∈ r.broughtColumns) : c.isMarkedBy r.field := by
  rw [Column.isMarkedBy, synthesizedBy_of_mem_broughtColumns h, beq_self_eq_true]

theorem broughtColumns_of_unresolved {r : Reference} (h : r.resolution = none) :
    r.broughtColumns = [] := by
  simp [broughtColumns, h]

theorem broughtColumns_of_explicit {r : Reference} (h : r.isImplicit = false) :
    r.broughtColumns = [] := by
  unfold broughtColumns
  split <;> simp [h]

theorem isImplicit_of_mem_broughtColumns {r : Reference} {c : Column}
    (h : c ∈ r.broughtColumns) : r.isImplicit := by
  cases himplicit : r.isImplicit with
  | true => rfl
  | false =>
    rw [broughtColumns_of_explicit himplicit] at h
    exact absurd h List.not_mem_nil

theorem broughtColumns_of_implicit {r : Reference} {resolution : Resolution} {separator : String}
    (h : r.isImplicit) (hres : r.resolution = some resolution)
    (hpairs : resolution.pairs = r.sourcePairs separator resolution.key) :
    r.broughtColumns = r.columnsFor separator resolution.key := by
  simp only [broughtColumns, hres, h, if_true, hpairs, sourcePairs]
  -- the pairs are made from the key, so that zipping them with it is one map over the key
  rw [← List.map_id resolution.key, List.map_map, List.zip_map', List.map_map, columnsFor,
    List.map_map]
  rfl

/-- Gives the reference of the field a resolution, or takes it away; other references stay. -/
def resolveAt (field : String) (resolution : Option Resolution) (r : Reference) : Reference :=
  if r.field = field then { r with resolution := resolution } else r

@[simp] theorem field_resolveAt (field : String) (resolution : Option Resolution)
    (r : Reference) : (resolveAt field resolution r).field = r.field := by
  unfold resolveAt; split <;> rfl

@[simp] theorem place_resolveAt (field : String) (resolution : Option Resolution)
    (r : Reference) : (resolveAt field resolution r).place = r.place := by
  unfold resolveAt; split <;> rfl

@[simp] theorem isImplicit_resolveAt (field : String) (resolution : Option Resolution)
    (r : Reference) : (resolveAt field resolution r).isImplicit = r.isImplicit := by
  unfold resolveAt; split <;> rfl

theorem resolveAt_self (f : Reference) (resolution : Option Resolution) :
    resolveAt f.field resolution f = { f with resolution := resolution } :=
  if_pos rfl

/-- An implicit reference that is resolved brings the columns made for it. -/
theorem broughtColumns_resolveAt_self {f : Reference} (h : f.isImplicit) (target : ModelId)
    (key : PrimaryKey) (separator : String) :
    (resolveAt f.field (some ⟨target, key, f.sourcePairs separator key⟩) f).broughtColumns =
      f.columnsFor separator key := by
  rw [resolveAt_self]
  exact broughtColumns_of_implicit
    (r := { f with resolution := some ⟨target, key, f.sourcePairs separator key⟩ }) h rfl rfl

theorem resolveAt_of_ne {field : String} {resolution : Option Resolution} {r : Reference}
    (h : r.field ≠ field) : resolveAt field resolution r = r :=
  if_neg h

/-- Among references with different fields, changing the one at an index is changing the one of
its field. -/
theorem modify_eq_map {references : List Reference} (h : (references.map (·.field)).Nodup)
    {index : Nat} {f : Reference} (hf : references[index]? = some f)
    (resolution : Option Resolution) :
    references.modify index (fun r => { r with resolution := resolution }) =
      references.map (resolveAt f.field resolution) := by
  apply List.ext_getElem?
  intro j
  rw [List.getElem?_modify, List.getElem?_map]
  by_cases hj : index = j
  · subst hj
    simp [hf, resolveAt]
  · cases hr : references[j]? with
    | none => simp
    | some r =>
      -- two indices with one field would be one index
      have hne : r.field ≠ f.field := by
        intro heq
        have hlen : index < (references.map (·.field)).length := by
          rw [List.length_map]
          exact (List.getElem?_eq_some_iff.1 hf).1
        have hsame : (references.map (·.field))[index]? = (references.map (·.field))[j]? := by
          simp [hf, hr, heq]
        exact hj ((List.getElem?_inj hlen h).1 hsame)
      simp [hj, resolveAt_of_ne hne]

end Reference

def Declaration.resolveAt (field : String) (resolution : Option Resolution) :
    Declaration → Declaration :=
  Declaration.map (fun c => c) (Reference.resolveAt field resolution)

/-- The columns that stand at a declaration. -/
def Declaration.columns : Declaration → List Column
  | .column c => [c]
  | .reference r => r.broughtColumns

/-- The columns at a declaration when the reference of the field has brought new ones. -/
def Declaration.columnsWith (field : String) (new : List Column) : Declaration → List Column
  | .column c => [c]
  | .reference r => if r.field = field then new else r.broughtColumns

namespace Model

/-! ## 2. Laid out models -/

structure Laid (m : Model) : Prop where
  nodup_names : m.names.Nodup
  columns_eq : m.columns = m.declarations.flatMap Declaration.columns
  foreignKey_eq : ∀ c ∈ m.columns, c.foreignKey = m.isForeignKey c
  pairs_eq : ∀ f ∈ m.references, ∀ resolution, f.resolution = some resolution → f.isImplicit →
    ∃ separator, resolution.pairs = f.sourcePairs separator resolution.key

theorem flatMap_columns_of_unresolved {ds : List Declaration}
    (h : ∀ r ∈ referencesOf ds, r.resolution = none) :
    ds.flatMap Declaration.columns = columnsOf ds := by
  induction ds with
  | nil => rfl
  | cons d ds ih =>
    cases d with
    | column c =>
      show c :: ds.flatMap Declaration.columns = c :: columnsOf ds
      rw [ih h]
    | reference r =>
      show r.broughtColumns ++ ds.flatMap Declaration.columns = columnsOf ds
      rw [Reference.broughtColumns_of_unresolved (h r List.mem_cons_self),
        ih fun r' hr' => h r' (List.mem_cons_of_mem _ hr'), List.nil_append]

/-- Nothing but the declared columns stands in a model before its first resolution. -/
theorem Fresh.laid {m : Model} (h : m.Fresh) : m.Laid where
  nodup_names := h.nodup_names
  columns_eq := by
    have hopen : ∀ r ∈ referencesOf m.declarations, r.resolution = none := by
      rw [referencesOf_declarations]
      exact h.resolution_eq_none
    rw [flatMap_columns_of_unresolved hopen, columnsOf_declarations, h.declaredColumns_eq]
  foreignKey_eq c hc := by
    have hnone : m.references.any (·.usesSource c.name) = false := by
      rw [List.any_eq_false]
      intro f hf
      simp [Reference.usesSource, Reference.isResolved, h.resolution_eq_none f hf]
    obtain ⟨hmark, hflag⟩ := h.column_eq c hc
    simp [isForeignKey, Column.isSynthesized, hmark, hflag, hnone]
  pairs_eq f hf resolution hres := by simp [h.resolution_eq_none f hf] at hres

namespace Laid

variable {m : Model}

theorem nodup_fields (h : m.Laid) : (m.references.map (·.field)).Nodup :=
  (List.nodup_append.1 h.nodup_names).2.1

theorem nodup_columnNames (h : m.Laid) : (m.columns.map (·.name)).Nodup :=
  (List.nodup_append.1 h.nodup_names).1

theorem reference_inj (h : m.Laid) {f g : Reference} (hf : f ∈ m.references)
    (hg : g ∈ m.references) (hfield : f.field = g.field) : f = g :=
  List.inj_on_of_nodup_map h.nodup_fields hf hg hfield

theorem column_inj (h : m.Laid) {c d : Column} (hc : c ∈ m.columns) (hd : d ∈ m.columns)
    (hname : c.name = d.name) : c = d :=
  List.inj_on_of_nodup_map h.nodup_columnNames hc hd hname

theorem name_ne_field (h : m.Laid) {c : Column} (hc : c ∈ m.columns) {f : Reference}
    (hf : f ∈ m.references) : c.name ≠ f.field :=
  (List.nodup_append.1 h.nodup_names).2.2 _ (List.mem_map_of_mem hc) _ (List.mem_map_of_mem hf)

/-- A column is declared, or some reference has brought it. -/
theorem mem_columns_iff (h : m.Laid) {c : Column} :
    c ∈ m.columns ↔ c ∈ m.declaredColumns ∨ ∃ r ∈ m.references, c ∈ r.broughtColumns := by
  conv_lhs => rw [h.columns_eq]
  rw [List.mem_flatMap]
  constructor
  · rintro ⟨c' | r, hd, hc⟩
    · obtain rfl := List.mem_singleton.1 hc
      exact .inl (column_mem_declarations.1 hd)
    · exact .inr ⟨r, reference_mem_declarations.1 hd, hc⟩
  · rintro (hc | ⟨r, hr, hc⟩)
    · exact ⟨.column c, column_mem_declarations.2 hc, List.mem_singleton_self c⟩
    · exact ⟨.reference r, reference_mem_declarations.2 hr, hc⟩

end Laid

end Model

end RelSchema
