import Mathlib.Data.List.Basic
import RelSchema.Model.Layout

/-!
# Models as they are declared

A fresh model has only been declared: its columns carry no mark and its references are unresolved.
The bare form of a model takes away what registration and resolution have added to it; a fresh model
is its own bare form.
-/

namespace RelSchema

/-! ## 1. Fresh declarations -/

/-- A column as its constructor and setters make it. -/
def Column.Fresh (c : Column) : Prop :=
  c.synthesizedBy = none ∧ c.declaredForeignKey = false

/-- A reference as its constructor and setters make it. -/
def Reference.Fresh (r : Reference) : Prop :=
  r.resolution = none ∧ r.place = 0

def Declaration.Fresh : Declaration → Prop
  | .column c => c.Fresh
  | .reference r => r.Fresh

instance : DecidablePred Column.Fresh := fun c =>
  inferInstanceAs (Decidable (c.synthesizedBy = none ∧ c.declaredForeignKey = false))

instance : DecidablePred Reference.Fresh := fun r =>
  inferInstanceAs (Decidable (r.resolution = none ∧ r.place = 0))

instance : DecidablePred Declaration.Fresh
  | .column c => inferInstanceAs (Decidable c.Fresh)
  | .reference r => inferInstanceAs (Decidable r.Fresh)

/-- A model that was made under a name and has since been given a table name and fresh fields. A
declaration that is refused leaves the model as it was, so it is no step here. -/
inductive Model.Fresh : Model → Prop
  | new (name : String) : Model.Fresh { name := name }
  | named {m : Model} (h : m.Fresh) (table : String) :
      Model.Fresh { m with tableName := some table }
  | declare {m added : Model} {d : Declaration} (h : m.Fresh) (hd : d.Fresh)
      (hadd : m.declare d = .ok added) : added.Fresh

/-- The model with the fields declared in turn; one that is refused is left out. -/
def Model.ofFields (name : String) (fields : List Declaration) : Model :=
  fields.foldl (fun m d => match m.declare d with | .ok added => added | .error _ => m)
    { name := name }

theorem Model.fresh_ofFields (name : String) (fields : List Declaration)
    (h : ∀ d ∈ fields, d.Fresh) : (Model.ofFields name fields).Fresh := by
  refine List.foldlRecOn (motive := Model.Fresh) fields _ (.new name) fun m hm d hd => ?_
  cases hadd : m.declare d with
  | ok added => exact .declare hm (h d hd) hadd
  | error e => exact hm

namespace Model.Fresh

theorem id_eq_none {m : Model} (h : m.Fresh) : m.id = none := by
  induction h with
  | new => rfl
  | named _ _ ih => exact ih
  | @declare m added d _ _ hadd ih =>
    cases d with
    | column c => obtain ⟨-, rfl⟩ := addColumn_eq_ok_iff.1 hadd; exact ih
    | reference r => obtain ⟨-, rfl⟩ := addReference_eq_ok_iff.1 hadd; exact ih

theorem nodup_names {m : Model} (h : m.Fresh) : m.names.Nodup := by
  induction h with
  | new => exact List.nodup_nil
  | named _ _ ih => exact ih
  | declare _ _ hadd ih => exact nodup_names_declare hadd ih

/-- No column is marked, and every flag is the declared one. -/
theorem column_eq {m : Model} (h : m.Fresh) :
    ∀ c ∈ m.columns, c.synthesizedBy = none ∧ c.foreignKey = c.declaredForeignKey := by
  induction h with
  | new => simp
  | named _ _ ih => exact ih
  | @declare m added d _ hd hadd ih =>
    -- a declaration adds one column or one reference, at the end
    cases d with
    | column c =>
      obtain ⟨-, rfl⟩ := addColumn_eq_ok_iff.1 hadd
      intro c' hc'
      rcases List.mem_append.1 hc' with hc' | hc'
      · exact ih c' hc'
      · obtain rfl := List.mem_singleton.1 hc'
        exact ⟨hd.1, rfl⟩
    | reference r => obtain ⟨-, rfl⟩ := addReference_eq_ok_iff.1 hadd; exact ih

theorem resolution_eq_none {m : Model} (h : m.Fresh) :
    ∀ f ∈ m.references, f.resolution = none := by
  induction h with
  | new => simp
  | named _ _ ih => exact ih
  | @declare m added d _ hd hadd ih =>
    cases d with
    | column c => obtain ⟨-, rfl⟩ := addColumn_eq_ok_iff.1 hadd; exact ih
    | reference r =>
      obtain ⟨-, rfl⟩ := addReference_eq_ok_iff.1 hadd
      intro f hf
      rcases List.mem_append.1 hf with hf | hf
      · exact ih f hf
      · obtain rfl := List.mem_singleton.1 hf
        exact hd.1

end Model.Fresh

/-! ## 2. The bare form -/

/-- The column with its declared flag, whatever resolution has made of the flag. -/
def Column.bare (c : Column) : Column :=
  { c with foreignKey := c.declaredForeignKey }

theorem Column.bare_eq_self {c : Column} (h : c.foreignKey = c.declaredForeignKey) :
    c.bare = c := by
  cases c
  dsimp only at h
  subst h
  rfl

def Reference.bare (r : Reference) : Reference :=
  { r with resolution := none }

def Declaration.map (onColumn : Column → Column) (onReference : Reference → Reference) :
    Declaration → Declaration
  | .column c => .column (onColumn c)
  | .reference r => .reference (onReference r)

def Declaration.bare : Declaration → Declaration :=
  Declaration.map Column.bare Reference.bare

namespace Model

/-- The model without its id, its synthesized columns and its resolutions. -/
def bare (m : Model) : Model :=
  { m with
    id := none
    columns := m.declaredColumns.map Column.bare
    references := m.references.map Reference.bare }

/-- The order of declarations depends only on the number of columns and the places of references. -/
theorem weave_map {onColumn : Column → Column} {onReference : Reference → Reference}
    (hplace : ∀ r, (onReference r).place = r.place) (index : Nat) (columns : List Column)
    (references : List Reference) :
    weave index (columns.map onColumn) (references.map onReference) =
      (weave index columns references).map (Declaration.map onColumn onReference) := by
  induction columns generalizing index references with
  | nil => simp [weave, Declaration.map, Function.comp_def]
  | cons c columns ih =>
    have hcomp : (fun r : Reference => decide (r.place ≤ index)) ∘ onReference =
        fun r => decide (r.place ≤ index) := by
      funext r
      simp only [Function.comp_apply, hplace]
    -- where the references are cut is decided by their places, which the change keeps
    rw [List.map_cons, weave, weave, List.takeWhile_map, List.dropWhile_map, hcomp, ih]
    simp [Declaration.map, Function.comp_def]

theorem declarations_eq_map {m n : Model} {onColumn : Column → Column}
    {onReference : Reference → Reference} (hplace : ∀ r, (onReference r).place = r.place)
    (hcolumns : n.declaredColumns = m.declaredColumns.map onColumn)
    (hreferences : n.references = m.references.map onReference) :
    n.declarations = m.declarations.map (Declaration.map onColumn onReference) := by
  rw [declarations, hcolumns, hreferences]
  exact weave_map hplace 0 _ _

theorem declaredColumns_bare (m : Model) :
    m.bare.declaredColumns = m.declaredColumns.map Column.bare := by
  simp only [declaredColumns, bare, List.filter_map, List.filter_filter, Function.comp_def,
    Column.bare, Column.isSynthesized, Bool.and_self]

theorem declarations_bare (m : Model) : m.bare.declarations = m.declarations.map .bare :=
  declarations_eq_map (fun _ => rfl) m.declaredColumns_bare rfl

theorem Fresh.declaredColumns_eq {m : Model} (h : m.Fresh) : m.declaredColumns = m.columns := by
  apply List.filter_eq_self.2
  intro c hc
  simp [Column.isSynthesized, (h.column_eq c hc).1]

/-- A fresh model is its own bare form. -/
theorem Fresh.bare_eq {m : Model} (h : m.Fresh) : m.bare = m := by
  have hcolumns : m.declaredColumns.map Column.bare = m.columns := by
    rw [h.declaredColumns_eq]
    refine (List.map_congr_left fun c hc => ?_).trans (List.map_id _)
    exact Column.bare_eq_self (h.column_eq c hc).2
  have hreferences : m.references.map Reference.bare = m.references := by
    refine (List.map_congr_left fun f hf => ?_).trans (List.map_id _)
    rw [Reference.bare, ← h.resolution_eq_none f hf, id_eq]
  rw [bare, hcolumns, hreferences, ← h.id_eq_none]

theorem column_mem_declarations {m : Model} {c : Column} :
    .column c ∈ m.declarations ↔ c ∈ m.declaredColumns := by
  rw [← columnsOf_declarations, columnsOf, List.mem_filterMap]
  constructor
  · exact fun h => ⟨_, h, rfl⟩
  · rintro ⟨_ | _, hd, h⟩ <;> simp_all

theorem reference_mem_declarations {m : Model} {r : Reference} :
    .reference r ∈ m.declarations ↔ r ∈ m.references := by
  conv_rhs => rw [← referencesOf_declarations]
  rw [referencesOf, List.mem_filterMap]
  constructor
  · exact fun h => ⟨_, h, rfl⟩
  · rintro ⟨_ | _, hd, h⟩ <;> simp_all

end Model

end RelSchema
