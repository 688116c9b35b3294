import RelSchema.Model

/-!
# Layout of a model's columns

The columns synthesized for a reference stand at the reference's place among the declarations. They
join the model when the reference resolves and leave it when the resolution is dropped.
-/

namespace RelSchema

namespace Model

/-- Puts references between columns: a reference goes in front of the column whose index, counted
from `index`, its place has reached. -/
def weave (index : Nat) : List Column → List Reference → List Declaration
  | [], references => references.map .reference
  | c :: columns, references =>
      (references.takeWhile (·.place ≤ index)).map .reference
        ++ .column c :: weave (index + 1) columns (references.dropWhile (·.place ≤ index))

/-- Columns and references in the order in which they were declared. -/
def declarations (m : Model) : List Declaration :=
  weave 0 m.declaredColumns m.references

/-- The columns among declarations. -/
def columnsOf (ds : List Declaration) : List Column :=
  ds.filterMap fun
    | .column c => some c
    | .reference _ => none

/-- The references among declarations. -/
def referencesOf (ds : List Declaration) : List Reference :=
  ds.filterMap fun
    | .column _ => none
    | .reference r => some r

@[simp] theorem columnsOf_append (ds es : List Declaration) :
    columnsOf (ds ++ es) = columnsOf ds ++ columnsOf es :=
  List.filterMap_append ..

@[simp] theorem referencesOf_append (ds es : List Declaration) :
    referencesOf (ds ++ es) = referencesOf ds ++ referencesOf es :=
  List.filterMap_append ..

@[simp] theorem columnsOf_map_reference (references : List Reference) :
    columnsOf (references.map .reference) = [] := by
  induction references with
  | nil => rfl
  | cons r references ih => exact ih

@[simp] theorem referencesOf_map_reference (references : List Reference) :
    referencesOf (references.map .reference) = references := by
  induction references with
  | nil => rfl
  | cons r references ih => exact congrArg (r :: ·) ih

theorem columnsOf_weave (index : Nat) (columns : List Column) (references : List Reference) :
    columnsOf (weave index columns references) = columns := by
  induction columns generalizing index references with
  | nil => simp [weave]
  | cons c columns ih =>
    rw [weave, columnsOf_append, columnsOf_map_reference, List.nil_append]
    exact congrArg (c :: ·) (ih (index + 1) _)

theorem referencesOf_weave (index : Nat) (columns : List Column) (references : List Reference) :
    referencesOf (weave index columns references) = references := by
  induction columns generalizing index references with
  | nil => simp [weave]
  | cons c columns ih =>
    rw [weave, referencesOf_append, referencesOf_map_reference]
    have h : referencesOf (.column c :: weave (index + 1) columns
        (references.dropWhile (·.place ≤ index))) = references.dropWhile (·.place ≤ index) :=
      ih (index + 1) _
    rw [h, List.takeWhile_append_dropWhile]

/-- No declared column is lost or moved. -/
theorem columnsOf_declarations (m : Model) : columnsOf m.declarations = m.declaredColumns :=
  columnsOf_weave ..

/-- No reference is lost or moved. -/
theorem referencesOf_declarations (m : Model) : referencesOf m.declarations = m.references :=
  referencesOf_weave ..

/-- The columns that stand at a declaration. -/
def columnsAt (m : Model) : Declaration → List Column
  | .column c => [c]
  | .reference r => m.columns.filter (·.isMarkedBy r.field)

/-- Columns marked by a field that the model does not have, as copies from another model are. -/
def strayColumns (m : Model) : List Column :=
  m.columns.filter fun c => c.isSynthesized && !m.references.any fun r => c.isMarkedBy r.field

/-- Brings every synthesized column to the place of its reference, strays to the end. -/
def arrange (m : Model) : Model :=
  { m with columns := m.declarations.flatMap m.columnsAt ++ m.strayColumns }

theorem filter_columnsAt (m : Model) (ds : List Declaration) :
    (ds.flatMap m.columnsAt).filter (!·.isSynthesized) =
      (columnsOf ds).filter (!·.isSynthesized) := by
  induction ds with
  | nil => rfl
  | cons d ds ih =>
    rw [List.flatMap_cons, List.filter_append, ih]
    cases d with
    | column c =>
      show [c].filter _ ++ (columnsOf ds).filter _ = (c :: columnsOf ds).filter _
      rw [← List.filter_append, List.singleton_append]
    | reference r =>
      have h : (m.columnsAt (.reference r)).filter (!·.isSynthesized) = [] := by
        simp only [columnsAt, List.filter_filter, List.filter_eq_nil_iff, Bool.and_eq_true,
          Bool.not_eq_true', not_and, Bool.not_eq_true]
        intro c _ hc
        cases hmark : c.isMarkedBy r.field
        · rfl
        · simp [Column.isSynthesized_of_isMarkedBy hmark] at hc
      rw [h, List.nil_append]
      rfl

/-- Arranging leaves the declared columns in their order. -/
@[simp] theorem declaredColumns_arrange (m : Model) :
    m.arrange.declaredColumns = m.declaredColumns := by
  have hstray : m.strayColumns.filter (!·.isSynthesized) = [] := by
    simp only [strayColumns, List.filter_filter, List.filter_eq_nil_iff]
    intro c _
    cases c.isSynthesized <;> simp
  show (m.declarations.flatMap m.columnsAt ++ m.strayColumns).filter (!·.isSynthesized) = _
  rw [List.filter_append, hstray, List.append_nil, filter_columnsAt, columnsOf_declarations]
  simp [declaredColumns]

/-- Adds columns one after the other. -/
def addColumns : Model → List Column → Except Error Model
  | m, [] => .ok m
  | m, c :: columns =>
      match m.addColumn c with
      | .error e => .error e
      | .ok added => added.addColumns columns

/-- Adds the columns synthesized for a reference at the place of the reference. -/
def addSynthesized (m : Model) (columns : List Column) : Except Error Model :=
  match m.addColumns columns with
  | .error e => .error e
  | .ok added => .ok added.arrange

/-- Removes every column that carries the mark of the field. -/
def removeSynthesized (m : Model) (field : String) : Model :=
  { m with columns := m.columns.filter (!·.isMarkedBy field) }

def synthesizedCount (m : Model) (field : String) : Nat :=
  m.columns.countP (·.isMarkedBy field)

theorem length_columns_removeSynthesized (m : Model) (field : String) :
    (m.removeSynthesized field).columns.length + m.synthesizedCount field = m.columns.length := by
  simp only [removeSynthesized, synthesizedCount]
  induction m.columns with
  | nil => rfl
  | cons c columns ih =>
    by_cases h : c.isMarkedBy field <;> simp [h] <;> omega

/-- Declared columns stay, whatever is removed. -/
@[simp] theorem declaredColumns_removeSynthesized (m : Model) (field : String) :
    (m.removeSynthesized field).declaredColumns = m.declaredColumns := by
  simp only [declaredColumns, removeSynthesized, List.filter_filter]
  refine List.filter_congr fun c _ => ?_
  cases h : c.isMarkedBy field
  · simp
  · simp [Column.isSynthesized_of_isMarkedBy h]

end Model

end RelSchema
