import RelSchema.Error
import RelSchema.Reference

/-!
# Models

A model holds its columns and its references, each in order. Columns and reference fields share one
namespace. What was declared can be read back in the order in which it was declared: every
reference knows how many declared columns stand before it.
-/

namespace RelSchema

/-- `id` is the position that a registry gave to the model. -/
structure Model where
  name : String
  tableName : Option String := none
  id : Option ModelId := none
  columns : List Column := []
  references : List Reference := []
  deriving DecidableEq

/-- One field of a model as it is declared. -/
inductive Declaration where
  | column (c : Column)
  | reference (r : Reference)
  deriving DecidableEq

namespace Declaration

def name : Declaration → String
  | .column c => c.name
  | .reference r => r.field

end Declaration

namespace Model

/-! ## 1. Look-ups -/

def column? (m : Model) (name : String) : Option Column :=
  m.columns.find? (·.name == name)

def reference? (m : Model) (field : String) : Option Reference :=
  m.references.find? (·.field == field)

/-- All names in use, of columns and of reference fields. -/
def names (m : Model) : List String :=
  m.columns.map (·.name) ++ m.references.map (·.field)

def isNameTaken (m : Model) (name : String) : Bool :=
  m.names.contains name

/-- The columns that no reference synthesized, in order. -/
def declaredColumns (m : Model) : List Column :=
  m.columns.filter (!·.isSynthesized)

/-! ## 2. The primary key -/

/-- Shape of the columns flagged as key; empty when there is none. -/
def keyShape (m : Model) : PrimaryKey :=
  (m.columns.filter (·.primaryKey)).map KeyColumn.ofColumn

/-- The primary key, which must not be empty. -/
def key (m : Model) : Except Error PrimaryKey :=
  if m.keyShape.isEmpty then .error (.missingPrimaryKey m.name) else .ok m.keyShape

theorem key_eq_ok_iff {m : Model} {key : PrimaryKey} :
    m.key = .ok key ↔ m.keyShape = key ∧ key ≠ [] := by
  simp only [Model.key, List.isEmpty_iff]
  split
  · rename_i h
    simp only [reduceCtorEq, false_iff]
    rintro ⟨rfl, h'⟩
    exact h' h
  · rename_i h
    constructor
    · rintro ⟨rfl⟩
      exact ⟨rfl, h⟩
    · rintro ⟨rfl, -⟩
      rfl

/-- Whether every reference that is part of the key is resolved, so that the key cannot grow. -/
def isKeyFinal (m : Model) : Bool :=
  (m.references.filter (·.primaryKey)).all (·.isResolved)

/-- The first reference that keeps the key from being final. -/
def openKeyReference? (m : Model) : Option Reference :=
  m.references.find? fun r => r.primaryKey && !r.isResolved

theorem openKeyReference?_eq_none_iff (m : Model) :
    m.openKeyReference? = none ↔ m.isKeyFinal := by
  simp only [openKeyReference?, isKeyFinal, List.find?_eq_none, List.all_filter, List.all_eq_true]
  refine forall_congr' fun r => forall_congr' fun _ => ?_
  cases r.primaryKey <;> simp

/-! ## 3. Declaring fields -/

/-- Adds a column after all others. -/
def addColumn (m : Model) (c : Column) : Except Error Model :=
  if m.isNameTaken c.name then .error (.duplicateColumn m.name c.name)
  else .ok { m with columns := m.columns ++ [{ c with declaredForeignKey := c.foreignKey }] }

/-- Adds a reference, whose place is behind all columns declared so far. -/
def addReference (m : Model) (r : Reference) : Except Error Model :=
  if m.isNameTaken r.field then .error (.duplicateColumn m.name r.field)
  else .ok { m with references := m.references ++ [{ r with place := m.declaredColumns.length }] }

def declare (m : Model) : Declaration → Except Error Model
  | .column c => m.addColumn c
  | .reference r => m.addReference r

theorem addColumn_eq_ok_iff {m added : Model} {c : Column} :
    m.addColumn c = .ok added ↔
      c.name ∉ m.names ∧
        added =
          { m with columns := m.columns ++ [{ c with declaredForeignKey := c.foreignKey }] } := by
  unfold addColumn isNameTaken
  by_cases h : c.name ∈ m.names <;> simp [h, eq_comm]

theorem addReference_eq_ok_iff {m added : Model} {r : Reference} :
    m.addReference r = .ok added ↔
      r.field ∉ m.names ∧
        added =
          { m with
            references := m.references ++ [{ r with place := m.declaredColumns.length }] } := by
  unfold addReference isNameTaken
  by_cases h : r.field ∈ m.names <;> simp [h, eq_comm]

/-- A declared field brings its own name and no other. -/
theorem names_declare {m added : Model} {d : Declaration} (h : m.declare d = .ok added) :
    added.names.Perm (d.name :: m.names) := by
  cases d with
  | column c =>
    obtain ⟨-, rfl⟩ := addColumn_eq_ok_iff.1 h
    simp only [names, List.map_append, List.map_cons, List.map_nil, List.append_assoc,
      List.singleton_append]
    exact List.perm_middle
  | reference r =>
    obtain ⟨-, rfl⟩ := addReference_eq_ok_iff.1 h
    simp only [names, List.map_append, List.map_cons, List.map_nil, ← List.append_assoc]
    exact List.perm_append_comm

theorem notMem_names_of_declare {m added : Model} {d : Declaration} (h : m.declare d = .ok added) :
    d.name ∉ m.names := by
  cases d with
  | column c => exact (addColumn_eq_ok_iff.1 h).1
  | reference r => exact (addReference_eq_ok_iff.1 h).1

/-- The names of a model stay different from each other. -/
theorem nodup_names_declare {m added : Model} {d : Declaration} (h : m.declare d = .ok added)
    (hm : m.names.Nodup) : added.names.Nodup :=
  (names_declare h).nodup_iff.2 (List.nodup_cons.2 ⟨notMem_names_of_declare h, hm⟩)

/-! ## 4. Foreign key flags -/

/-- A column is the source of a reference when it was declared so, when it was synthesized, or
when a resolved reference pairs it. -/
def isForeignKey (m : Model) (c : Column) : Bool :=
  c.declaredForeignKey || c.isSynthesized || m.references.any (·.usesSource c.name)

def refreshForeignKeys (m : Model) : Model :=
  { m with columns := m.columns.map fun c => { c with foreignKey := m.isForeignKey c } }

/-- Records or clears the resolution of a reference and brings the flags up to date. -/
def setResolution (m : Model) (index : Nat) (resolution : Option Resolution) : Model :=
  let references := m.references.modify index fun r => { r with resolution := resolution }
  { m with references := references }.refreshForeignKeys

@[simp] theorem names_refreshForeignKeys (m : Model) : m.refreshForeignKeys.names = m.names := by
  simp [names, refreshForeignKeys, Function.comp_def]

@[simp] theorem keyShape_refreshForeignKeys (m : Model) :
    m.refreshForeignKeys.keyShape = m.keyShape := by
  simp [keyShape, refreshForeignKeys, List.filter_map, Function.comp_def, KeyColumn.ofColumn]

end Model

end RelSchema
