import RelSchema.Error
import RelSchema.Reference

/-!
# Tables

The table-level schema: tables with columns, primary keys and foreign key constraints. Tables and
columns are identified by position, and a look-up trusts the identifier that it is given.
-/

namespace RelSchema.Storage

/-- Storage classes of the database. -/
inductive StorageClass where
  | integer
  | real
  | text
  | blob
  deriving DecidableEq

namespace StorageClass

def ofColumnType : ColumnType → StorageClass
  | .integer => .integer
  | .real => .real
  | .text => .text
  | .blob => .blob

def keyword : StorageClass → String
  | .integer => "INTEGER"
  | .real => "REAL"
  | .text => "TEXT"
  | .blob => "BLOB"

/-- The keyword of a column type is its name in capitals. -/
theorem keyword_ofColumnType (t : ColumnType) : (ofColumnType t).keyword = t.name.toUpper := by
  cases t <;> decide +kernel

end StorageClass

/-- Position of a table in its schema. -/
abbrev TableId := Nat

structure ColumnId where
  table : TableId
  index : Nat
  deriving DecidableEq

structure Column where
  id : ColumnId
  name : String
  type : StorageClass
  nullable : Bool
  primaryKey : Bool
  foreignKey : Bool
  deriving DecidableEq

/-- A referencing column and the key column that it references. -/
structure ColumnPair where
  source : ColumnId
  target : ColumnId
  deriving DecidableEq

structure Constraint where
  field : String
  target : TableId
  pairs : List ColumnPair
  onDelete : Action
  onUpdate : Action
  deferred : Bool
  deriving DecidableEq

structure Table where
  id : TableId
  name : String
  model : String
  columns : List Column := []
  primaryKey : List ColumnId := []
  constraints : List Constraint := []
  deriving DecidableEq

structure Schema where
  tables : List Table
  deriving DecidableEq

/-! ## 1. Identifiers as text -/

def TableId.text (id : TableId) : String :=
  "TableId(" ++ toString id ++ ")"

def ColumnId.text (id : ColumnId) : String :=
  "ColumnId(" ++ toString id.table ++ "/" ++ toString id.index ++ ")"

/-! ## 2. Look-ups -/

namespace Table

/-- The column at the index of the id; the table of the id is not looked at. -/
def column (t : Table) (id : ColumnId) : Except Fault Column :=
  match t.columns[id.index]? with
  | some c => .ok c
  | none => .error (.outOfBounds t.columns.length id.index)

def columnNamed? (t : Table) (name : String) : Option Column :=
  t.columns.find? (·.name == name)

def keyColumns (t : Table) : Except Fault (List Column) :=
  t.primaryKey.mapM t.column

/-- The constraint that a field of the model declared. -/
def constraint? (t : Table) (field : String) : Option Constraint :=
  t.constraints.find? (·.field == field)

end Table

namespace Schema

def table (s : Schema) (id : TableId) : Except Fault Table :=
  match s.tables[id]? with
  | some t => .ok t
  | none => .error .tableId

def tableNamed? (s : Schema) (name : String) : Option Table :=
  s.tables.find? (·.name == name)

def column (s : Schema) (id : ColumnId) : Except Fault Column :=
  match s.table id.table with
  | .error f => .error f
  | .ok t =>
    match t.columns[id.index]? with
    | some c => .ok c
    | none => .error .columnId

/-- The column that the id stored in a column leads to, with that id. -/
def columnBehind (s : Schema) (id : TableId) (position : Nat) :
    Except Fault (ColumnId × Column) := do
  let t ← s.table id
  let stored ← t.column ⟨id, position⟩
  let c ← s.column stored.id
  return (stored.id, c)

/-- The name of a constraint's target table and the names of its paired columns. -/
def pairNames (s : Schema) (c : Constraint) : Except Fault (String × List (String × String)) := do
  let target ← s.table c.target
  let names ← c.pairs.mapM fun pair => do
    let source ← s.column pair.source
    let referenced ← s.column pair.target
    return (source.name, referenced.name)
  return (target.name, names)

end Schema

end RelSchema.Storage
