import RelSchema.Registry
import RelSchema.Resolve.Run
import RelSchema.Storage.Verify

/-!
# Assembly of tables

Every model of a resolved registry becomes a table at the model's position. Constraints are made
once all tables exist, since they may point at later tables and at their own.
-/

namespace RelSchema

structure BuildOptions where
  tablePrefix : Option String := none
  separator : String := Registry.defaultSeparator
  verify : Bool := true

namespace BuildOptions

/-- The prefix goes in front of the table name that the model declares, or else of its own name. -/
def tableName (o : BuildOptions) (m : Model) : String :=
  o.tablePrefix.getD "" ++ m.tableName.getD m.name

end BuildOptions

namespace Storage

namespace Column

def ofModelColumn (table : TableId) (c : RelSchema.Column) (index : Nat) : Column where
  id := ⟨table, index⟩
  name := c.name
  type := .ofColumnType c.type
  nullable := c.nullable
  primaryKey := c.primaryKey
  foreignKey := c.foreignKey

end Column

namespace Table

/-- The table of a model, as yet without constraints. -/
def ofModel (id : TableId) (name : String) (m : Model) : Table :=
  let columns := m.columns.mapIdx fun i c => Column.ofModelColumn id c i
  { id := id
    name := name
    model := m.name
    columns := columns
    primaryKey := (columns.filter (·.primaryKey)).map (·.id) }

/-- The id of a column that a constraint needs by name. -/
def columnId (t : Table) (name : String) : Except Failure ColumnId :=
  match t.columnNamed? name with
  | some c => .ok c.id
  | none =>
      .error (.error (.adHoc
        ("table " ++ backquoted t.name ++ " has no column " ++ backquoted name)))

end Table

end Storage

namespace Registry

open Storage (Table TableId Constraint ColumnPair Schema)

/-- The references that are unresolved or stale, as `model.field`. -/
def unsettled (r : Registry) : List String :=
  r.models.flatMap fun m =>
    (m.references.filter fun f => !f.isResolved || r.isStale f).map fun f =>
      m.name ++ "." ++ f.field

/-- Adds the table of the next model. -/
def addTable (o : BuildOptions) (tables : List Table) (m : Model) : Except Failure (List Table) :=
  let name := o.tableName m
  if tables.any (·.name == name) then .error (.error (.duplicateTable m.name name))
  else if m.keyShape.isEmpty then .error (.error (.missingPrimaryKey m.name))
  else .ok (tables ++ [Table.ofModel tables.length name m])

def columnPair (source target : Table) (p : Pair) : Except Failure ColumnPair :=
  match source.columnId p.source with
  | .error e => .error e
  | .ok sourceId =>
    match target.columnId p.target with
    | .error e => .error e
    | .ok targetId => .ok ⟨sourceId, targetId⟩

/-- The constraint of a resolved reference of the model behind table `t`. -/
def constraint (tables : List Table) (t : Table) (f : Reference) : Except Failure Constraint :=
  match f.resolution with
  | none => .error (.error (.adHoc (member t.model f.field ++ " is not resolved")))
  | some resolution =>
    match tables[resolution.target]? with
    | none => .error (.fault (.outOfBounds tables.length resolution.target))
    | some target =>
      match resolution.pairs.mapM (columnPair t target) with
      | .error e => .error e
      | .ok pairs =>
          .ok ⟨f.field, resolution.target, pairs, f.onDelete, f.onUpdate, f.deferred⟩

def addConstraints (tables : List Table) (t : Table) (m : Model) : Except Failure Table :=
  match m.references.mapM (constraint tables t) with
  | .error e => .error e
  | .ok constraints => .ok { t with constraints := constraints }

/-- The schema of a registry whose references are resolved and not stale. -/
def toSchema (r : Registry) (o : BuildOptions) : Except Failure Schema := do
  let bare ← r.models.foldlM (addTable o) []
  let full ← (bare.zip r.models).mapM fun (t, m) => addConstraints bare t m
  let schema := ⟨full⟩
  if o.verify then schema.verify
  return schema

/-- Assembles a registry that has been resolved before. -/
def assemble (r : Registry) (o : BuildOptions) : Logged Failure Schema :=
  if r.hasForeignTarget then .fail (.fault .modelId)
  else if r.unsettled.isEmpty then do
    let schema ← .ofExcept (r.toSchema o)
    .emit (.assembled schema.tables.length)
    return schema
  else .fail (.error (.unresolved r.unsettled))

end Registry

/-! ## Completed builds -/

/-- A resolved registry with the schema assembled from it. -/
structure Build where
  registry : Registry
  schema : Storage.Schema

namespace Build

/-- The table of a model has the id of the model. -/
def tableId (b : Build) (model : String) : Except Error Storage.TableId :=
  match b.registry.idOf model with
  | some id => .ok id
  | none => .error (.unknownModel model)

def tableOf (b : Build) (model : String) : Except Failure Storage.Table :=
  match b.tableId model with
  | .error e => .error (.error e)
  | .ok id => (b.schema.table id).mapError .fault

end Build

/-- Resolves a registry and assembles its tables. -/
def Registry.build (r : Registry) (o : BuildOptions) : Logged Failure Build := do
  let resolved ← r.resolve o.separator
  let schema ← resolved.assemble o
  return ⟨resolved, schema⟩

end RelSchema
