import RelSchema.Json
import RelSchema.Storage.Basic

/-!
# A schema as a JSON value

Every record is written as an object; what is read may use either form of a record and either form
of an enumeration value at every level. Identifiers are not checked against the schema.
-/

namespace RelSchema

namespace Action

def jsonName : Action → String
  | .noAction => "NoAction"
  | .restrict => "Restrict"
  | .setNull => "SetNull"
  | .setDefault => "SetDefault"
  | .cascade => "Cascade"

def ofJsonName? : String → Option Action
  | "NoAction" => some .noAction
  | "Restrict" => some .restrict
  | "SetNull" => some .setNull
  | "SetDefault" => some .setDefault
  | "Cascade" => some .cascade
  | _ => none

def toJson (a : Action) : Json :=
  .string a.jsonName

def ofJson? (j : Json) : Option Action :=
  j.variant?.bind ofJsonName?

end Action

namespace Storage

namespace StorageClass

def jsonName : StorageClass → String
  | .integer => "Integer"
  | .real => "Real"
  | .text => "Text"
  | .blob => "Blob"

def ofJsonName? : String → Option StorageClass
  | "Integer" => some .integer
  | "Real" => some .real
  | "Text" => some .text
  | "Blob" => some .blob
  | _ => none

def toJson (c : StorageClass) : Json :=
  .string c.jsonName

def ofJson? (j : Json) : Option StorageClass :=
  j.variant?.bind ofJsonName?

end StorageClass

namespace ColumnId

def fieldNames : List String :=
  ["table", "index"]

def toJson (id : ColumnId) : Json :=
  .object (fieldNames.zip [.natural id.table, .natural id.index])

def ofJson? (j : Json) : Option ColumnId := do
  let [table, index] ← j.fields? fieldNames | none
  return ⟨← table.word?, ← index.word?⟩

end ColumnId

namespace Column

def fieldNames : List String :=
  ["id", "name", "ty", "nullable", "primary_key", "foreign_key"]

def toJson (c : Column) : Json :=
  .object (fieldNames.zip
    [c.id.toJson, .string c.name, c.type.toJson, .bool c.nullable, .bool c.primaryKey,
      .bool c.foreignKey])

def ofJson? (j : Json) : Option Column := do
  let [id, name, type, nullable, primaryKey, foreignKey] ← j.fields? fieldNames | none
  return ⟨← ColumnId.ofJson? id, ← name.string?, ← StorageClass.ofJson? type, ← nullable.bool?,
    ← primaryKey.bool?, ← foreignKey.bool?⟩

end Column

namespace ColumnPair

def fieldNames : List String :=
  ["source", "target"]

def toJson (p : ColumnPair) : Json :=
  .object (fieldNames.zip [p.source.toJson, p.target.toJson])

def ofJson? (j : Json) : Option ColumnPair := do
  let [source, target] ← j.fields? fieldNames | none
  return ⟨← ColumnId.ofJson? source, ← ColumnId.ofJson? target⟩

end ColumnPair

namespace Constraint

def fieldNames : List String :=
  ["field", "target", "columns", "on_delete", "on_update", "deferred"]

def toJson (c : Constraint) : Json :=
  .object (fieldNames.zip
    [.string c.field, .natural c.target, .array (c.pairs.map ColumnPair.toJson),
      c.onDelete.toJson, c.onUpdate.toJson, .bool c.deferred])

def ofJson? (j : Json) : Option Constraint := do
  let [field, target, pairs, onDelete, onUpdate, deferred] ← j.fields? fieldNames | none
  return ⟨← field.string?, ← target.word?, ← pairs.list? ColumnPair.ofJson?,
    ← Action.ofJson? onDelete, ← Action.ofJson? onUpdate, ← deferred.bool?⟩

end Constraint

namespace Table

def fieldNames : List String :=
  ["id", "name", "model", "columns", "primary_key", "foreign_keys"]

def toJson (t : Table) : Json :=
  .object (fieldNames.zip
    [.natural t.id, .string t.name, .string t.model, .array (t.columns.map Column.toJson),
      .array (t.primaryKey.map ColumnId.toJson), .array (t.constraints.map Constraint.toJson)])

def ofJson? (j : Json) : Option Table := do
  let [id, name, model, columns, primaryKey, constraints] ← j.fields? fieldNames | none
  return ⟨← id.word?, ← name.string?, ← model.string?, ← columns.list? Column.ofJson?,
    ← primaryKey.list? ColumnId.ofJson?, ← constraints.list? Constraint.ofJson?⟩

end Table

namespace Schema

def fieldNames : List String :=
  ["tables"]

def toJson (s : Schema) : Json :=
  .object (fieldNames.zip [.array (s.tables.map Table.toJson)])

def ofJson? (j : Json) : Option Schema := do
  let [tables] ← j.fields? fieldNames | none
  return ⟨← tables.list? Table.ofJson?⟩

end Schema

end Storage

end RelSchema
