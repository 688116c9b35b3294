import RelSchema.Storage.Basic

/-!
# Verification of a schema

A schema is sound when every table has a key of columns flagged as key, the columns of a table have
different names, and every constraint pairs columns of its own table with the whole key of the
target, in key order and with equal storage classes.
-/

namespace RelSchema.Storage

/-- What verification can find. -/
inductive Defect where
  | noKey (table : String)
  | keyNotFlagged (table column : String)
  | columnRepeated (table column : String)
  | notTheKeyOf (table field target : String)
  | sourceElsewhere (table field : String)
  | typesDiffer (table field source : String) (sourceType : StorageClass)
      (target : String) (targetType : StorageClass)
  deriving DecidableEq

def Defect.message : Defect → String
  | .noKey table => "table " ++ backquoted table ++ " has no primary key"
  | .keyNotFlagged table column =>
      "column " ++ member table column ++ " is in the primary key but not flagged as key"
  | .columnRepeated table column => "duplicate column " ++ member table column
  | .notTheKeyOf table field target =>
      "foreign key " ++ member table field ++ " does not reference the primary key of "
        ++ backquoted target
  | .sourceElsewhere table field =>
      "foreign key " ++ member table field ++ " uses a column of another table"
  | .typesDiffer table field source sourceType target targetType =>
      "foreign key " ++ member table field ++ " pairs " ++ backquoted source ++ " ("
        ++ sourceType.keyword ++ ") with " ++ backquoted target ++ " (" ++ targetType.keyword ++ ")"

private def require (condition : Bool) (defect : Defect) : Except Failure Unit :=
  if condition then .ok () else .error (.error (.adHoc defect.message))

/-- The first name that stands a second time in the list. -/
def firstRepeated? : (seen : List String) → List String → Option String
  | _, [] => none
  | seen, name :: rest =>
      if seen.contains name then some name else firstRepeated? (name :: seen) rest

namespace Table

def verifyKey (t : Table) : Except Failure Unit :=
  if t.primaryKey.isEmpty then .error (.error (.adHoc (Defect.noKey t.name).message))
  else
    t.primaryKey.forM fun id =>
      match t.column id with
      | .error f => .error (.fault f)
      | .ok c => require c.primaryKey (.keyNotFlagged t.name c.name)

def verifyNames (t : Table) : Except Failure Unit :=
  match firstRepeated? [] (t.columns.map (·.name)) with
  | some name => .error (.error (.adHoc (Defect.columnRepeated t.name name).message))
  | none => .ok ()

end Table

namespace Schema

def verifyTarget (s : Schema) (t : Table) (c : Constraint) : Except Failure Unit :=
  match s.table c.target with
  | .error f => .error (.fault f)
  | .ok target =>
    if c.pairs.map (·.target) = target.primaryKey then
      c.pairs.forM fun pair => require (pair.source.table == t.id) (.sourceElsewhere t.name c.field)
    else .error (.error (.adHoc (Defect.notTheKeyOf t.name c.field target.name).message))

def verifyPair (s : Schema) (t : Table) (c : Constraint) (pair : ColumnPair) :
    Except Failure Unit :=
  match s.column pair.source with
  | .error f => .error (.fault f)
  | .ok source =>
    match s.column pair.target with
    | .error f => .error (.fault f)
    | .ok target =>
        require (source.type == target.type)
          (.typesDiffer t.name c.field source.name source.type target.name target.type)

/-- Runs the checks one after the other, each over all tables in order. -/
def verify (s : Schema) : Except Failure Unit := do
  s.tables.forM Table.verifyKey
  s.tables.forM Table.verifyNames
  s.tables.forM fun t => t.constraints.forM fun c => s.verifyTarget t c
  s.tables.forM fun t => t.constraints.forM fun c => c.pairs.forM fun pair => s.verifyPair t c pair

end Schema

end RelSchema.Storage
