import RelSchema.Column

/-!
# Errors and faults

An `Error` says why a declaration, a look-up, a resolution or an assembly was refused. A `Fault`
says that an identifier was used outside the collection that gave it out, or that a shared error
was used as if it had one owner.
-/

namespace RelSchema

/-- A name between backquotes; no character of it is escaped. -/
def backquoted (name : String) : String :=
  "`" ++ name ++ "`"

/-- A column or reference field with its model, between backquotes. -/
def member (model field : String) : String :=
  backquoted (model ++ "." ++ field)

/-- Why the pairs declared with a reference do not line up with the target's key.
`stated` carries a reason worded by the caller. -/
inductive PairProblem where
  | sourceMissing (column model : String)
  | targetMissing (column model : String)
  | notInKey (model column : String)
  | targetRepeated (model column : String)
  | sourceRepeated (column : String)
  | typesDiffer (model column : String) (type : ColumnType)
      (targetModel targetColumn : String) (targetType : ColumnType)
  | mustBeNullable (model column targetModel targetColumn : String)
  | mustBeKey (model column : String)
  | keyNotCovered (columns : List String) (model : String)
  | stated (reason : String)
  deriving DecidableEq

namespace PairProblem

def message : PairProblem → String
  | .sourceMissing column model =>
      "local column " ++ backquoted column ++ " does not exist on " ++ backquoted model
  | .targetMissing column model =>
      "target column " ++ backquoted column ++ " does not exist on " ++ backquoted model
  | .notInKey model column => member model column ++ " is not part of the primary key"
  | .targetRepeated model column => member model column ++ " is referenced more than once"
  | .sourceRepeated column => "local column " ++ backquoted column ++ " is paired more than once"
  | .typesDiffer model column type targetModel targetColumn targetType =>
      member model column ++ " is " ++ type.name ++ " but " ++ member targetModel targetColumn
        ++ " is " ++ targetType.name
  | .mustBeNullable model column targetModel targetColumn =>
      member model column ++ " must be nullable because " ++ member targetModel targetColumn
        ++ " is"
  | .mustBeKey model column =>
      member model column ++ " must be part of the primary key of " ++ backquoted model
  | .keyNotCovered columns model =>
      "primary key column(s) " ++ ", ".intercalate (columns.map backquoted) ++ " of "
        ++ backquoted model ++ " not referenced"
  | .stated reason => reason

end PairProblem

/-- `external` is an error handed in from outside, with the contexts it was given, innermost
first. -/
inductive Error where
  | duplicateColumn (model column : String)
  | duplicateModel (model : String)
  | duplicateTable (model table : String)
  | missingPrimaryKey (model : String)
  | unknownModel (name : String)
  | unknownTarget (model field target : String)
  | invalidPair (model field : String) (problem : PairProblem)
  | cyclicKey (path : List String)
  | unresolved (references : List String)
  | adHoc (text : String)
  | external (text : String) (contexts : List String)
  deriving DecidableEq

/-- The classes of errors that a caller can tell apart. -/
inductive ErrorKind where
  | duplicateColumn
  | duplicateModel
  | missingPrimaryKey
  | unknownTarget
  | invalidPair
  | cyclicKey
  | unresolved
  | other
  deriving DecidableEq

namespace Error

def kind : Error → ErrorKind
  | .duplicateColumn .. => .duplicateColumn
  | .duplicateModel .. | .duplicateTable .. => .duplicateModel
  | .missingPrimaryKey .. => .missingPrimaryKey
  | .unknownModel .. | .unknownTarget .. => .unknownTarget
  | .invalidPair .. => .invalidPair
  | .cyclicKey .. => .cyclicKey
  | .unresolved .. => .unresolved
  | .adHoc .. | .external .. => .other

/-- The text of the error. Of an external error only the outermost context shows. -/
def message : Error → String
  | .duplicateColumn model column =>
      "duplicate column " ++ backquoted column ++ " on model " ++ backquoted model
  | .duplicateModel model => "model " ++ backquoted model ++ " is already registered"
  | .duplicateTable model table =>
      "model " ++ backquoted model ++ " maps to table " ++ backquoted table
        ++ ", which another model already uses"
  | .missingPrimaryKey model => "model " ++ backquoted model ++ " has no primary key"
  | .unknownModel name => "model " ++ backquoted name ++ " is not registered"
  | .unknownTarget model field target =>
      "field " ++ member model field ++ " references model " ++ backquoted target
        ++ ", which is not registered"
  | .invalidPair model field problem =>
      "invalid reference pair on " ++ member model field ++ ": " ++ problem.message
  | .cyclicKey path => "cyclic primary key dependency: " ++ " -> ".intercalate (path.map backquoted)
  | .unresolved references =>
      "unresolved foreign key references: " ++ ", ".intercalate (references.map backquoted)
  | .adHoc text => text
  | .external text contexts => contexts.getLast?.getD text

end Error

/-- Uses of an identifier or of a shared error against its contract. -/
inductive Fault where
  | modelId
  | tableId
  | columnId
  | outOfBounds (length index : Nat)
  | consequentHasCause
  | consequentShared
  deriving DecidableEq

namespace Fault

def message : Fault → String
  | .modelId => "invalid model ID"
  | .tableId => "invalid table ID"
  | .columnId => "invalid column ID"
  | .outOfBounds length index =>
      "index out of bounds: the len is " ++ toString length ++ " but the index is "
        ++ toString index
  | .consequentHasCause => "consequent error must not already have a cause"
  | .consequentShared => "called `Option::unwrap()` on a `None` value"

end Fault

/-- How an operation can fail. -/
inductive Failure where
  | error (e : Error)
  | fault (f : Fault)
  deriving DecidableEq

end RelSchema
