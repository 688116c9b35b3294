/-!
# Columns of a model

A column is declared with a name, a type and flags, or synthesized while a reference of its model is
resolved; a synthesized column carries the field of that reference as a mark.
-/

namespace RelSchema

/-- The types a declared column can have. -/
inductive ColumnType where
  | integer
  | real
  | text
  | blob
  deriving DecidableEq

namespace ColumnType

def name : ColumnType → String
  | .integer => "integer"
  | .real => "real"
  | .text => "text"
  | .blob => "blob"

end ColumnType

/-- `foreignKey` says whether the column is at present the source of a reference;
`declaredForeignKey` is what the flag was when the column joined its model. -/
structure Column where
  name : String
  type : ColumnType
  nullable : Bool := false
  primaryKey : Bool := false
  foreignKey : Bool := false
  synthesizedBy : Option String := none
  declaredForeignKey : Bool := false
  deriving DecidableEq

namespace Column

def isSynthesized (c : Column) : Bool :=
  c.synthesizedBy.isSome

/-- Whether the column carries the mark of the reference field. -/
def isMarkedBy (field : String) (c : Column) : Bool :=
  c.synthesizedBy == some field

theorem isSynthesized_of_isMarkedBy {field : String} {c : Column} (h : c.isMarkedBy field) :
    c.isSynthesized := by
  simp_all [isMarkedBy, isSynthesized]

end Column

end RelSchema
