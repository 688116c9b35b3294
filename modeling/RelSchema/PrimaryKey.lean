import RelSchema.Column

/-!
# Primary key shapes

The shape of a key is all that a reference sees of its target: names, types and nullability of the
key columns, in the order of the columns.
-/

namespace RelSchema

structure KeyColumn where
  name : String
  type : ColumnType
  nullable : Bool
  deriving DecidableEq

def KeyColumn.ofColumn (c : Column) : KeyColumn :=
  ⟨c.name, c.type, c.nullable⟩

abbrev PrimaryKey := List KeyColumn

namespace PrimaryKey

def isComposite (key : PrimaryKey) : Bool :=
  1 < key.length

def names (key : PrimaryKey) : List String :=
  key.map (·.name)

/-- Position of the first key column of the name. -/
def position? (key : PrimaryKey) (name : String) : Option Nat :=
  key.findIdx? (·.name == name)

end PrimaryKey

end RelSchema
