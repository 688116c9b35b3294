import RelSchema.Model.Layout

/-!
# Synthesis of columns

An implicit reference gets one column per key column of its target, named by the field, a separator
and the key column.
-/

namespace RelSchema

namespace Reference

def sourceName (r : Reference) (separator : String) (k : KeyColumn) : String :=
  r.field ++ separator ++ k.name

/-- The column that holds a key column of the target. It takes over type and nullability, and is
part of the owner's key when the reference is. -/
def sourceColumn (r : Reference) (separator : String) (k : KeyColumn) : Column where
  name := r.sourceName separator k
  type := k.type
  nullable := k.nullable
  primaryKey := r.primaryKey
  foreignKey := true
  synthesizedBy := some r.field

def sourceColumns (r : Reference) (separator : String) (key : PrimaryKey) : List Column :=
  key.map (r.sourceColumn separator)

def sourcePairs (r : Reference) (separator : String) (key : PrimaryKey) : List Pair :=
  key.map fun k => ⟨r.sourceName separator k, k.name⟩

end Reference

namespace Model

/-- Adds the columns of an implicit reference. Every name is checked before anything is added. -/
def synthesize (owner : Model) (r : Reference) (separator : String) (key : PrimaryKey) :
    Except Error Model :=
  match key.find? fun k => owner.isNameTaken (r.sourceName separator k) with
  | some k => .error (.duplicateColumn owner.name (r.sourceName separator k))
  | none => owner.addSynthesized (r.sourceColumns separator key)

end Model

end RelSchema
