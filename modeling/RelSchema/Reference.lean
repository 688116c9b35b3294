import RelSchema.PrimaryKey

/-!
# References

A reference is a field of a model that points at a target model by name. It is explicit when column
pairs were declared with it and implicit otherwise. Resolving it records the target, the shape of
the target's key and one pair per key column.
-/

namespace RelSchema

/-- Position of a model in its registry. -/
abbrev ModelId := Nat

def ModelId.text (id : ModelId) : String :=
  "ModelId(" ++ toString id ++ ")"

/-- A column of the owning model and the key column of the target that it holds. -/
structure Pair where
  source : String
  target : String
  deriving DecidableEq

/-- What happens to a referencing row when the referenced row is deleted or its key changes. -/
inductive Action where
  | noAction
  | restrict
  | setNull
  | setDefault
  | cascade
  deriving DecidableEq

/-- `key` is the shape of the target's key that `pairs` were computed from. -/
structure Resolution where
  target : ModelId
  key : PrimaryKey
  pairs : List Pair
  deriving DecidableEq

/-- `place` is the number of declared columns that stand before the field. -/
structure Reference where
  field : String
  target : String
  declaredPairs : List Pair := []
  primaryKey : Bool := false
  onDelete : Action := .noAction
  onUpdate : Action := .noAction
  deferred : Bool := false
  place : Nat := 0
  resolution : Option Resolution := none
  deriving DecidableEq

namespace Reference

def isImplicit (r : Reference) : Bool :=
  r.declaredPairs.isEmpty

def isResolved (r : Reference) : Bool :=
  r.resolution.isSome

/-- The resolved pairs, or the declared ones as long as there are none. -/
def pairs (r : Reference) : List Pair :=
  match r.resolution with
  | some resolution => resolution.pairs
  | none => r.declaredPairs

def resolvedTarget (r : Reference) : Option ModelId :=
  r.resolution.map (·.target)

/-- Whether a resolved pair of the reference starts at the column of the name. -/
def usesSource (r : Reference) (name : String) : Bool :=
  r.isResolved && r.pairs.any (·.source == name)

end Reference

end RelSchema
