import RelSchema.Model

/-!
# Declared pairs

The pairs declared with a reference must match the target's key one to one. They are checked one by
one in the order of declaration, then the key is checked for columns left over, and the result
stands in the order of the key.
-/

namespace RelSchema

namespace Reference

/-- The pair that covers a key column. -/
def pairFor? (pairs : List Pair) (k : KeyColumn) : Option Pair :=
  pairs.find? (·.target == k.name)

/-- What is wrong with a pair, given the pairs declared before it. -/
def pairProblem? (owner target : Model) (r : Reference) (key : PrimaryKey) (earlier : List Pair)
    (p : Pair) : Option PairProblem :=
  match owner.column? p.source with
  | none => some (.sourceMissing p.source owner.name)
  | some source =>
    if (target.column? p.target).isNone then some (.targetMissing p.target target.name)
    else
      match key.find? (·.name == p.target) with
      | none => some (.notInKey target.name p.target)
      | some k =>
        if earlier.any (·.target == p.target) then some (.targetRepeated target.name p.target)
        else if 1 < r.declaredPairs.countP (·.source == p.source) then
          some (.sourceRepeated p.source)
        else if source.type ≠ k.type then
          some (.typesDiffer owner.name source.name source.type target.name k.name k.type)
        else if k.nullable && !source.nullable then
          some (.mustBeNullable owner.name source.name target.name k.name)
        else if r.primaryKey && !source.primaryKey then
          some (.mustBeKey owner.name source.name)
        else none

/-- The first problem among the pairs that follow `earlier`. -/
def firstProblem? (owner target : Model) (r : Reference) (key : PrimaryKey) :
    (earlier : List Pair) → List Pair → Option PairProblem
  | _, [] => none
  | earlier, p :: rest =>
      match r.pairProblem? owner target key earlier p with
      | some problem => some problem
      | none => firstProblem? owner target r key (earlier ++ [p]) rest

/-- The declared pairs in the order of the target's key. -/
def checkPairs (r : Reference) (owner target : Model) (key : PrimaryKey) :
    Except Error (List Pair) :=
  match firstProblem? owner target r key [] r.declaredPairs with
  | some problem => .error (.invalidPair owner.name r.field problem)
  | none =>
      let uncovered : PrimaryKey := key.filter fun k => (pairFor? r.declaredPairs k).isNone
      if uncovered.isEmpty then .ok (key.filterMap (pairFor? r.declaredPairs))
      else .error (.invalidPair owner.name r.field (.keyNotCovered uncovered.names target.name))

end Reference

end RelSchema
