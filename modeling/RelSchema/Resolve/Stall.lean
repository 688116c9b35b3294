import RelSchema.Registry

/-!
# Stalled resolution

When no pending reference can be resolved, either one of them names a model that is not registered,
or the keys wait for each other. In the second case a walk along the references that keep the keys
open comes back to a model it has passed, and the steps from there on are the cycle.
-/

namespace RelSchema

/-- A step of the walk: a model that was passed and its open key reference, as text. -/
structure WalkStep where
  model : ModelId
  text : String

namespace WalkStep

/-- The error for a walk that has come back to a model it passed. -/
def cycle (path : List WalkStep) (model : ModelId) : Error :=
  let steps := (path.dropWhile (·.model != model)).map (·.text)
  .cyclicKey (steps ++ steps.take 1)

end WalkStep

namespace Registry

/-- Follows open key references. With as many steps left as there are models not passed, none left
means that the model has been passed. -/
def walk (r : Registry) : (left : Nat) → (path : List WalkStep) → ModelId → Error
  | 0, path, id => WalkStep.cycle path id
  | left + 1, path, id =>
    if path.any (·.model == id) then WalkStep.cycle path id
    else
      match r.get? id with
      | none => WalkStep.cycle path id
      | some m =>
        match m.openKeyReference? with
        | none =>
            .adHoc ("resolution stalled on " ++ backquoted m.name
              ++ " without a pending key reference")
        | some f =>
          match r.idOf f.target with
          | none => .unknownTarget m.name f.field f.target
          | some next => r.walk left (path ++ [⟨id, m.name ++ "." ++ f.field⟩]) next

/-- The first pending reference whose target is not registered, with its owner. -/
def missingTarget? (r : Registry) (pending : List ReferenceId) : Option (Model × Reference) :=
  pending.findSome? fun id =>
    match r.get? id.model, r.reference? id with
    | some m, some f => if r.contains f.target then none else some (m, f)
    | _, _ => none

/-- Why the pending references, of which `first` is the first, cannot be resolved. -/
def stallError (r : Registry) (first : ReferenceId) (rest : List ReferenceId) : Error :=
  match r.missingTarget? (first :: rest) with
  | some (m, f) => .unknownTarget m.name f.field f.target
  | none =>
    match r.reference? first with
    | none => .unresolved []
    | some f =>
      match r.idOf f.target with
      | some start => r.walk r.size [] start
      | none => .adHoc ("resolution stalled on " ++ backquoted f.target)

end Registry

end RelSchema
