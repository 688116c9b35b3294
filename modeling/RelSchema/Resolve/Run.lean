import RelSchema.Resolve.Pairing
import RelSchema.Resolve.Staleness
import RelSchema.Resolve.Stall
import RelSchema.Resolve.Synthesis

/-!
# Resolution

A reference can be resolved once its target is registered and the target's key is final, that is,
once every reference that is part of that key is resolved. Passes over the pending references go on
as long as a pass resolves one of them. The order of registration decides in which pass a reference
is attempted.
-/

namespace RelSchema

/-- What became of one attempt at a reference. -/
inductive Attempt where
  | targetMissing
  | targetKeyOpen
  | resolved (registry : Registry) (resolution : Resolution)

namespace Reference

/-- The owner with the columns of the reference, and the pairs for the target's key. -/
def settle (f : Reference) (owner target : Model) (separator : String) (key : PrimaryKey) :
    Except Error (Model × List Pair) :=
  if f.isImplicit then
    (owner.synthesize f separator key).map fun m => (m, f.sourcePairs separator key)
  else
    (f.checkPairs owner target key).map fun pairs => (owner, pairs)

end Reference

namespace Registry

/-- Tries to resolve reference `f` of `owner`, which stands at `id`. -/
def attempt (r : Registry) (separator : String) (id : ReferenceId) (owner : Model)
    (f : Reference) : Except Error Attempt :=
  match r.locate? f.target with
  | none => .ok .targetMissing
  | some (targetId, target) =>
    if target.isKeyFinal then
      match target.key with
      | .error e => .error e
      | .ok key =>
        match f.settle owner target separator key with
        | .error e => .error e
        | .ok (settled, pairs) =>
            let resolution := ⟨targetId, key, pairs⟩
            .ok (.resolved
              (r.modify id.model fun _ => settled.setResolution id.index (some resolution))
              resolution)
    else .ok .targetKeyOpen

/-- Attempts the references one after the other, each on the registry that the one before left.
Gives back the places of those that have to wait. -/
def pass (separator : String) :
    Registry → List ReferenceId → Logged Error (Registry × List ReferenceId)
  | r, [] => pure (r, [])
  | r, id :: rest =>
    match r.get? id.model, r.reference? id with
    | some owner, some f =>
      match r.attempt separator id owner f with
      | .error e => .fail e
      | .ok (.resolved next resolution) => do
          .emit (.resolved owner.name f.field f.target f.isImplicit
            (resolution.pairs.map (·.source)))
          pass separator next rest
      | .ok .targetMissing => do
          .emit (.targetMissing owner.name f.field f.target)
          let (next, waiting) ← pass separator r rest
          return (next, id :: waiting)
      | .ok .targetKeyOpen => do
          .emit (.targetKeyOpen owner.name f.field f.target)
          let (next, waiting) ← pass separator r rest
          return (next, id :: waiting)
    | _, _ => pass separator r rest

/-- How far the passes have come: what still waits, and how many passes there were. -/
structure Progress where
  registry : Registry
  pending : List ReferenceId
  count : Nat

/-- At most `left` further passes, until nothing waits or a pass resolves nothing. -/
def passes (separator : String) : (left : Nat) → Progress → Logged Error Progress
  | 0, state => pure state
  | left + 1, state =>
    if state.pending.isEmpty then pure state
    else do
      .emit (.pass (state.count + 1) state.pending.length)
      let (next, waiting) ← pass separator state.registry state.pending
      let after := ⟨next, waiting, state.count + 1⟩
      if waiting.length = state.pending.length then pure after
      else passes separator left after

/-- The places of the references that are not resolved. -/
def unresolved (r : Registry) : List ReferenceId :=
  r.referencesWhere (!·.isResolved)

/-- The verdict on the outcome of the passes: nothing may wait, and every model needs a key. -/
def conclude (state : Progress) : Logged Error Registry :=
  match state.pending with
  | first :: rest => .fail (state.registry.stallError first rest)
  | [] =>
    match state.registry.models.find? (·.keyShape.isEmpty) with
    | some m => .fail (.missingPrimaryKey m.name)
    | none => do
        .emit (.finished state.registry.size state.count)
        return state.registry

/-- Drops what is stale and resolves what is not resolved. After the first pass a reference can only
have waited for a key to become final, so there are at most as many useful passes as models, and
one more that finds nothing to do. -/
def resolveAll (r : Registry) (separator : String) : Logged Error Registry := do
  .report (dropEvents r.resolvedCount r)
  let start := r.withoutStale
  let state ← passes separator (r.size + 1) ⟨start, start.unresolved, 0⟩
  conclude state

/-- What stands between field and key column when nothing else is asked for. -/
def defaultSeparator : String :=
  "_"

/-- The registry with all references resolved. The given registry stays as it is on failure. -/
def resolve (r : Registry) (separator : String) : Logged Failure Registry :=
  if r.hasForeignTarget then .fail (.fault .modelId)
  else (r.resolveAll separator).mapError .error

end Registry

end RelSchema
