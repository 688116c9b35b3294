import RelSchema.Model.Layout
import RelSchema.Registry

/-!
# Stale resolutions

A resolution is stale when its target's key no longer has the shape that was recorded. Dropping one
removes the columns it brought, which can change the owner's key and make further resolutions
stale; rounds of dropping go on until none is left. Every round that finds a stale resolution lowers
the number of resolved references, so that number bounds the rounds.
-/

namespace RelSchema

namespace Registry

/-- Whether a resolved reference points outside of the registry. -/
def hasForeignTarget (r : Registry) : Bool :=
  r.models.any fun m => m.references.any fun f => f.resolvedTarget.any (r.size ≤ ·)

/-- Whether a reference was resolved against a key that its target no longer has. -/
def isStale (r : Registry) (f : Reference) : Bool :=
  match f.resolution with
  | none => false
  | some resolution =>
    match r.get? resolution.target with
    | none => true
    | some target =>
      match target.key with
      | .ok key => key != resolution.key
      | .error _ => true

def staleReferences (r : Registry) : List ReferenceId :=
  r.referencesWhere r.isStale

/-- Makes a reference unresolved and removes the columns synthesized for it. -/
def drop (r : Registry) (id : ReferenceId) : Registry :=
  match r.reference? id with
  | none => r
  | some f => r.modify id.model fun m => (m.removeSynthesized f.field).setResolution id.index none

/-- What is reported when the reference is dropped. -/
def dropEvent? (r : Registry) (id : ReferenceId) : Option Event :=
  match r.get? id.model, r.reference? id with
  | some m, some f => some (.dropped m.name f.field (m.synthesizedCount f.field))
  | _, _ => none

/-- Drops every resolution that is stale at the start of the round. -/
def dropRound (r : Registry) : Registry :=
  r.staleReferences.foldl drop r

def dropRounds : Nat → Registry → Registry
  | 0, r => r
  | rounds + 1, r => dropRounds rounds r.dropRound

/-- What the rounds report. The drops of one round are reported as the round found them, since the
fields of a model differ and no drop changes another's columns. -/
def dropEvents : Nat → Registry → List Event
  | 0, _ => []
  | rounds + 1, r => r.staleReferences.filterMap r.dropEvent? ++ dropEvents rounds r.dropRound

/-- The number of resolved references. -/
def resolvedCount (r : Registry) : Nat :=
  (r.referencesWhere (·.isResolved)).length

/-- The registry with every stale resolution dropped. -/
def withoutStale (r : Registry) : Registry :=
  dropRounds r.resolvedCount r

end Registry

end RelSchema
