import RelSchema.Logged
import RelSchema.Model

/-!
# Registries

A registry holds models in the order of their registration. The position of a model is its id, and
replacing a model keeps its position.
-/

namespace RelSchema

structure Registry where
  models : List Model := []
  deriving DecidableEq

/-- The place of a reference: the position of its model, and its own among the model's
references. -/
structure ReferenceId where
  model : ModelId
  index : Nat
  deriving DecidableEq

namespace Registry

def size (r : Registry) : Nat :=
  r.models.length

/-! ## 1. Look-ups -/

def contains (r : Registry) (name : String) : Bool :=
  r.models.any (·.name == name)

def idOf (r : Registry) (name : String) : Option ModelId :=
  r.models.findIdx? (·.name == name)

def lookup (r : Registry) (name : String) : Except Error Model :=
  match r.models.find? (·.name == name) with
  | some m => .ok m
  | none => .error (.unknownModel name)

def get? (r : Registry) (id : ModelId) : Option Model :=
  r.models[id]?

/-- The model at an id that the caller claims to come from this registry. -/
def model (r : Registry) (id : ModelId) : Except Fault Model :=
  match r.get? id with
  | some m => .ok m
  | none => .error .modelId

/-- The model of the name together with its id. -/
def locate? (r : Registry) (name : String) : Option (ModelId × Model) :=
  match r.idOf name with
  | some id => (r.get? id).map fun m => (id, m)
  | none => none

theorem idOf_eq_none_iff {r : Registry} {name : String} :
    r.idOf name = none ↔ r.contains name = false := by
  simp [idOf, contains]

theorem locate?_eq_some_iff {r : Registry} {name : String} {id : ModelId} {m : Model} :
    r.locate? name = some (id, m) ↔ r.idOf name = some id ∧ r.get? id = some m := by
  unfold locate?
  cases h : r.idOf name with
  | none => simp
  | some i =>
    simp only [Option.map_eq_some_iff, Prod.mk.injEq, Option.some.injEq]
    constructor
    · rintro ⟨m', hm, rfl, rfl⟩
      exact ⟨rfl, hm⟩
    · rintro ⟨rfl, hm⟩
      exact ⟨m, hm, rfl, rfl⟩

/-! ## 2. References by place -/

def reference? (r : Registry) (id : ReferenceId) : Option Reference :=
  match r.get? id.model with
  | some m => m.references[id.index]?
  | none => none

/-- All places, by model and then by position in the model. -/
def referenceIds (r : Registry) : List ReferenceId :=
  r.models.zipIdx.flatMap fun (m, i) =>
    (List.range m.references.length).map fun j => ⟨i, j⟩

/-- The places of the references that a test accepts. -/
def referencesWhere (r : Registry) (test : Reference → Bool) : List ReferenceId :=
  r.referenceIds.filter fun id => (r.reference? id).any test

theorem mem_referenceIds {r : Registry} {id : ReferenceId} :
    id ∈ r.referenceIds ↔ (r.reference? id).isSome := by
  obtain ⟨i, j⟩ := id
  simp only [referenceIds, reference?, get?, List.mem_flatMap, List.mem_map, List.mem_range,
    Prod.exists, ReferenceId.mk.injEq, List.mem_zipIdx_iff_getElem?]
  constructor
  · rintro ⟨m, k, hm, l, hl, rfl, rfl⟩
    simp [hm, hl]
  · intro h
    cases hm : r.models[i]? with
    | none => simp [hm] at h
    | some m =>
      have hj : j < m.references.length := by simpa [hm] using h
      exact ⟨m, i, hm, j, hj, rfl, rfl⟩

theorem mem_referencesWhere {r : Registry} {test : Reference → Bool} {id : ReferenceId} :
    id ∈ r.referencesWhere test ↔ ∃ f, r.reference? id = some f ∧ test f := by
  simp only [referencesWhere, List.mem_filter, mem_referenceIds]
  cases r.reference? id <;> simp

/-! ## 3. Changes -/

def modify (r : Registry) (id : ModelId) (f : Model → Model) : Registry :=
  ⟨r.models.modify id f⟩

@[simp] theorem size_modify (r : Registry) (id : ModelId) (f : Model → Model) :
    (r.modify id f).size = r.size := by
  simp [modify, size]

theorem get?_modify (r : Registry) (id i : ModelId) (f : Model → Model) :
    (r.modify id f).get? i = if id = i then (r.get? i).map f else r.get? i := by
  simp only [modify, get?, List.getElem?_modify]
  split
  · rfl
  · simp

/-- Adds a model under a new name; its id is its position. -/
def register (r : Registry) (m : Model) : Logged Error (Registry × ModelId) :=
  if r.contains m.name then .fail (.duplicateModel m.name)
  else
    ⟨[.registered m.name r.size m.columns.length m.references.length],
      .ok (⟨r.models ++ [{ m with id := some r.size }]⟩, r.size)⟩

/-- Puts a new declaration of a registered model in its place. -/
def replace (r : Registry) (m : Model) : Logged Error (Registry × ModelId) :=
  match r.idOf m.name with
  | none => .fail (.unknownModel m.name)
  | some id =>
      ⟨[.replaced m.name id m.columns.length m.references.length],
        .ok (⟨r.models.set id { m with id := some id }⟩, id)⟩

end Registry

end RelSchema
