import RelSchema.Proofs.Resolve.Direction
import RelSchema.Proofs.Resolve.Pairing
import RelSchema.Proofs.Resolve.Positions

/-!
# Look-ups in well-formed registries

A model is found by its name, by its position and by its id, and a column by its name.  All these
ways lead to the same place because names tell models apart, ids are positions, and the columns and
references of a model share one namespace without clashes.  No operation breaks this, whatever has
been cloned and handed in.
-/

namespace RelSchema

/-! ## 1. The names of a model -/

theorem Reference.nodup_names_of_settle {f : Reference} {owner target settled : Model}
    {separator : String} {key : PrimaryKey} {pairs : List Pair} (h : owner.names.Nodup)
    (hsettle : f.settle owner target separator key = .ok (settled, pairs)) :
    settled.names.Nodup := by
  cases himplicit : f.isImplicit with
  | true =>
    exact Model.nodup_names_of_synthesize h ((settle_eq_ok_iff_of_implicit himplicit).1 hsettle).1
  | false => rwa [((settle_eq_ok_iff_of_explicit himplicit).1 hsettle).2]

/-- The fields of the model that is handed in have different names. -/
def Operation.NodupFields : Operation → Prop
  | .register m => m.names.Nodup
  | .replace m => m.names.Nodup
  | .resolve _ => True

namespace Registry

variable {separator : String} {r s : Registry}

/-! ## 2. What resolving keeps -/

/-- In each model the names of columns and references differ from each other. -/
def NodupFields (r : Registry) : Prop :=
  ∀ m ∈ r.models, m.names.Nodup

namespace NodupFields

theorem modify (hr : r.NodupFields) {id : ModelId} {change : Model → Model} {m : Model}
    (hm : r.get? id = some m) (hchange : (change m).names.Nodup) :
    (r.modify id change).NodupFields := by
  intro n hn
  rcases mem_modify hm hn with hn | rfl
  · exact hr n hn
  · exact hchange

theorem drop (hr : r.NodupFields) (id : ReferenceId) : (r.drop id).NodupFields := by
  cases h : r.reference? id with
  | none => rwa [Registry.drop, h]
  | some f =>
    obtain ⟨m, hm, -⟩ := reference?_eq_some_iff.1 h
    rw [drop_eq_modify h]
    refine hr.modify hm ?_
    rw [Model.names_setResolution]
    exact (hr m (mem_of_get? hm)).sublist (m.names_removeSynthesized_sublist f.field)

theorem withoutStale (hr : r.NodupFields) : r.withoutStale.NodupFields :=
  dropRounds_induction (fun _ id hs => hs.drop id) hr _

theorem step {id : ReferenceId} (hr : r.NodupFields) (h : Step separator r id s) :
    s.NodupFields := by
  obtain ⟨howner, -, -, -, -, -, hsettle⟩ := h
  refine hr.modify howner ?_
  rw [Model.names_setResolution]
  exact Reference.nodup_names_of_settle (hr _ (mem_of_get? howner)) hsettle

theorem steps (hr : r.NodupFields) (h : Steps separator r s) : s.NodupFields := by
  induction h with
  | refl => exact hr
  | tail _ hstep ih => exact ih.step hstep.choose_spec

theorem resolve (hr : r.NodupFields) (h : (r.resolve separator).result = .ok s) :
    s.NodupFields :=
  hr.withoutStale.steps (steps_of_resolveAll (resolveAll_of_resolve h)).1

end NodupFields

/-! ## 3. Well-formed registries -/

structure WellFormed (r : Registry) : Prop where
  positioned : r.Positioned
  nodup_names : (r.models.map (·.name)).Nodup
  nodup_fields : r.NodupFields

namespace WellFormed

theorem empty : ({} : Registry).WellFormed :=
  ⟨.empty, List.nodup_nil, fun _ hm => absurd hm List.not_mem_nil⟩

/-- Every operation keeps a registry well-formed, as long as the model that is handed in has
different names for its fields. -/
theorem perform (hr : r.WellFormed) {operation : Operation} (hgiven : operation.NodupFields) :
    (r.perform operation).WellFormed := by
  refine ⟨hr.positioned.perform operation, nodup_names_perform hr.nodup_names operation, ?_⟩
  obtain h | ⟨m, rfl, -, h⟩ | ⟨m, id, rfl, hid, h⟩ | ⟨separator, rfl, h⟩ :=
    perform_cases r operation
  · rw [h]
    exact hr.nodup_fields
  · rw [h]
    intro n hn
    rcases List.mem_append.1 hn with hn | hn
    · exact hr.nodup_fields n hn
    · obtain rfl := List.mem_singleton.1 hn
      exact hgiven
  · obtain ⟨old, hold, -⟩ := (idOf_eq_some_iff hr.nodup_names).1 hid
    rw [h]
    exact hr.nodup_fields.modify hold hgiven
  · exact hr.nodup_fields.resolve h

end WellFormed

end Registry

/- Models are cloned from registries and handed in to registries, so that one induction over what
can be obtained carries both invariants. -/
mutual

theorem Model.Obtainable.nodup_names : ∀ {m : Model}, m.Obtainable → m.names.Nodup
  | _, .new _ => List.nodup_nil
  | _, .cloned hr hm => hr.wellFormed.nodup_fields _ hm
  | _, .named hm _ => hm.nodup_names
  | _, .addColumn hm _ hadd => Model.nodup_names_declare (d := .column _) hadd hm.nodup_names
  | _, .addReference hm _ hadd => Model.nodup_names_declare (d := .reference _) hadd hm.nodup_names

theorem Registry.Obtainable.wellFormed : ∀ {r : Registry}, r.Obtainable → r.WellFormed
  | _, .empty => .empty
  | _, .register hr hm => hr.wellFormed.perform hm.nodup_names
  | _, .replace hr hm => hr.wellFormed.perform hm.nodup_names
  | _, .resolve hr _ => hr.wellFormed.perform trivial

end

/-! ## 4. Look-ups -/

namespace Registry

variable {r : Registry} {name : String}

/-- Every look-up of the name, or of the id that it has, leads to the model. -/
structure Finds (r : Registry) (name : String) (id : ModelId) (m : Model) : Prop where
  name_eq : m.name = name
  id_eq : m.id = some id
  contains_eq : r.contains name = true
  idOf_eq : r.idOf name = some id
  lookup_eq : r.lookup name = .ok m
  get?_eq : r.get? id = some m
  model_eq : r.model id = .ok m

/-- No look-up of the name leads anywhere. -/
structure Misses (r : Registry) (name : String) : Prop where
  contains_eq : r.contains name = false
  idOf_eq : r.idOf name = none
  lookup_eq : r.lookup name = .error (.unknownModel name)

theorem misses_of_contains_eq_false (h : r.contains name = false) : r.Misses name where
  contains_eq := h
  idOf_eq := idOf_eq_none_iff.2 h
  lookup_eq := by
    have hnone : r.models.find? (·.name == name) = none := by
      simpa [contains, List.find?_eq_none] using h
    rw [lookup, hnone]

namespace WellFormed

theorem finds (h : r.WellFormed) {id : ModelId} {m : Model} (hm : r.get? id = some m) :
    r.Finds m.name id m where
  name_eq := rfl
  id_eq := h.positioned id m hm
  contains_eq := contains_iff.2 ⟨m, mem_of_get? hm, rfl⟩
  idOf_eq := (idOf_eq_some_iff h.nodup_names).2 ⟨m, hm, rfl⟩
  lookup_eq := (lookup_eq_ok_iff h.nodup_names).2 ⟨mem_of_get? hm, rfl⟩
  get?_eq := hm
  model_eq := by rw [model, hm]

theorem finds_or_misses (h : r.WellFormed) (name : String) :
    (∃ id m, r.Finds name id m) ∨ r.Misses name := by
  cases hname : r.contains name with
  | true =>
    obtain ⟨m, hm, rfl⟩ := contains_iff.1 hname
    obtain ⟨id, hid⟩ := exists_get?_of_mem hm
    exact .inl ⟨id, m, h.finds hid⟩
  | false => exact .inr (misses_of_contains_eq_false hname)

/-- Listed by the ids of their models, the references are where the places say. -/
theorem map_referenceIds (h : r.WellFormed) :
    (r.referenceIds.map fun id => (some id.model, id.index)) =
      r.models.flatMap fun m => (List.range m.references.length).map fun j => (m.id, j) := by
  have hid : ∀ p ∈ r.models.zipIdx, p.1.id = some p.2 := fun p hp =>
    h.positioned p.2 p.1 (List.mem_zipIdx_iff_getElem?.1 hp)
  rw [referenceIds, List.map_flatMap]
  conv_rhs => rw [← List.zipIdx_map_fst 0 r.models, List.flatMap_map]
  refine List.flatMap_congr fun p hp => ?_
  rw [List.map_map, hid p hp]
  rfl

end WellFormed

/-- Whatever is done to a registry, every model stands at its id, models differ in name, and all
look-ups of a name agree.  Within a model no two columns or references have the same name, and each
of them is found by its name. -/
theorem lookups_agree_after {operations : List Operation}
    (hpublic : ∀ o ∈ operations, o.Public) :
    (∀ id m, (after operations).get? id = some m → m.id = some id) ∧
    ((after operations).models.map (·.name)).Nodup ∧
    (∀ name, (∃ id m, (after operations).Finds name id m) ∨ (after operations).Misses name) ∧
    ∀ m ∈ (after operations).models, m.names.Nodup ∧
      (∀ c ∈ m.columns, m.column? c.name = some c) ∧
      ∀ f ∈ m.references, m.reference? f.field = some f := by
  have h : (after operations).WellFormed := (obtainable_after hpublic).wellFormed
  refine ⟨h.positioned, h.nodup_names, h.finds_or_misses, fun m hm => ?_⟩
  have hnames := h.nodup_fields m hm
  obtain ⟨hcolumns, hfields, -⟩ := List.nodup_append.1 hnames
  exact ⟨hnames, fun c hc => (Model.column?_eq_some_iff hcolumns).2 ⟨hc, rfl⟩,
    fun f hf => Model.reference?_eq_some_of_mem hfields hf⟩

/-- The museum is in the country of the city abroad, whose column and reference it takes over. -/
def museum : Model :=
  Model.ofFields "Museum" <|
    .column { name := "id", type := .integer, primaryKey := true }
      :: .reference { field := "town", target := "City" }
      :: (cityAbroad.columns.map .column ++ cityAbroad.references.map .reference)

/-- The second attempt to register the museum fails. -/
def museumOpened : List Operation :=
  [.register country, .register city, .register museum, .register museum, .resolve "."]

theorem obtainable_museum : museum.Obtainable := by
  refine Model.obtainable_ofFields _ _ fun d hd => ?_
  simp only [List.mem_cons, List.mem_append, List.mem_map] at hd
  obtain rfl | rfl | ⟨c, hc, rfl⟩ | ⟨f, hf, rfl⟩ := hd
  · exact .fresh (by decide)
  · exact .fresh (by decide)
  · exact .cloned obtainable_cityAbroad hc
  · exact .cloned obtainable_cityAbroad hf

theorem isPublic_museumOpened : ∀ o ∈ museumOpened, o.Public := by
  simp only [museumOpened, List.forall_mem_cons, List.not_mem_nil, false_imp_iff, implies_true,
    and_true]
  exact ⟨obtainable_country, obtainable_city, obtainable_museum, obtainable_museum, trivial⟩

/-- What is cloned and what is synthesized shares the namespace of the museum. -/
theorem lookups_agree_museum :
    (∀ o ∈ museumOpened, o.Public) ∧ ∃ id m, (after museumOpened).Finds "Museum" id m ∧
      m.names = ["id", "town.country.code", "town.name", "name", "country_code", "town",
        "country"] ∧ m.names.Nodup := by
  obtain ⟨-, -, hlookups, hmodels⟩ := lookups_agree_after isPublic_museumOpened
  refine ⟨isPublic_museumOpened, ?_⟩
  rcases hlookups "Museum" with ⟨id, m, hm⟩ | hmiss
  · refine ⟨id, m, hm, ?_, (hmodels m (mem_of_get? hm.get?_eq)).1⟩
    have hfound : ((after museumOpened).lookup "Museum").map Model.names = .ok ["id",
      "town.country.code", "town.name", "name", "country_code", "town", "country"] := rfl
    rw [hm.lookup_eq] at hfound
    exact Except.ok.inj hfound
  · have hcontains : (after museumOpened).contains "Museum" = true := rfl
    exact absurd hmiss.contains_eq (by rw [hcontains]; decide)

end Registry

end RelSchema
