import RelSchema.Proofs.Resolve.Coherent

/-!
# What a successful resolution has done

After a resolution that succeeds every reference holds exactly the key that its target has in the
end, however many columns were added to the target's model and to others in between.
-/

namespace RelSchema

/-! ## 1. Completed references -/

namespace Reference

/-- The reference of `owner` is resolved against the key that `target` has in the registry.  An
implicit reference has brought one column per key column; the declared pairs of an explicit one
stand in the order of the key, on columns of the owner that can hold it. -/
structure Completed (r : Registry) (separator : String) (owner target : Model) (f : Reference)
    (resolution : Resolution) : Prop where
  resolution_eq : f.resolution = some resolution
  idOf_target : r.idOf f.target = some resolution.target
  lookup_target : r.lookup f.target = .ok target
  key_target : target.key = .ok resolution.key
  pairs_of_implicit : f.isImplicit → f.pairs = f.sourcePairs separator resolution.key
  columns_of_implicit : f.isImplicit →
    owner.columns.filter (·.isMarkedBy f.field) = f.columnsFor separator resolution.key
  columns_of_explicit : f.isImplicit = false → owner.columns.filter (·.isMarkedBy f.field) = []
  pairs_of_explicit : f.isImplicit = false → f.pairs.Perm f.declaredPairs
  targets_of_explicit : f.isImplicit = false → f.pairs.map (·.target) = resolution.key.names
  sources_of_explicit : f.isImplicit = false → (f.pairs.map (·.source)).Nodup
  fits_of_explicit : f.isImplicit = false → ∀ p ∈ f.pairs, p.Fits owner f resolution.key
  flag_of_pair : ∀ p ∈ f.pairs, ∀ c ∈ owner.columns, c.name = p.source → c.foreignKey

/-- A column that a resolved pair starts at is flagged. -/
theorem foreignKey_of_mem_pairs {owner : Model} (howner : owner.Laid) {f : Reference}
    (hf : f ∈ owner.references) (hres : f.isResolved) {p : Pair} (hp : p ∈ f.pairs) {c : Column}
    (hc : c ∈ owner.columns) (hname : c.name = p.source) : c.foreignKey := by
  have huses : f.usesSource c.name := by
    rw [usesSource, hres, Bool.true_and, List.any_eq_true]
    exact ⟨p, hp, by rw [hname, beq_self_eq_true]⟩
  rw [howner.foreignKey_eq c hc, Model.isForeignKey, List.any_eq_true.2 ⟨f, hf, huses⟩,
    Bool.or_true]

/-- A settled reference of a sound registry is completed. -/
theorem SettledIn.completed {r : Registry} {separator : String} {owner : Model} {f : Reference}
    {resolution : Resolution} (h : f.SettledIn r owner resolution) (hr : r.Sound)
    (howner : owner ∈ r.models) (hf : f ∈ owner.references)
    (hpairs : f.isImplicit → resolution.pairs = f.sourcePairs separator resolution.key) :
    ∃ target, f.Completed r separator owner target resolution := by
  obtain ⟨target, htarget, hname, -, hkey⟩ := h.exists_named_target hr howner hf
  obtain ⟨hres, -, hmatches⟩ := h
  have hlaid := hr.laid owner howner
  have hkeyNames : resolution.key.names.Nodup := by
    rw [← hkey]
    exact (hr.laid target (Registry.mem_of_get? htarget)).nodup_names_keyShape
  -- a resolved reference has the recorded pairs, not the declared ones
  have hall := pairs_eq_of_resolution hres
  refine ⟨target, hres, hr.target_eq owner howner f hf resolution hres, ?_, ?_, ?_, ?_, ?_, ?_, ?_,
    ?_, ?_, ?_⟩
  · exact (Registry.lookup_eq_ok_iff hr.nodup_names).2 ⟨Registry.mem_of_get? htarget, hname⟩
  · exact Model.key_eq_ok_iff.2 ⟨hkey, hr.key_ne_nil owner howner f hf resolution hres⟩
  · intro himplicit
    rw [hall, hpairs himplicit]
  · intro himplicit
    rw [hlaid.filter_isMarkedBy hf]
    exact broughtColumns_of_implicit himplicit hres (hpairs himplicit)
  · intro hexplicit
    rw [hlaid.filter_isMarkedBy hf]
    exact broughtColumns_of_explicit hexplicit
  · intro hexplicit
    obtain ⟨hmatch, hordered⟩ := hmatches hexplicit
    rw [hall, hordered]
    exact hmatch.filterMap_perm hkeyNames
  · intro hexplicit
    obtain ⟨hmatch, hordered⟩ := hmatches hexplicit
    rw [hall, hordered]
    exact hmatch.map_target_filterMap
  · intro hexplicit
    obtain ⟨hmatch, hordered⟩ := hmatches hexplicit
    rw [hall, hordered]
    exact ((hmatch.filterMap_perm hkeyNames).map _).nodup_iff.2 hmatch.nodup_sources
  · intro hexplicit p hp
    obtain ⟨hmatch, hordered⟩ := hmatches hexplicit
    rw [hall, hordered] at hp
    exact hmatch.fits p (mem_of_mem_filterMap_pairFor? hp)
  · intro p hp c hc hcname
    exact foreignKey_of_mem_pairs hlaid hf (isResolved_iff.2 ⟨_, hres⟩) hp hc hcname

end Reference

/-! ## 2. Registered models -/

namespace Registry

theorem coherent_ofModels {models : List Model} (h : ∀ m ∈ models, m.Fresh) (separator : String) :
    (ofModels models).Coherent ∧ (ofModels models).UsesSeparator separator := by
  refine coherent_after (fun o ho => ?_) fun o ho => ?_
  · obtain ⟨m, hm, rfl⟩ := List.mem_map.1 ho
    exact h m hm
  · obtain ⟨m, -, rfl⟩ := List.mem_map.1 ho
    exact True.intro

/-- Resolution, when it succeeds, changes nothing that was declared, leaves every model with a key,
and completes every reference. -/
theorem completed_of_resolve {models : List Model} {separator : String} {r : Registry}
    (hfresh : ∀ m ∈ models, m.Fresh)
    (h : ((ofModels models).resolve separator).result = .ok r) :
    r.models.map Model.bare = (ofModels models).models.map Model.bare ∧
      ∀ m ∈ r.models, (∃ key, m.key = .ok key) ∧
        ∀ f ∈ m.references, ∃ target resolution, f.Completed r separator m target resolution := by
  obtain ⟨hcoherent, hseparator⟩ := coherent_ofModels hfresh separator
  have hr := hcoherent.complete hseparator h
  refine ⟨map_bare_of_resolve hcoherent.sound h, fun m hm => ⟨?_, fun f hf => ?_⟩⟩
  · exact ⟨m.keyShape, Model.key_eq_ok_iff.2 ⟨rfl, hr.keyShape_ne_nil m hm⟩⟩
  · obtain ⟨resolution, hres⟩ := Reference.isResolved_iff.1 (hr.isResolved m hm f hf)
    obtain ⟨target, hcompleted⟩ := (hr.coherent.settled m hm f hf resolution hres).completed
      hr.coherent.sound hm hf (hr.usesSeparator m hm f hf resolution hres)
    exact ⟨target, resolution, hcompleted⟩

end Registry

/-! ## 3. A small registry -/

def country : Model :=
  Model.ofFields "Country" [.column { name := "code", type := .text, primaryKey := true }]

/-- The key of a city starts with the key of its country. -/
def city : Model :=
  Model.ofFields "City" [
    .reference { field := "country", target := "Country", primaryKey := true },
    .column { name := "name", type := .text, primaryKey := true }]

/-- The explicit reference starts at a column that the implicit one brings. -/
def person : Model :=
  Model.ofFields "Person" [
    .column { name := "id", type := .integer, primaryKey := true },
    .reference { field := "home", target := "City" },
    .reference { field := "origin", target := "Country",
                 declaredPairs := [⟨"home_country_code", "code"⟩] }]

theorem fresh_country_city_person : ∀ m ∈ [country, city, person], m.Fresh := by
  simp only [List.forall_mem_cons, List.not_mem_nil, false_imp_iff, implies_true, and_true]
  exact ⟨Model.fresh_ofFields _ _ (by decide), Model.fresh_ofFields _ _ (by decide),
    Model.fresh_ofFields _ _ (by decide)⟩

namespace Registry

/-- The key reference of `city` has grown its key before `person` is resolved against it. -/
theorem completed_country_city_person :
    ∃ r, ((ofModels [country, city, person]).resolve "_").result = .ok r ∧
      r.models.map Model.bare = (ofModels [country, city, person]).models.map Model.bare ∧
      ∀ m ∈ r.models, (∃ key, m.key = .ok key) ∧
        ∀ f ∈ m.references, ∃ target resolution, f.Completed r "_" m target resolution := by
  have hresolve : ∃ r, ((ofModels [country, city, person]).resolve "_").result = .ok r := ⟨_, rfl⟩
  obtain ⟨r, hr⟩ := hresolve
  exact ⟨r, hr, completed_of_resolve fresh_country_city_person hr⟩

end Registry

end RelSchema
