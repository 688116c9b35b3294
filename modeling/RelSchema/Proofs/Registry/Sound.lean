import RelSchema.Proofs.Model.Growth
import RelSchema.Resolve.Staleness

/-!
# Sound registries

In a sound registry names tell models apart, every model is laid out, and a resolved reference
points at the model that it names.  Changing the resolution of one reference keeps a registry sound.
-/

namespace RelSchema

namespace Registry

/-! ## 1. Models by name -/

theorem idOf_congr {r s : Registry} (h : r.models.map (·.name) = s.models.map (·.name))
    (name : String) : r.idOf name = s.idOf name := by
  have hfind : ∀ t : Registry, t.idOf name = (t.models.map (·.name)).findIdx? (· == name) :=
    fun t => by rw [List.findIdx?_map]; rfl
  rw [hfind, hfind, h]

theorem contains_iff {r : Registry} {name : String} :
    r.contains name ↔ ∃ m ∈ r.models, m.name = name := by
  simp [contains]

theorem contains_congr {r s : Registry} (h : r.models.map (·.name) = s.models.map (·.name))
    (name : String) : r.contains name = s.contains name := by
  have hany : ∀ t : Registry, t.contains name = (t.models.map (·.name)).any (· == name) :=
    fun t => by rw [List.any_map]; rfl
  rw [hany, hany, h]

theorem idOf_eq_some_iff {r : Registry} (h : (r.models.map (·.name)).Nodup) {name : String}
    {id : ModelId} : r.idOf name = some id ↔ ∃ m, r.get? id = some m ∧ m.name = name := by
  rw [idOf, List.findIdx?_eq_some_iff_getElem]
  constructor
  · rintro ⟨hlt, hname, -⟩
    exact ⟨r.models[id], List.getElem?_eq_getElem hlt, by simpa using hname⟩
  · rintro ⟨m, hm, rfl⟩
    obtain ⟨hlt, hget⟩ := List.getElem?_eq_some_iff.1 hm
    refine ⟨hlt, by simp [hget], fun j hj heq => ?_⟩
    -- an earlier model of the name would have to stand at the same place
    have hjlt : j < r.models.length := Nat.lt_trans hj hlt
    have hsame : (r.models.map (·.name))[j]? = (r.models.map (·.name))[id]? := by
      have hname : r.models[j].name = m.name := by simpa using heq
      rw [List.getElem?_map, List.getElem?_map, List.getElem?_eq_getElem hjlt,
        show r.models[id]? = some m from hm, Option.map_some, Option.map_some, hname]
    have hij := (List.getElem?_inj (by rw [List.length_map]; exact hjlt) h).1 hsame
    omega

theorem locate?_eq_some_iff_name {r : Registry} (h : (r.models.map (·.name)).Nodup)
    {name : String} {id : ModelId} {m : Model} :
    r.locate? name = some (id, m) ↔ r.get? id = some m ∧ m.name = name := by
  rw [locate?_eq_some_iff, idOf_eq_some_iff h]
  constructor
  · rintro ⟨⟨m', hm', hname⟩, hm⟩
    obtain rfl := Option.some.inj (hm'.symm.trans hm)
    exact ⟨hm, hname⟩
  · exact fun ⟨hm, hname⟩ => ⟨⟨m, hm, hname⟩, hm⟩

theorem lookup_eq_ok_iff {r : Registry} (h : (r.models.map (·.name)).Nodup) {name : String}
    {m : Model} : r.lookup name = .ok m ↔ m ∈ r.models ∧ m.name = name := by
  unfold lookup
  cases hfind : r.models.find? (·.name == name) with
  | none =>
    have hnone : ∀ n ∈ r.models, n.name ≠ name := by simpa [List.find?_eq_none] using hfind
    simp only [reduceCtorEq, false_iff, not_and]
    exact hnone m
  | some n =>
    have hn := List.mem_of_find?_eq_some hfind
    have hname : n.name = name := by simpa using List.find?_some hfind
    simp only [Except.ok.injEq]
    constructor
    · rintro rfl
      exact ⟨hn, hname⟩
    · rintro ⟨hm, rfl⟩
      exact List.inj_on_of_nodup_map h hn hm hname

theorem mem_of_get? {r : Registry} {id : ModelId} {m : Model} (h : r.get? id = some m) :
    m ∈ r.models :=
  List.mem_of_getElem? h

theorem exists_get?_of_mem {r : Registry} {m : Model} (h : m ∈ r.models) :
    ∃ id, r.get? id = some m :=
  List.getElem?_of_mem h

theorem exists_locate?_of_mem {r : Registry} (hr : (r.models.map (·.name)).Nodup) {m : Model}
    (h : m ∈ r.models) : ∃ id, r.locate? m.name = some (id, m) := by
  obtain ⟨id, hid⟩ := exists_get?_of_mem h
  exact ⟨id, (locate?_eq_some_iff_name hr).2 ⟨hid, rfl⟩⟩

theorem reference?_eq_some_iff {r : Registry} {id : ReferenceId} {f : Reference} :
    r.reference? id = some f ↔
      ∃ m, r.get? id.model = some m ∧ m.references[id.index]? = some f := by
  unfold reference?
  cases r.get? id.model <;> simp

theorem exists_reference?_of_mem {r : Registry} {m : Model} (hm : m ∈ r.models) {f : Reference}
    (hf : f ∈ m.references) :
    ∃ id : ReferenceId, r.get? id.model = some m ∧ r.reference? id = some f := by
  obtain ⟨i, hi⟩ := exists_get?_of_mem hm
  obtain ⟨j, hj⟩ := List.getElem?_of_mem hf
  exact ⟨⟨i, j⟩, hi, reference?_eq_some_iff.2 ⟨m, hi, hj⟩⟩

/-! ## 2. Sound registries -/

structure Sound (r : Registry) : Prop where
  nodup_names : (r.models.map (·.name)).Nodup
  laid : ∀ m ∈ r.models, m.Laid
  target_eq : ∀ m ∈ r.models, ∀ f ∈ m.references, ∀ resolution, f.resolution = some resolution →
    r.idOf f.target = some resolution.target
  key_ne_nil : ∀ m ∈ r.models, ∀ f ∈ m.references, ∀ resolution, f.resolution = some resolution →
    resolution.key ≠ []

namespace Sound

variable {r : Registry}

theorem model_inj (h : r.Sound) {m n : Model} (hm : m ∈ r.models) (hn : n ∈ r.models)
    (hname : m.name = n.name) : m = n :=
  List.inj_on_of_nodup_map h.nodup_names hm hn hname

/-- A resolved reference points at a model of the registry, the one that it names. -/
theorem exists_target (h : r.Sound) {m : Model} (hm : m ∈ r.models) {f : Reference}
    (hf : f ∈ m.references) {resolution : Resolution} (hres : f.resolution = some resolution) :
    ∃ t, r.get? resolution.target = some t ∧ t.name = f.target :=
  (idOf_eq_some_iff h.nodup_names).1 (h.target_eq m hm f hf resolution hres)

theorem hasForeignTarget_eq_false (h : r.Sound) : r.hasForeignTarget = false := by
  apply List.any_eq_false.2
  intro m hm
  rw [Bool.not_eq_true, List.any_eq_false]
  intro f hf
  rw [Bool.not_eq_true]
  cases hres : f.resolution with
  | none => simp [Reference.resolvedTarget, hres]
  | some resolution =>
    obtain ⟨t, ht, -⟩ := h.exists_target hm hf hres
    have hlt : resolution.target < r.size := (List.getElem?_eq_some_iff.1 ht).1
    simpa [Reference.resolvedTarget, hres] using hlt

theorem broughtColumns_ne_nil (h : r.Sound) {m : Model} (hm : m ∈ r.models) {f : Reference}
    (hf : f ∈ m.references) (hres : f.isResolved) (himplicit : f.isImplicit) :
    f.broughtColumns ≠ [] := by
  obtain ⟨resolution, hres⟩ := Reference.isResolved_iff.1 hres
  obtain ⟨separator, hpairs⟩ := (h.laid m hm).pairs_eq f hf resolution hres himplicit
  rw [Reference.broughtColumns_of_implicit himplicit hres hpairs, Reference.columnsFor,
    ne_eq, List.map_eq_nil_iff]
  exact h.key_ne_nil m hm f hf resolution hres

end Sound

/-! ## 3. Changing one model -/

theorem mem_modify {r : Registry} {id : ModelId} {change : Model → Model} {m n : Model}
    (hm : r.get? id = some m) (hn : n ∈ (r.modify id change).models) :
    n ∈ r.models ∨ n = change m := by
  obtain ⟨i, hi⟩ := exists_get?_of_mem hn
  rw [get?_modify] at hi
  by_cases heq : id = i
  · subst heq
    rw [if_pos rfl, hm, Option.map_some, Option.some.injEq] at hi
    exact .inr hi.symm
  · rw [if_neg heq] at hi
    exact .inl (mem_of_get? hi)

/-- A change of one model that a view of models does not see leaves the view of all of them. -/
theorem map_modify {α : Type} {r : Registry} {id : ModelId} {change : Model → Model} {m : Model}
    (hm : r.get? id = some m) {view : Model → α} (hview : view (change m) = view m) :
    (r.modify id change).models.map view = r.models.map view := by
  apply List.ext_getElem?
  intro i
  have hat : (r.modify id change).models[i]? = if id = i then (r.get? i).map change else r.get? i :=
    get?_modify r id i change
  rw [List.getElem?_map, List.getElem?_map, hat]
  by_cases heq : id = i
  · subst heq
    rw [if_pos rfl, hm, Option.map_some, Option.map_some, hview,
      show r.models[id]? = some m from hm, Option.map_some]
  · rw [if_neg heq]
    rfl

theorem map_name_eq_of_map_bare_eq {r s : Registry}
    (h : r.models.map Model.bare = s.models.map Model.bare) :
    r.models.map (·.name) = s.models.map (·.name) := by
  have hname : ∀ t : Registry, t.models.map (·.name) = (t.models.map Model.bare).map (·.name) :=
    fun t => by rw [List.map_map]; rfl
  rw [hname r, h, ← hname s]

/-- Registries that declare the same models have them at the same places. -/
theorem exists_get?_of_map_bare_eq {r s : Registry}
    (h : r.models.map Model.bare = s.models.map Model.bare) {id : ModelId} {m : Model}
    (hm : r.get? id = some m) : ∃ n, s.get? id = some n ∧ m.bare = n.bare := by
  have hat : (s.models.map Model.bare)[id]? = some m.bare := by
    rw [← h, List.getElem?_map, show r.models[id]? = some m from hm, Option.map_some]
  rw [List.getElem?_map, Option.map_eq_some_iff] at hat
  obtain ⟨n, hn, hbare⟩ := hat
  exact ⟨n, hn, hbare.symm⟩

theorem exists_reference?_of_map_bare_eq {r s : Registry}
    (h : r.models.map Model.bare = s.models.map Model.bare) {id : ReferenceId} {f : Reference}
    (hf : r.reference? id = some f) : ∃ g, s.reference? id = some g ∧ f.bare = g.bare := by
  obtain ⟨m, hm, hfm⟩ := reference?_eq_some_iff.1 hf
  obtain ⟨n, hn, hmn⟩ := exists_get?_of_map_bare_eq h hm
  obtain ⟨g, hg, hbare⟩ := Model.exists_reference?_of_bare_eq hmn hfm
  exact ⟨g, reference?_eq_some_iff.2 ⟨n, hn, hg⟩, hbare.symm⟩

/-- A model of a sound registry may change to a laid out model of its name, as long as the
resolutions it then has are in order. -/
theorem Sound.modify {r : Registry} (h : r.Sound) {id : ModelId} {change : Model → Model}
    {m : Model} (hm : r.get? id = some m) (hname : (change m).name = m.name)
    (hlaid : (change m).Laid)
    (hresolutions : ∀ f ∈ (change m).references, ∀ resolution, f.resolution = some resolution →
      r.idOf f.target = some resolution.target ∧ resolution.key ≠ []) :
    (r.modify id change).Sound := by
  -- ids are found by name, and no name changes
  have hnames := map_modify hm hname
  refine ⟨hnames ▸ h.nodup_names, ?_, ?_, ?_⟩
  · intro n hn
    rcases mem_modify hm hn with hn | rfl
    · exact h.laid n hn
    · exact hlaid
  · intro n hn f hf resolution hres
    rw [idOf_congr hnames]
    rcases mem_modify hm hn with hn | rfl
    · exact h.target_eq n hn f hf resolution hres
    · exact (hresolutions f hf resolution hres).1
  · intro n hn f hf resolution hres
    rcases mem_modify hm hn with hn | rfl
    · exact h.key_ne_nil n hn f hf resolution hres
    · exact (hresolutions f hf resolution hres).2

/-! ## 4. Growth -/

/-- Every model has grown, at its place. -/
structure GrowsTo (r s : Registry) : Prop where
  map_bare_eq : r.models.map Model.bare = s.models.map Model.bare
  growsTo : ∀ id m n, r.get? id = some m → s.get? id = some n → m.GrowsTo n

namespace GrowsTo

variable {r s t : Registry}

theorem refl (h : r.Sound) : r.GrowsTo r :=
  ⟨rfl, fun _ _ _ hm hn =>
    Option.some.inj (hm.symm.trans hn) ▸ Model.GrowsTo.refl (h.laid _ (mem_of_get? hm))⟩

theorem exists_get? (h : r.GrowsTo s) {id : ModelId} {m : Model} (hm : r.get? id = some m) :
    ∃ n, s.get? id = some n ∧ m.GrowsTo n := by
  obtain ⟨n, hn, -⟩ := exists_get?_of_map_bare_eq h.map_bare_eq hm
  exact ⟨n, hn, h.growsTo id m n hm hn⟩

theorem trans (h : r.GrowsTo s) (h' : s.GrowsTo t) : r.GrowsTo t where
  map_bare_eq := h.map_bare_eq.trans h'.map_bare_eq
  growsTo id m n hm hn := by
    obtain ⟨p, hp, hmp⟩ := h.exists_get? hm
    exact hmp.trans (h'.growsTo id p n hp hn)
end GrowsTo

end Registry

end RelSchema
