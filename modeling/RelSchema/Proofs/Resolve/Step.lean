import Mathlib.Logic.Relation
import RelSchema.Proofs.Registry.Sound
import RelSchema.Resolve.Run

/-!
# One reference at a time

A step resolves one open reference against the final key of its target.  It keeps the registry
sound, lets it grow, and closes that reference and no other.
-/

namespace RelSchema

/-! ## 1. Settling -/

namespace Reference

variable {f : Reference} {owner target settled : Model} {separator : String} {key : PrimaryKey}
  {pairs : List Pair}

theorem settle_eq_ok_iff_of_implicit (h : f.isImplicit) :
    f.settle owner target separator key = .ok (settled, pairs) ↔
      owner.synthesize f separator key = .ok settled ∧ pairs = f.sourcePairs separator key := by
  rw [settle, if_pos h]
  cases owner.synthesize f separator key <;> simp [Except.map, eq_comm]

theorem settle_eq_ok_iff_of_explicit (h : f.isImplicit = false) :
    f.settle owner target separator key = .ok (settled, pairs) ↔
      f.checkPairs owner target key = .ok pairs ∧ settled = owner := by
  rw [settle, if_neg (by simp [h])]
  cases f.checkPairs owner target key <;> simp [Except.map, eq_comm, and_comm]

theorem bare_of_settle (h : f.settle owner target separator key = .ok (settled, pairs)) :
    settled.bare = owner.bare := by
  cases himplicit : f.isImplicit with
  | true => exact Model.bare_of_synthesize ((settle_eq_ok_iff_of_implicit himplicit).1 h).1
  | false => rw [((settle_eq_ok_iff_of_explicit himplicit).1 h).2]

theorem references_of_settle (h : f.settle owner target separator key = .ok (settled, pairs)) :
    settled.references = owner.references := by
  cases himplicit : f.isImplicit with
  | true => exact Model.references_of_synthesize ((settle_eq_ok_iff_of_implicit himplicit).1 h).1
  | false => rw [((settle_eq_ok_iff_of_explicit himplicit).1 h).2]

theorem laid_of_settle (howner : owner.Laid) {index : Nat}
    (hf : owner.references[index]? = some f) (hopen : f.resolution = none)
    (h : f.settle owner target separator key = .ok (settled, pairs)) (id : ModelId) :
    (settled.setResolution index (some ⟨id, key, pairs⟩)).Laid := by
  cases himplicit : f.isImplicit with
  | true =>
    obtain ⟨hsynthesize, rfl⟩ := (settle_eq_ok_iff_of_implicit himplicit).1 h
    exact howner.setResolution_of_synthesize hf hopen himplicit hsynthesize id
  | false =>
    obtain ⟨-, rfl⟩ := (settle_eq_ok_iff_of_explicit himplicit).1 h
    exact howner.setResolution_of_explicit hf himplicit _

end Reference

namespace Model

theorem mem_references_setResolution {m : Model} {index : Nat} {f : Reference}
    (hf : m.references[index]? = some f) {resolution : Option Resolution} {g : Reference}
    (hg : g ∈ (m.setResolution index resolution).references) :
    g ∈ m.references ∨ g = { f with resolution := resolution } := by
  rw [references_setResolution] at hg
  obtain ⟨j, hj⟩ := List.getElem?_of_mem hg
  rw [List.getElem?_modify] at hj
  by_cases hindex : index = j
  · subst hindex
    simp only [if_true, hf, Option.map_eq_map, Option.map_some, Option.some.injEq] at hj
    exact .inr hj.symm
  · simp only [hindex, if_false, id_map'] at hj
    exact .inl (List.mem_of_getElem? hj)

/-- A model grows when one of its open references is resolved. -/
theorem Laid.growsTo_setResolution {m s : Model} (h : m.Laid) {index : Nat} {f : Reference}
    (hf : m.references[index]? = some f) (hopen : f.resolution = none)
    (hreferences : s.references = m.references) (hbare : s.bare = m.bare)
    (resolution : Option Resolution) : m.GrowsTo (s.setResolution index resolution) where
  bare_eq := by rw [bare_setResolution, hbare]
  shape_eq g hg g' hg' hfield hres := by
    rcases mem_references_setResolution (hreferences.symm ▸ hf) hg' with hg' | rfl
    · rw [h.reference_inj hg (hreferences ▸ hg') hfield]
    · obtain rfl := h.reference_inj hg (List.mem_of_getElem? hf) hfield
      simp [Reference.isResolved, hopen] at hres

end Model

/-! ## 2. Open references -/

namespace Registry

def IsOpen (r : Registry) (id : ReferenceId) : Prop :=
  ∃ f, r.reference? id = some f ∧ f.resolution = none

theorem mem_unresolved_iff {r : Registry} {id : ReferenceId} :
    id ∈ r.unresolved ↔ r.IsOpen id := by
  simp [unresolved, mem_referencesWhere, IsOpen, Reference.isResolved]

theorem nodup_referenceIds (r : Registry) : r.referenceIds.Nodup := by
  refine List.nodup_flatMap.2 ⟨fun m _ => ?_, ?_⟩
  · exact List.nodup_range.map fun i j h => (ReferenceId.mk.inj h).2
  · -- places in different models differ in the model
    have hdistinct : (r.models.zipIdx.map Prod.snd).Nodup := by
      rw [List.zipIdx_map_snd]
      exact List.nodup_range'
    refine (List.pairwise_map.1 hdistinct).imp fun {p q} hne => ?_
    intro id hp hq
    obtain ⟨i, -, rfl⟩ := List.mem_map.1 hp
    obtain ⟨j, -, heq⟩ := List.mem_map.1 hq
    exact hne (ReferenceId.mk.inj heq).1.symm

theorem nodup_unresolved (r : Registry) : r.unresolved.Nodup :=
  r.nodup_referenceIds.filter _

/-- Recording a resolution at one place changes the reference at that place only. -/
theorem reference?_modify {r : Registry} {id : ReferenceId} {owner : Model} {f : Reference}
    (howner : r.get? id.model = some owner) (hf : owner.references[id.index]? = some f)
    {change : Model → Model} (resolution : Option Resolution)
    (hchange : (change owner).references =
      owner.references.modify id.index fun g => { g with resolution := resolution })
    (id' : ReferenceId) :
    (r.modify id.model change).reference? id' =
      if id' = id then some { f with resolution := resolution } else r.reference? id' := by
  unfold reference?
  rw [get?_modify]
  by_cases hmodel : id.model = id'.model
  · rw [if_pos hmodel, ← hmodel, howner]
    simp only [Option.map_some, hchange, List.getElem?_modify]
    by_cases hindex : id.index = id'.index
    · have hid : id' = id := by
        cases id; cases id'
        simp_all
      simp [hid, hf]
    · have hid : id' ≠ id := fun h => hindex (h ▸ rfl)
      simp [hid, hindex]
  · have hid : id' ≠ id := fun h => hmodel (h ▸ rfl)
    rw [if_neg hmodel, if_neg hid]

/-! ## 3. Steps -/

/-- The reference at a place is resolved against the final key of its target. -/
inductive Step (separator : String) (r : Registry) (id : ReferenceId) : Registry → Prop
  | settle {owner target settled : Model} {f : Reference} {resolution : Resolution}
      (howner : r.get? id.model = some owner)
      (hf : owner.references[id.index]? = some f)
      (hopen : f.resolution = none)
      (htarget : r.locate? f.target = some (resolution.target, target))
      (hfinal : target.isKeyFinal)
      (hkey : target.key = .ok resolution.key)
      (hsettle : f.settle owner target separator resolution.key = .ok (settled, resolution.pairs)) :
      Step separator r id
        (r.modify id.model fun _ => settled.setResolution id.index (some resolution))

namespace Step

variable {separator : String} {r next : Registry} {id : ReferenceId}

theorem sound (h : Step separator r id next) (hr : r.Sound) : next.Sound := by
  obtain @⟨owner, target, settled, f, resolution, howner, hf, hopen, htarget, -, hkey, hsettle⟩ := h
  have hlaid := hr.laid owner (mem_of_get? howner)
  refine hr.modify howner ?_ (f.laid_of_settle hlaid hf hopen hsettle resolution.target) ?_
  · rw [Model.name_setResolution, Model.name_eq_of_bare_eq (f.bare_of_settle hsettle)]
  · intro g hg res hres
    -- all resolutions are old, except the one that is recorded
    rcases Model.mem_references_setResolution (f.references_of_settle hsettle ▸ hf) hg
      with hg | rfl
    · rw [f.references_of_settle hsettle] at hg
      exact ⟨hr.target_eq owner (mem_of_get? howner) g hg res hres,
        hr.key_ne_nil owner (mem_of_get? howner) g hg res hres⟩
    · obtain rfl := Option.some.inj hres
      exact ⟨(locate?_eq_some_iff.1 htarget).1, (Model.key_eq_ok_iff.1 hkey).2⟩

theorem growsTo (h : Step separator r id next) (hr : r.Sound) : r.GrowsTo next := by
  obtain @⟨owner, target, settled, f, resolution, howner, hf, hopen, -, -, -, hsettle⟩ := h
  have hlaid := hr.laid owner (mem_of_get? howner)
  have hgrow := hlaid.growsTo_setResolution hf hopen (f.references_of_settle hsettle)
    (f.bare_of_settle hsettle) (some resolution)
  -- only the owner changes, and it grows
  refine ⟨(map_modify howner hgrow.bare_eq.symm).symm, fun i m n hm hn => ?_⟩
  rw [get?_modify] at hn
  by_cases heq : id.model = i
  · subst heq
    rw [if_pos rfl, howner, Option.map_some, Option.some.injEq] at hn
    rw [howner, Option.some.injEq] at hm
    exact hm ▸ hn ▸ hgrow
  · rw [if_neg heq] at hn
    obtain rfl := Option.some.inj (hm.symm.trans hn)
    exact Model.GrowsTo.refl (hr.laid m (mem_of_get? hm))

theorem map_bare_eq (h : Step separator r id next) :
    next.models.map Model.bare = r.models.map Model.bare := by
  obtain @⟨owner, target, settled, f, resolution, howner, hf, hopen, -, -, -, hsettle⟩ := h
  refine map_modify howner ?_
  rw [Model.bare_setResolution, f.bare_of_settle hsettle]

/-- The reference at the place has its resolution, all others are as they were. -/
theorem reference?_eq (h : Step separator r id next) :
    ∃ f resolution, r.reference? id = some f ∧ f.resolution = none ∧
      ∀ id', next.reference? id' =
        if id' = id then some { f with resolution := some resolution } else r.reference? id' := by
  obtain @⟨owner, target, settled, f, resolution, howner, hf, hopen, -, -, -, hsettle⟩ := h
  refine ⟨f, resolution, reference?_eq_some_iff.2 ⟨owner, howner, hf⟩, hopen, fun id' => ?_⟩
  refine reference?_modify howner hf (some resolution) ?_ id'
  rw [Model.references_setResolution, f.references_of_settle hsettle]

theorem isOpen_iff (h : Step separator r id next) {id' : ReferenceId} :
    next.IsOpen id' ↔ r.IsOpen id' ∧ id' ≠ id := by
  obtain ⟨f, resolution, -, -, hnext⟩ := h.reference?_eq
  unfold IsOpen
  rw [hnext]
  by_cases hid : id' = id
  · simp [hid]
  · simp [hid]

end Step

/-- Any number of steps, one after the other. -/
def Steps (separator : String) : Registry → Registry → Prop :=
  Relation.ReflTransGen fun r next => ∃ id, Step separator r id next

theorem Steps.sound {separator : String} {r s : Registry} (h : Steps separator r s)
    (hr : r.Sound) : s.Sound := by
  induction h with
  | refl => exact hr
  | tail _ hstep ih => exact hstep.choose_spec.sound ih

theorem Steps.map_bare_eq {separator : String} {r s : Registry} (h : Steps separator r s) :
    s.models.map Model.bare = r.models.map Model.bare := by
  induction h with
  | refl => rfl
  | tail _ hstep ih => exact hstep.choose_spec.map_bare_eq.trans ih

theorem Steps.growsTo {separator : String} {r s : Registry} (h : Steps separator r s)
    (hr : r.Sound) : r.GrowsTo s := by
  induction h with
  | refl => exact GrowsTo.refl hr
  | tail hsteps hstep ih => exact ih.trans (hstep.choose_spec.growsTo (Steps.sound hsteps hr))

end Registry

end RelSchema
