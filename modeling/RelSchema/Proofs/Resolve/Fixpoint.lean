import RelSchema.Proofs.Resolve.Confluence
import RelSchema.Proofs.Resolve.Staleness

/-!
# What a resolution leaves as it is

A resolution changes nothing when nothing is stale, nothing is open and every model has a key.  A
resolution that has just succeeded leaves a registry like that, unless it has kept a reference that
was resolved prematurely, for which a replacement is needed.
-/

namespace RelSchema

namespace Registry

variable {separator : String} {r s : Registry} {id : ReferenceId} {f : Reference}

/-! ## 1. Registries that stay -/

/-- The registries that a resolution leaves as they are, whatever the separator. -/
theorem Sound.resolve_eq_self_iff (hr : r.Sound) :
    (r.resolve separator).result = .ok r ↔
      r.staleReferences = [] ∧ (∀ id, ¬r.IsOpen id) ∧ ∀ m ∈ r.models, m.keyShape ≠ [] := by
  constructor
  · intro h
    obtain ⟨hsteps, hopen, hkeys⟩ := steps_of_resolve hr h
    refine ⟨List.eq_nil_iff_forall_not_mem.2 fun id hid => ?_, hopen, hkeys⟩
    obtain ⟨f, hf, hstale⟩ := mem_referencesWhere.1 hid
    have hres := isResolved_of_isStale hstale
    -- a stale reference was not kept, and what the run has settled is not stale
    rcases hsteps.settledIn_or hr.withoutStale hf hres with
      hkept | ⟨owner, resolution, howner, hsettled, -⟩
    · simp [isStale_eq_false_of_withoutStale hkept hres] at hstale
    · obtain ⟨m, hm, hfm⟩ := reference?_eq_some_iff.1 hf
      obtain rfl := Option.some.inj (howner.symm.trans hm)
      have hnot := hsettled.isStale_eq_false hr (mem_of_get? hm) (List.mem_of_getElem? hfm)
      simp [hnot] at hstale
  · rintro ⟨hstale, hopen, hkeys⟩
    have hpending : r.unresolved = [] := List.eq_nil_iff_forall_not_mem.2 fun id hid =>
      hopen id (mem_unresolved_iff.1 hid)
    have hpasses : (passes separator (r.size + 1) ⟨r, r.unresolved, 0⟩).result =
        .ok ⟨r, r.unresolved, 0⟩ := result_passes_nil separator _ hpending
    have hconclude : (conclude ⟨r, r.unresolved, 0⟩).result = .ok r :=
      conclude_eq_ok_iff.2 ⟨hpending, hkeys, rfl⟩
    rw [result_resolve hr, result_resolveAll, withoutStale_of_staleReferences_eq_nil hstale,
      hpasses, Except.bind, hconclude, Except.mapError]

/-! ## 2. Two resolutions in a row -/

/-- The second of two resolutions changes nothing exactly if the first one has kept nothing that was
premature. -/
theorem Sound.resolve_eq_self_iff_of_resolve (hr : r.Sound)
    (h : (r.resolve separator).result = .ok s) (again : String) :
    (s.resolve again).result = .ok s ↔
      ∀ id f, r.withoutStale.reference? id = some f → r.withoutStale.isPremature f = false := by
  obtain ⟨hsteps, hopen, hkeys⟩ := steps_of_resolve hr h
  rw [(hr.resolve h).resolve_eq_self_iff]
  constructor
  · rintro ⟨hstale, -, -⟩ id f hf
    by_contra hpremature
    rw [Bool.not_eq_false] at hpremature
    have hkept := hsteps.reference?_of_isResolved hf (isResolved_of_isPremature hpremature)
    have hafter := (isStale_iff_isPremature_of_resolve hr h hkept).2 ⟨f, hf, hpremature⟩
    simp [isStale_eq_false_of_staleReferences_eq_nil hstale hkept] at hafter
  · intro hpremature
    refine ⟨List.eq_nil_iff_forall_not_mem.2 fun id hid => ?_, hopen, hkeys⟩
    obtain ⟨f, hf, hstale⟩ := mem_referencesWhere.1 hid
    obtain ⟨g, hg, hgpremature⟩ := (isStale_iff_isPremature_of_resolve hr h hf).1 hstale
    simp [hpremature id g hg] at hgpremature

/-- Without replacements every reference is resolved against a final key. -/
theorem Coherent.isPremature_eq_false (hr : r.Coherent) (hf : r.reference? id = some f) :
    r.isPremature f = false := by
  cases hres : f.resolution with
  | none => simp [isPremature, hres]
  | some resolution =>
    obtain ⟨m, hm, hfm⟩ := reference?_eq_some_iff.1 hf
    obtain ⟨t, ht, hfinal, -⟩ :=
      (hr.settled m (mem_of_get? hm) f (List.mem_of_getElem? hfm) resolution hres).exists_target
    rw [← Bool.not_eq_true, isPremature_iff hres ht,
      Model.awaitsKeyColumns_eq_false_of_isKeyFinal hfinal]
    exact Bool.false_ne_true

/-- Without replacements a resolution that follows one that has succeeded succeeds as well, with
whatever separator, and changes nothing. -/
theorem resolve_eq_self_of_resolve {operations : List Operation}
    (hfresh : ∀ o ∈ operations, o.Fresh) (haccumulates : ∀ o ∈ operations, o.Accumulates)
    (h : ((after operations).resolve separator).result = .ok s) (again : String) :
    (s.resolve again).result = .ok s := by
  have hr := coherent_after_of_accumulates hfresh haccumulates
  rw [hr.sound.resolve_eq_self_iff_of_resolve h, hr.withoutStale_eq]
  exact fun id f hf => hr.isPremature_eq_false hf

theorem resolve_eq_self_inBatches :
    ∃ s, ((after inBatches).resolve "_").result = .ok s ∧ (s.resolve ".").result = .ok s := by
  have hresolve : ∃ s, ((after inBatches).resolve "_").result = .ok s := ⟨_, rfl⟩
  obtain ⟨s, hs⟩ := hresolve
  have haccumulates : ∀ o ∈ inBatches, o.Accumulates := by simp [inBatches, Operation.Accumulates]
  exact ⟨s, hs, resolve_eq_self_of_resolve fresh_inBatches haccumulates hs "."⟩

end Registry

end RelSchema
