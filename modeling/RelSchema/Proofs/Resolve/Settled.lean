import RelSchema.Proofs.Resolve.Dropping
import RelSchema.Proofs.Resolve.Pairing
import RelSchema.Proofs.Resolve.Run

/-!
# Settled references

A resolved reference is settled when the key that it records is the final key of its target and its
pairs match that key on the owner.  Whatever a run resolves is settled from then on, since a final
key never changes and no column of the owner is lost.
-/

namespace RelSchema

/-! ## 1. Keys of laid out models -/

theorem Model.Laid.nodup_names_keyShape {m : Model} (h : m.Laid) : m.keyShape.names.Nodup :=
  Model.nodup_names_keyShape h.nodup_columnNames

/-- A pair that fits goes on fitting while the owner grows. -/
theorem Pair.Fits.mono {owner grown : Model} {f g : Reference} {key : PrimaryKey} {p : Pair}
    (h : p.Fits owner f key) (hgrow : owner.GrowsTo grown) (howner : owner.Laid)
    (hgrown : grown.Laid) (hbare : f.bare = g.bare) : p.Fits grown g key := by
  obtain ⟨c, hc, k, hk, hname, hkname, htype, hnullable, hkey⟩ := h
  obtain ⟨d, hd, hdc⟩ := hgrow.exists_column howner hgrown hc
  have hprimary : f.primaryKey = g.primaryKey := Reference.congr_of_bare_eq hbare (·.primaryKey)
  refine ⟨d, hd, k, hk, ?_, hkname, ?_, ?_, ?_⟩
  · rw [Column.congr_of_bare_eq hdc (·.name), hname]
  · rw [Column.congr_of_bare_eq hdc (·.type), htype]
  · rw [Column.congr_of_bare_eq hdc (·.nullable)]; exact hnullable
  · rw [Column.congr_of_bare_eq hdc (·.primaryKey), ← hprimary]; exact hkey

namespace Reference

theorem Matches.mono {owner grown : Model} {f g : Reference} {key : PrimaryKey}
    (h : f.Matches owner key) (hgrow : owner.GrowsTo grown) (howner : owner.Laid)
    (hgrown : grown.Laid) (hbare : f.bare = g.bare) : g.Matches grown key := by
  have hpairs : f.declaredPairs = g.declaredPairs := congr_of_bare_eq hbare (·.declaredPairs)
  exact ⟨fun p hp => (h.fits p (hpairs ▸ hp)).mono hgrow howner hgrown hbare,
    hpairs ▸ h.nodup_sources, hpairs ▸ h.targets_perm⟩

/-! ## 2. Resolved pairs -/

theorem pairs_eq_of_resolution {f : Reference} {resolution : Resolution}
    (h : f.resolution = some resolution) : f.pairs = resolution.pairs := by
  rw [pairs, h]

/-- The columns of an implicit reference stand where it stands, as long as it is resolved. -/
theorem fits_of_implicit {owner : Model} {f : Reference} {resolution : Resolution} {p : Pair}
    (howner : owner.Laid) (hf : f ∈ owner.references) (hres : f.resolution = some resolution)
    (himplicit : f.isImplicit) (hp : p ∈ f.pairs) : p.Fits owner f resolution.key := by
  obtain ⟨separator, hpairs⟩ := howner.pairs_eq f hf resolution hres himplicit
  rw [pairs_eq_of_resolution hres, hpairs] at hp
  obtain ⟨k, hk, rfl⟩ := List.mem_map.1 hp
  have hbrought : f.broughtColumn k ⟨f.sourceName separator k, k.name⟩ ∈ f.broughtColumns := by
    rw [broughtColumns_of_implicit himplicit hres hpairs]
    exact List.mem_map_of_mem hk
  have hcolumn := howner.mem_columns_iff.2 (.inr ⟨f, hf, hbrought⟩)
  exact ⟨_, hcolumn, k, hk, rfl, rfl, rfl, fun hnullable => hnullable, fun hkey => hkey⟩

/-! ## 3. Settled references -/

/-- The reference is resolved against what is the final key of its target. -/
structure SettledIn (r : Registry) (owner : Model) (f : Reference) (resolution : Resolution) :
    Prop where
  resolution_eq : f.resolution = some resolution
  exists_target : ∃ t, r.get? resolution.target = some t ∧ t.isKeyFinal ∧
    t.keyShape = resolution.key
  matches_key : f.isImplicit = false → f.Matches owner resolution.key ∧
    resolution.pairs = resolution.key.filterMap (pairFor? f.declaredPairs)

/-- The declared pairs of a settled reference fit. -/
theorem SettledIn.fits {r : Registry} {owner : Model} {f : Reference} {resolution : Resolution}
    (h : f.SettledIn r owner resolution) {p : Pair} (hp : p ∈ f.declaredPairs) :
    p.Fits owner f resolution.key := by
  cases himplicit : f.isImplicit with
  | true =>
    have hnil : f.declaredPairs = [] := List.isEmpty_iff.1 himplicit
    rw [hnil] at hp
    exact absurd hp List.not_mem_nil
  | false => exact (h.matches_key himplicit).1.fits p hp

/-- All pairs of a settled reference fit: the declared ones were checked, and the columns of the
synthesized ones stand where the reference stands. -/
theorem SettledIn.fits_of_mem_pairs {r : Registry} {owner : Model} {f : Reference}
    {resolution : Resolution} (h : f.SettledIn r owner resolution) (howner : owner.Laid)
    (hf : f ∈ owner.references) {p : Pair} (hp : p ∈ f.pairs) :
    p.Fits owner f resolution.key := by
  cases himplicit : f.isImplicit with
  | true => exact fits_of_implicit howner hf h.resolution_eq himplicit hp
  | false =>
    rw [pairs_eq_of_resolution h.resolution_eq, (h.matches_key himplicit).2] at hp
    exact h.fits (mem_of_mem_filterMap_pairFor? hp)

/-- The pairs of a settled reference lead to the recorded key, in the order of the key. -/
theorem SettledIn.map_target_pairs {r : Registry} {owner : Model} {f : Reference}
    {resolution : Resolution} (h : f.SettledIn r owner resolution) (howner : owner.Laid)
    (hf : f ∈ owner.references) : f.pairs.map (·.target) = resolution.key.names := by
  rw [pairs_eq_of_resolution h.resolution_eq]
  cases himplicit : f.isImplicit with
  | true =>
    obtain ⟨separator, hpairs⟩ := howner.pairs_eq f hf resolution h.resolution_eq himplicit
    rw [hpairs, sourcePairs, List.map_map]
    rfl
  | false =>
    obtain ⟨hmatches, hpairs⟩ := h.matches_key himplicit
    rw [hpairs]
    exact hmatches.map_target_filterMap

theorem SettledIn.mono {r s : Registry} {owner grown : Model} {f : Reference}
    {resolution : Resolution} (h : f.SettledIn r owner resolution) (hr : r.Sound) (hs : s.Sound)
    (hgrow : r.GrowsTo s) (hownerGrow : owner.GrowsTo grown) (howner : owner.Laid)
    (hgrown : grown.Laid) : f.SettledIn s grown resolution := by
  refine ⟨h.resolution_eq, ?_, fun hexplicit => ?_⟩
  · -- the target may grow, but its key was final
    obtain ⟨t, ht, hfinal, hkey⟩ := h.exists_target
    obtain ⟨t', ht', htGrow⟩ := hgrow.exists_get? ht
    refine ⟨t', ht', htGrow.isKeyFinal hfinal, hkey ▸ (htGrow.keyShape_eq ?_ ?_ ?_).symm⟩
    · exact hr.laid t (Registry.mem_of_get? ht)
    · exact hs.laid t' (Registry.mem_of_get? ht')
    · exact Model.awaitsKeyColumns_eq_false_of_isKeyFinal hfinal
  · obtain ⟨hmatches, hpairs⟩ := h.matches_key hexplicit
    exact ⟨hmatches.mono hownerGrow howner hgrown rfl, hpairs⟩

/-- In a sound registry the target of a settled reference is the model that the reference names. -/
theorem SettledIn.exists_named_target {r : Registry} {owner : Model} {f : Reference}
    {resolution : Resolution} (h : f.SettledIn r owner resolution) (hr : r.Sound)
    (howner : owner ∈ r.models) (hf : f ∈ owner.references) :
    ∃ t, r.get? resolution.target = some t ∧ t.name = f.target ∧ t.isKeyFinal ∧
      t.keyShape = resolution.key := by
  obtain ⟨t, ht, hfinal, hkey⟩ := h.exists_target
  obtain ⟨named, hnamed, hname⟩ := hr.exists_target howner hf h.resolution_eq
  obtain rfl := Option.some.inj (ht.symm.trans hnamed)
  exact ⟨t, ht, hname, hfinal, hkey⟩

/-- A settled reference is not stale. -/
theorem SettledIn.isStale_eq_false {r : Registry} {owner : Model} {f : Reference}
    {resolution : Resolution} (h : f.SettledIn r owner resolution) (hr : r.Sound)
    (howner : owner ∈ r.models) (hf : f ∈ owner.references) : r.isStale f = false := by
  obtain ⟨t, ht, -, hkey⟩ := h.exists_target
  rw [← Bool.not_eq_true, hr.isStale_iff howner hf h.resolution_eq ht, not_not]
  exact hkey

/-- What settling records about an open reference is settled. -/
theorem settledIn_of_settle {r : Registry} {owner target settled : Model} {f : Reference}
    {separator : String} {resolution : Resolution} (howner : owner.Laid) (htargetLaid : target.Laid)
    (htarget : r.get? resolution.target = some target) (hfinal : target.isKeyFinal)
    (hkey : target.key = .ok resolution.key)
    (h : f.settle owner target separator resolution.key = .ok (settled, resolution.pairs)) :
    SettledIn r owner { f with resolution := some resolution } resolution := by
  have hshape := (Model.key_eq_ok_iff.1 hkey).1
  refine ⟨rfl, ⟨target, htarget, hfinal, hshape⟩, fun hexplicit => ?_⟩
  have hcheck := ((settle_eq_ok_iff_of_explicit (f := f) hexplicit).1 h).1
  rw [checkPairs_eq_ok_iff howner.nodup_columnNames (hshape ▸ htargetLaid.nodup_names_keyShape)
    (fun k hk => Model.exists_column?_of_mem_keyShape (hshape ▸ hk))] at hcheck
  exact ⟨⟨hcheck.1.fits, hcheck.1.nodup_sources, hcheck.1.targets_perm⟩, hcheck.2⟩

end Reference

/-! ## 4. What a run resolves is settled -/

namespace Registry

variable {separator : String} {r s next : Registry} {id : ReferenceId}

/-- A step settles its reference, with pairs named by the separator when it is implicit. -/
theorem Step.settledIn (h : Step separator r id next) (hr : r.Sound) :
    ∃ owner f resolution, next.get? id.model = some owner ∧ next.reference? id = some f ∧
      f.SettledIn next owner resolution ∧
      (f.isImplicit → resolution.pairs = f.sourcePairs separator resolution.key) := by
  have hgrow := h.growsTo hr
  have hsound := h.sound hr
  obtain @⟨owner, target, settled, f, resolution, howner, hf, hopen, htarget, hfinal, hkey,
    hsettle⟩ := h
  have htargetAt := (locate?_eq_some_iff.1 htarget).2
  have hownerLaid := hr.laid owner (mem_of_get? howner)
  obtain ⟨grown, hgrown, hownerGrow⟩ := hgrow.exists_get? howner
  refine ⟨grown, { f with resolution := some resolution }, resolution, hgrown, ?_, ?_, ?_⟩
  · rw [reference?_modify howner hf (some resolution), if_pos rfl]
    rw [Model.references_setResolution, f.references_of_settle hsettle]
  · -- settled before the change of the owner, which may be the target too, hence also after it
    exact (Reference.settledIn_of_settle hownerLaid (hr.laid target (mem_of_get? htargetAt))
      htargetAt hfinal hkey hsettle).mono hr hsound hgrow hownerGrow hownerLaid
      (hsound.laid grown (mem_of_get? hgrown))
  · exact fun himplicit => ((Reference.settle_eq_ok_iff_of_implicit (f := f) himplicit).1 hsettle).2

/-- The reference of a step names a model whose key is final before the step. -/
theorem Step.exists_target (h : Step separator r id next) (hr : r.Sound) :
    ∃ f, r.reference? id = some f ∧ ∃ t ∈ r.models, t.name = f.target ∧ t.isKeyFinal := by
  obtain @⟨owner, target, settled, f, resolution, howner, hf, -, htarget, hfinal, -, -⟩ := h
  obtain ⟨ht, hname⟩ := (locate?_eq_some_iff_name hr.nodup_names).1 htarget
  exact ⟨f, reference?_eq_some_iff.2 ⟨owner, howner, hf⟩, target, mem_of_get? ht, hname, hfinal⟩

/-- After a step a resolved reference was resolved before it, or the step has settled it. -/
theorem Step.settledIn_or (h : Step separator r id next) (hr : r.Sound) {id' : ReferenceId}
    {f : Reference} (hf : next.reference? id' = some f) (hres : f.isResolved) :
    r.reference? id' = some f ∨
      ∃ owner resolution, next.get? id'.model = some owner ∧ f.SettledIn next owner resolution ∧
        (f.isImplicit → resolution.pairs = f.sourcePairs separator resolution.key) ∧
        ∃ t ∈ r.models, t.name = f.target ∧ t.isKeyFinal := by
  obtain ⟨g, resolution, hg, -, hnext⟩ := h.reference?_eq
  by_cases hid : id' = id
  · obtain ⟨owner, f', resolution', howner, hf', hsettled, hpairs⟩ := h.settledIn hr
    obtain ⟨g', hg', t, ht, hname, hfinal⟩ := h.exists_target hr
    rw [hid] at hf ⊢
    obtain rfl := Option.some.inj (hf'.symm.trans hf)
    obtain rfl := Option.some.inj (hg'.symm.trans hg)
    rw [hnext, if_pos rfl] at hf
    have heq := Option.some.inj hf
    have htarget : g'.target = f'.target := congrArg (·.target) heq
    exact .inr ⟨owner, resolution', howner, hsettled, hpairs, t, ht, hname.trans htarget, hfinal⟩
  · rw [hnext, if_neg hid] at hf
    exact .inl hf

/-- A resolution that was there before the steps is there afterwards. -/
theorem Steps.reference?_of_isResolved (h : Steps separator r s) {f : Reference}
    (hf : r.reference? id = some f) (hres : f.isResolved) : s.reference? id = some f := by
  induction h with
  | refl => exact hf
  | @tail mid next _ hstep ih =>
    obtain ⟨id', hstep⟩ := hstep
    obtain ⟨g, resolution, hg, hopen, hnext⟩ := hstep.reference?_eq
    -- a step only resolves what is open
    have hid : id ≠ id' := by
      rintro rfl
      obtain rfl := Option.some.inj (hg.symm.trans ih)
      simp [Reference.isResolved, hopen] at hres
    rw [hnext, if_neg hid, ih]

/-- Steps keep every reference that they do not find open. -/
theorem Steps.isOpen_or_reference?_eq (h : Steps separator r s) (hr : r.Sound) {f : Reference}
    (hf : s.reference? id = some f) : r.IsOpen id ∨ r.reference? id = some f := by
  obtain ⟨g, hg, -⟩ := exists_reference?_of_map_bare_eq (h.growsTo hr).map_bare_eq.symm hf
  cases hres : g.isResolved with
  | true =>
    rw [hg, ← h.reference?_of_isResolved hg hres, hf]
    exact .inr rfl
  | false => exact .inl ⟨g, hg, Reference.isResolved_eq_false_iff.1 hres⟩

/-- After any number of steps a resolved reference was resolved before them, or it is settled. -/
theorem Steps.settledIn_or (h : Steps separator r s) (hr : r.Sound) {f : Reference}
    (hf : s.reference? id = some f) (hres : f.isResolved) :
    r.reference? id = some f ∨
      ∃ owner resolution, s.get? id.model = some owner ∧ f.SettledIn s owner resolution ∧
        (f.isImplicit → resolution.pairs = f.sourcePairs separator resolution.key) := by
  induction h with
  | refl => exact .inl hf
  | @tail mid next hsteps hstep ih =>
    obtain ⟨id', hstep⟩ := hstep
    have hmid := Steps.sound hsteps hr
    have hnext := hstep.sound hmid
    -- what the last step did not settle was there before it
    rcases hstep.settledIn_or hmid hf hres with
      hbefore | ⟨owner, resolution, howner, hsettled, hpairs, -⟩
    · rcases ih hbefore with hstart | ⟨owner, resolution, howner, hsettled, hpairs⟩
      · exact .inl hstart
      · obtain ⟨grown, hgrown, hgrow⟩ := (hstep.growsTo hmid).exists_get? howner
        exact .inr ⟨grown, resolution, hgrown, hsettled.mono hmid hnext (hstep.growsTo hmid) hgrow
          (hmid.laid owner (mem_of_get? howner)) (hnext.laid grown (mem_of_get? hgrown)), hpairs⟩
    · exact .inr ⟨owner, resolution, howner, hsettled, hpairs⟩

end Registry

end RelSchema
