import RelSchema.Proofs.Resolve.Step

/-!
# Dropping stale resolutions

Dropping keeps a registry sound and takes away resolutions, never anything that was declared.  Every
round that finds a stale resolution has fewer resolved references behind it, so that the rounds end
in a registry without stale ones.
-/

namespace RelSchema

namespace Registry

variable {r s : Registry}

/-! ## 1. One drop -/

theorem drop_eq_modify {id : ReferenceId} {f : Reference} (h : r.reference? id = some f) :
    r.drop id =
      r.modify id.model fun m => (m.removeSynthesized f.field).setResolution id.index none := by
  rw [drop, h]

theorem Sound.drop (hr : r.Sound) (id : ReferenceId) : (r.drop id).Sound := by
  cases h : r.reference? id with
  | none => rw [Registry.drop, h]; exact hr
  | some f =>
    obtain ⟨m, hm, hf⟩ := reference?_eq_some_iff.1 h
    rw [drop_eq_modify h]
    refine hr.modify hm rfl
      ((hr.laid m (mem_of_get? hm)).setResolution_of_removeSynthesized hf) ?_
    intro g hg resolution hres
    -- the dropped reference has no resolution that could be wrong
    rcases Model.mem_references_setResolution (m := m.removeSynthesized f.field) hf hg
      with hg | rfl
    · exact ⟨hr.target_eq m (mem_of_get? hm) g hg resolution hres,
        hr.key_ne_nil m (mem_of_get? hm) g hg resolution hres⟩
    · simp at hres

/-- A drop clears the resolution at its place and leaves all other references alone. -/
theorem reference?_drop (r : Registry) (id id' : ReferenceId) :
    (r.drop id).reference? id' =
      if id' = id then (r.reference? id').map Reference.bare else r.reference? id' := by
  cases h : r.reference? id with
  | none =>
    have hdrop : r.drop id = r := by rw [drop, h]
    rw [hdrop]
    by_cases hid : id' = id
    · rw [if_pos hid, hid, h, Option.map_none]
    · rw [if_neg hid]
  | some f =>
    obtain ⟨m, hm, hf⟩ := reference?_eq_some_iff.1 h
    rw [drop_eq_modify h, reference?_modify hm hf none rfl id']
    by_cases hid : id' = id
    · rw [if_pos hid, if_pos hid, hid, h]
      rfl
    · rw [if_neg hid, if_neg hid]

/-! ## 2. Rounds -/

/-- What every drop keeps is kept by the rounds. -/
theorem dropRounds_induction {motive : Registry → Prop}
    (hdrop : ∀ s id, motive s → motive (s.drop id)) (hr : motive r) (rounds : Nat) :
    motive (dropRounds rounds r) := by
  induction rounds generalizing r with
  | zero => exact hr
  | succ rounds ih =>
    exact ih (List.foldlRecOn r.staleReferences drop hr fun s hs id _ => hdrop s id hs)

section View

variable {α : Type} {view : Model → α}
  (hview : ∀ m field index, view ((m.removeSynthesized field).setResolution index none) = view m)
include hview

/-- A view of models that sees neither resolutions nor the columns that they bring sees no drop. -/
theorem map_drop (r : Registry) (id : ReferenceId) :
    (r.drop id).models.map view = r.models.map view := by
  cases h : r.reference? id with
  | none => rw [drop, h]
  | some f =>
    obtain ⟨m, hm, -⟩ := reference?_eq_some_iff.1 h
    rw [drop_eq_modify h]
    exact map_modify hm (hview m f.field id.index)

theorem map_dropRounds (rounds : Nat) (r : Registry) :
    (dropRounds rounds r).models.map view = r.models.map view :=
  dropRounds_induction (motive := fun s => s.models.map view = r.models.map view)
    (fun s id hs => (map_drop hview s id).trans hs) rfl rounds

end View

theorem bare_of_drop (m : Model) (field : String) (index : Nat) :
    ((m.removeSynthesized field).setResolution index none).bare = m.bare := by
  rw [Model.bare_setResolution, Model.bare_removeSynthesized]

theorem reference?_foldl_drop (ids : List ReferenceId) (r : Registry) (id : ReferenceId) :
    (ids.foldl drop r).reference? id =
      if id ∈ ids then (r.reference? id).map Reference.bare else r.reference? id := by
  induction ids generalizing r with
  | nil => simp
  | cons id' ids ih =>
    rw [List.foldl_cons, ih, reference?_drop]
    -- dropping twice at one place is dropping once
    by_cases hid : id = id'
    · subst hid
      have hbare : Reference.bare ∘ Reference.bare = Reference.bare := rfl
      simp [hbare]
    · simp [hid]

/-- What is still resolved after the rounds has the resolution that it had before. -/
theorem reference?_of_dropRounds {rounds : Nat} {id : ReferenceId} {f : Reference}
    (h : (Registry.dropRounds rounds r).reference? id = some f) (hres : f.isResolved) :
    r.reference? id = some f := by
  induction rounds generalizing r with
  | zero => exact h
  | succ rounds ih =>
    have hround := ih h
    rw [dropRound, reference?_foldl_drop] at hround
    split at hround
    · obtain ⟨g, -, rfl⟩ := Option.map_eq_some_iff.1 hround
      simp [Reference.isResolved, Reference.bare] at hres
    · exact hround

/-! ## 3. The end of the rounds -/

theorem referenceIds_congr (h : r.models.map Model.bare = s.models.map Model.bare) :
    r.referenceIds = s.referenceIds := by
  have hbare : ∀ t : Registry, t.referenceIds =
      ((t.models.map Model.bare).zipIdx).flatMap fun p =>
        (List.range p.1.references.length).map fun j => ⟨p.2, j⟩ := by
    intro t
    rw [List.zipIdx_map, List.flatMap_map]
    apply List.flatMap_congr
    intro p _
    simp [Model.bare]
  rw [hbare r, hbare s, h]

theorem dropRound_of_staleReferences_eq_nil (h : r.staleReferences = []) : r.dropRound = r := by
  rw [dropRound, h]
  rfl

theorem dropRounds_of_staleReferences_eq_nil (h : r.staleReferences = []) (rounds : Nat) :
    Registry.dropRounds rounds r = r := by
  induction rounds with
  | zero => rfl
  | succ rounds ih => rw [Registry.dropRounds, dropRound_of_staleReferences_eq_nil h, ih]

theorem isResolved_of_isStale {f : Reference} (h : r.isStale f) : f.isResolved := by
  cases hres : f.resolution with
  | none => simp [isStale, hres] at h
  | some resolution => simp [Reference.isResolved, hres]

theorem resolvedCount_dropRound_lt (h : r.staleReferences ≠ []) :
    r.dropRound.resolvedCount < r.resolvedCount := by
  have hat : ∀ id, r.dropRound.reference? id =
      if id ∈ r.staleReferences then (r.reference? id).map Reference.bare else r.reference? id :=
    fun id => reference?_foldl_drop r.staleReferences r id
  have hids : r.dropRound.referenceIds = r.referenceIds :=
    referenceIds_congr (map_dropRounds bare_of_drop 1 r)
  -- what is resolved afterwards was resolved before and is not stale
  have hsub : r.dropRound.referencesWhere (·.isResolved) =
      (r.referencesWhere (·.isResolved)).filter fun id => (r.dropRound.reference? id).any
        (·.isResolved) := by
    rw [referencesWhere, referencesWhere, hids, List.filter_filter]
    apply List.filter_congr
    intro id _
    rw [hat]
    split
    · cases r.reference? id <;> simp [Reference.isResolved, Reference.bare]
    · simp
  obtain ⟨id, hid⟩ := List.exists_mem_of_ne_nil _ h
  obtain ⟨f, hf, hstale⟩ := mem_referencesWhere.1 hid
  rw [resolvedCount, hsub, resolvedCount, List.length_filter_lt_length_iff_exists]
  refine ⟨id, mem_referencesWhere.2 ⟨f, hf, isResolved_of_isStale hstale⟩, ?_⟩
  rw [hat, if_pos hid, hf]
  simp [Reference.isResolved, Reference.bare]

theorem staleReferences_dropRounds {rounds : Nat} (h : r.resolvedCount ≤ rounds) :
    (Registry.dropRounds rounds r).staleReferences = [] := by
  induction rounds generalizing r with
  | zero =>
    -- no reference is resolved, let alone stale
    have hnone : r.referencesWhere (·.isResolved) = [] :=
      List.eq_nil_of_length_eq_zero (Nat.le_zero.1 h)
    apply List.eq_nil_iff_forall_not_mem.2
    intro id hid
    obtain ⟨f, hf, hstale⟩ := mem_referencesWhere.1 hid
    have hmem : id ∈ r.referencesWhere (·.isResolved) :=
      mem_referencesWhere.2 ⟨f, hf, isResolved_of_isStale hstale⟩
    simp [hnone] at hmem
  | succ rounds ih =>
    by_cases hstale : r.staleReferences = []
    · rw [dropRounds_of_staleReferences_eq_nil hstale]
      exact hstale
    · have hlt := resolvedCount_dropRound_lt hstale
      exact ih (by omega)

/-! ## 4. Registries without stale resolutions -/

theorem Sound.withoutStale (hr : r.Sound) : r.withoutStale.Sound :=
  dropRounds_induction (fun _ id hs => hs.drop id) hr _

/-- What is kept by dropping resolved references is kept when different ones are dropped in turn. -/
theorem foldl_drop_induction {motive : Registry → Prop}
    (hdrop : ∀ s id f, s.reference? id = some f → f.isResolved → motive s → motive (s.drop id))
    {ids : List ReferenceId} (hnodup : ids.Nodup)
    (hids : ∀ id ∈ ids, ∃ f, r.reference? id = some f ∧ f.isResolved) (hr : motive r) :
    motive (ids.foldl drop r) := by
  induction ids generalizing r with
  | nil => exact hr
  | cons id ids ih =>
    obtain ⟨hnot, hrest⟩ := List.nodup_cons.1 hnodup
    obtain ⟨f, hf, hres⟩ := hids id List.mem_cons_self
    refine ih hrest (fun id' hid' => ?_) (hdrop r id f hf hres hr)
    have hne : id' ≠ id := fun heq => hnot (heq ▸ hid')
    rw [reference?_drop, if_neg hne]
    exact hids id' (.tail _ hid')

/-- What dropping a resolved reference keeps is the same without stale resolutions. -/
theorem withoutStale_induction {motive : Registry → Prop}
    (hdrop : ∀ s id f, s.reference? id = some f → f.isResolved → motive s → motive (s.drop id))
    (hr : motive r) : motive r.withoutStale := by
  have hrounds : ∀ rounds (s : Registry), motive s → motive (Registry.dropRounds rounds s) := by
    intro rounds
    induction rounds with
    | zero => exact fun _ hs => hs
    | succ rounds ih =>
      intro s hs
      refine ih _ (foldl_drop_induction hdrop (s.nodup_referenceIds.filter _) (fun id hid => ?_) hs)
      obtain ⟨f, hf, hstale⟩ := mem_referencesWhere.1 hid
      exact ⟨f, hf, isResolved_of_isStale hstale⟩
  exact hrounds _ r hr

theorem staleReferences_withoutStale (r : Registry) : r.withoutStale.staleReferences = [] :=
  staleReferences_dropRounds (Nat.le_refl _)

theorem map_bare_withoutStale (r : Registry) :
    r.withoutStale.models.map Model.bare = r.models.map Model.bare :=
  map_dropRounds bare_of_drop _ r

theorem withoutStale_of_staleReferences_eq_nil (h : r.staleReferences = []) :
    r.withoutStale = r :=
  dropRounds_of_staleReferences_eq_nil h _

theorem isStale_eq_false_of_staleReferences_eq_nil (h : r.staleReferences = []) {id : ReferenceId}
    {f : Reference} (hf : r.reference? id = some f) : r.isStale f = false := by
  cases hstale : r.isStale f
  · rfl
  · have hmem : id ∈ r.staleReferences := mem_referencesWhere.2 ⟨f, hf, hstale⟩
    simp [h] at hmem

/-- What is stale in the beginning is not kept. -/
theorem isStale_eq_false_of_withoutStale {id : ReferenceId} {f : Reference}
    (h : r.withoutStale.reference? id = some f) (hres : f.isResolved) : r.isStale f = false := by
  have hf := reference?_of_dropRounds h hres
  by_contra hstale
  have hmem : id ∈ r.staleReferences :=
    mem_referencesWhere.2 ⟨f, hf, Bool.not_eq_false _ ▸ hstale⟩
  have hresolved : id ∈ r.referencesWhere (·.isResolved) := mem_referencesWhere.2 ⟨f, hf, hres⟩
  -- some reference is resolved, so that there is a first round, and it drops this one
  obtain ⟨rounds, hrounds⟩ :=
    Nat.exists_eq_succ_of_ne_zero (Nat.ne_of_gt (List.length_pos_of_mem hresolved))
  rw [Registry.withoutStale, resolvedCount, hrounds, Registry.dropRounds] at h
  have hround := reference?_of_dropRounds h hres
  rw [dropRound, reference?_foldl_drop, if_pos hmem, hf, Option.map_some,
    Option.some.injEq] at hround
  rw [← hround] at hres
  simp [Reference.isResolved, Reference.bare] at hres

/-- In a sound registry a resolution is stale when the target's key is not the recorded one. -/
theorem Sound.isStale_iff (hr : r.Sound) {m : Model} (hm : m ∈ r.models) {f : Reference}
    (hf : f ∈ m.references) {resolution : Resolution} (hres : f.resolution = some resolution)
    {target : Model} (htarget : r.get? resolution.target = some target) :
    r.isStale f ↔ target.keyShape ≠ resolution.key := by
  simp only [isStale, hres, htarget]
  cases hkey : target.key with
  | ok key => simp [(Model.key_eq_ok_iff.1 hkey).1]
  | error e =>
    -- a target without a key makes stale whatever was resolved against it
    have hempty : target.keyShape = [] := by
      by_contra hne
      simp [Model.key_eq_ok_iff.2 ⟨rfl, hne⟩] at hkey
    simp [hempty, (hr.key_ne_nil m hm f hf resolution hres).symm]

end Registry

end RelSchema
