import RelSchema.Proofs.Assembly.Failures
import RelSchema.Proofs.Resolve.Correct

/-!
# What stays stale

A resolution drops what is stale before it resolves anything, and does not look again.  A reference
that it finds resolved against a key to which columns are still to be added is stale in the end, and
no other reference is.
-/

namespace RelSchema

namespace Registry

/-! ## 1. Premature resolutions -/

/-- Whether the reference is resolved against a key to which an implicit reference will add. -/
def isPremature (r : Registry) (f : Reference) : Bool :=
  match f.resolution with
  | none => false
  | some resolution => (r.get? resolution.target).any (·.awaitsKeyColumns)

variable {separator : String} {r s : Registry} {id : ReferenceId} {f : Reference}

theorem isPremature_iff {resolution : Resolution} (hres : f.resolution = some resolution)
    {target : Model} (htarget : r.get? resolution.target = some target) :
    r.isPremature f ↔ target.awaitsKeyColumns := by
  rw [isPremature, hres]
  simp only [htarget, Option.any_some]

theorem isResolved_of_isPremature (h : r.isPremature f) : f.isResolved := by
  cases hres : f.resolution with
  | none => simp [isPremature, hres] at h
  | some resolution => simp [Reference.isResolved, hres]

/-- A resolution that was kept is stale when all is resolved if and only if it was premature. -/
theorem Sound.isStale_iff_isPremature (hr : r.Sound) (hs : s.Sound) (hgrow : r.GrowsTo s)
    (hresolved : ∀ m ∈ s.models, ∀ g ∈ m.references, g.isResolved)
    (hbefore : r.reference? id = some f) (hafter : s.reference? id = some f) (hres : f.isResolved)
    (hstale : r.isStale f = false) : s.isStale f ↔ r.isPremature f := by
  obtain ⟨resolution, hres⟩ := Reference.isResolved_iff.1 hres
  obtain ⟨m, hm, hfm⟩ := reference?_eq_some_iff.1 hbefore
  obtain ⟨n, hn, hfn⟩ := reference?_eq_some_iff.1 hafter
  have hmem := mem_of_get? hm
  have hfmem := List.mem_of_getElem? hfm
  obtain ⟨t, ht, -⟩ := hr.exists_target hmem hfmem hres
  obtain ⟨u, hu, htu⟩ := hgrow.exists_get? ht
  have htLaid := hr.laid t (mem_of_get? ht)
  have huLaid := hs.laid u (mem_of_get? hu)
  have hkey : t.keyShape = resolution.key := by
    rw [← Bool.not_eq_true, hr.isStale_iff hmem hfmem hres ht, not_not] at hstale
    exact hstale
  rw [hs.isStale_iff (mem_of_get? hn) (List.mem_of_getElem? hfn) hres hu, isPremature_iff hres ht,
    ← hkey]
  -- a key that waits for nothing stays as recorded, any other one has grown since
  cases hawaits : t.awaitsKeyColumns with
  | false => simp [htu.keyShape_eq htLaid huLaid hawaits]
  | true =>
    have hlonger := htu.length_keyShape_lt htLaid huLaid hawaits fun g hg himplicit =>
      hs.broughtColumns_ne_nil (mem_of_get? hu) hg (hresolved u (mem_of_get? hu) g hg) himplicit
    simp only [iff_true]
    intro heq
    rw [heq] at hlonger
    exact Nat.lt_irrefl _ hlonger

/-- After a resolution exactly the references are stale that were premature once the stale ones had
been dropped. -/
theorem isStale_iff_isPremature_of_resolve (hr : r.Sound)
    (h : (r.resolve separator).result = .ok s) (hf : s.reference? id = some f) :
    s.isStale f ↔ ∃ g, r.withoutStale.reference? id = some g ∧ r.withoutStale.isPremature g := by
  obtain ⟨hsteps, hopen, -⟩ := steps_of_resolve hr h
  have hstart := hr.withoutStale
  have hs := hsteps.sound hstart
  have hresolved : ∀ m ∈ s.models, ∀ g ∈ m.references, g.isResolved :=
    fun m hm g hg => isResolved_of_not_isOpen hopen hm hg
  obtain ⟨owner, howner, hfowner⟩ := reference?_eq_some_iff.1 hf
  have hfmem := List.mem_of_getElem? hfowner
  have hfres := hresolved owner (mem_of_get? howner) f hfmem
  -- the run keeps what it finds resolved, and settles everything else
  rcases hsteps.settledIn_or hstart hf hfres with
    hbefore | ⟨owner', resolution, howner', hsettled, -⟩
  · have hkept :=
      isStale_eq_false_of_staleReferences_eq_nil (staleReferences_withoutStale r) hbefore
    have hiff := hstart.isStale_iff_isPremature hs (hsteps.growsTo hstart) hresolved hbefore hf
      hfres hkept
    rw [hiff]
    constructor
    · exact fun hpremature => ⟨f, hbefore, hpremature⟩
    · rintro ⟨g, hg, hpremature⟩
      obtain rfl := Option.some.inj (hbefore.symm.trans hg)
      exact hpremature
  · -- settled by the run, it was open when the run began, hence not premature
    obtain rfl := Option.some.inj (howner.symm.trans howner')
    have hnot := hsettled.isStale_eq_false hs (mem_of_get? howner) hfmem
    constructor
    · intro hstale
      simp [hnot] at hstale
    · rintro ⟨g, hg, hpremature⟩
      have hgres := isResolved_of_isPremature hpremature
      have hkept := hsteps.reference?_of_isResolved hg hgres
      obtain rfl := Option.some.inj (hf.symm.trans hkept)
      have hstaleStart :=
        isStale_eq_false_of_staleReferences_eq_nil (staleReferences_withoutStale r) hg
      exact (hstart.isStale_iff_isPremature hs (hsteps.growsTo hstart) hresolved hg hf hfres
        hstaleStart).2 hpremature

/-! ## 2. Assembly after a resolution -/

theorem unsettled_ne_nil_iff (hresolved : ∀ m ∈ s.models, ∀ f ∈ m.references, f.isResolved) :
    s.unsettled ≠ [] ↔ ∃ id f, s.reference? id = some f ∧ s.isStale f := by
  rw [unsettled, ne_eq, List.flatMap_eq_nil_iff, not_forall]
  constructor
  · rintro ⟨m, hm⟩
    rw [Classical.not_imp, List.map_eq_nil_iff, List.filter_eq_nil_iff, not_forall] at hm
    obtain ⟨hmem, f, hf⟩ := hm
    rw [Classical.not_imp, not_not] at hf
    obtain ⟨hfmem, hunsettled⟩ := hf
    obtain ⟨id, -, hid⟩ := exists_reference?_of_mem hmem hfmem
    exact ⟨id, f, hid, by simpa [hresolved m hmem f hfmem] using hunsettled⟩
  · rintro ⟨id, f, hf, hstale⟩
    obtain ⟨m, hm, hfm⟩ := reference?_eq_some_iff.1 hf
    refine ⟨m, fun hnil => ?_⟩
    have hempty := List.map_eq_nil_iff.1 (hnil (mem_of_get? hm))
    have hnot := List.filter_eq_nil_iff.1 hempty f (List.mem_of_getElem? hfm)
    simp [hstale] at hnot

/-- A resolution that succeeds leaves every reference resolved, but a stale one wherever it found
one that was premature; only then does assembly report unresolved references. -/
theorem stale_iff_premature_of_resolve {operations : List Operation}
    (hfresh : ∀ o ∈ operations, o.Fresh)
    (h : ((after operations).resolve separator).result = .ok s) :
    (∀ m ∈ s.models, ∀ f ∈ m.references, f.isResolved) ∧
      (∀ id f, s.reference? id = some f →
        (s.isStale f ↔ ∃ g, (after operations).withoutStale.reference? id = some g ∧
          (after operations).withoutStale.isPremature g)) ∧
      ∀ options, (∃ names, (s.assemble options).result = .error (.error (.unresolved names))) ↔
        ∃ id g, (after operations).withoutStale.reference? id = some g ∧
          (after operations).withoutStale.isPremature g := by
  have hr := sound_after hfresh
  have hs := hr.resolve h
  obtain ⟨hsteps, hopen, -⟩ := steps_of_resolve hr h
  have hresolved : ∀ m ∈ s.models, ∀ f ∈ m.references, f.isResolved :=
    fun m hm f hf => isResolved_of_not_isOpen hopen hm hf
  refine ⟨hresolved, fun id f hf => isStale_iff_isPremature_of_resolve hr h hf, fun options => ?_⟩
  have hunsettled : (∃ names, (s.assemble options).result = .error (.error (.unresolved names))) ↔
      s.unsettled ≠ [] := by
    simp only [assemble_eq_unresolved_iff hs.hasForeignTarget_eq_false]
    exact ⟨fun ⟨_, hne, _⟩ => hne, fun hne => ⟨_, hne, rfl⟩⟩
  rw [hunsettled, unsettled_ne_nil_iff hresolved]
  constructor
  · rintro ⟨id, f, hf, hstale⟩
    obtain ⟨g, hg, hpremature⟩ := (isStale_iff_isPremature_of_resolve hr h hf).1 hstale
    exact ⟨id, g, hg, hpremature⟩
  · rintro ⟨id, g, hg, hpremature⟩
    have hkept := hsteps.reference?_of_isResolved hg (isResolved_of_isPremature hpremature)
    exact ⟨id, g, hkept, (isStale_iff_isPremature_of_resolve hr h hkept).2 ⟨g, hg, hpremature⟩⟩

/-! ## 3. A city that comes to need a country -/

def town : Model :=
  Model.ofFields "City" [.column { name := "name", type := .text, primaryKey := true }]

def visitor : Model :=
  Model.ofFields "Visitor" [
    .column { name := "id", type := .integer, primaryKey := true },
    .reference { field := "home", target := "City" }]

/-- When the town is replaced by a city, its key reads as before until the country is resolved. -/
def cityReplaced : List Operation :=
  [.register country, .register town, .register visitor, .resolve "_", .replace city]

theorem fresh_cityReplaced : ∀ o ∈ cityReplaced, o.Fresh := by
  simp only [cityReplaced, List.forall_mem_cons, List.not_mem_nil, false_imp_iff, implies_true,
    and_true]
  exact ⟨Model.fresh_ofFields _ _ (by decide), Model.fresh_ofFields _ _ (by decide),
    Model.fresh_ofFields _ _ (by decide), trivial, Model.fresh_ofFields _ _ (by decide)⟩

/-- The visitor's home is premature, hence stale, and assembly refuses what resolution accepted. -/
theorem stale_iff_premature_cityReplaced :
    ∃ s, ((after cityReplaced).resolve "_").result = .ok s ∧
      (∃ f, s.reference? ⟨2, 0⟩ = some f ∧ s.isStale f) ∧
      ∃ names, (s.assemble {}).result = .error (.error (.unresolved names)) := by
  have hresolve : ∃ s f, ((after cityReplaced).resolve "_").result = .ok s ∧
      s.reference? ⟨2, 0⟩ = some f := ⟨_, _, rfl, rfl⟩
  obtain ⟨s, f, hs, hf⟩ := hresolve
  have hpremature : ∃ g, (after cityReplaced).withoutStale.reference? ⟨2, 0⟩ = some g ∧
      (after cityReplaced).withoutStale.isPremature g := ⟨_, rfl, rfl⟩
  obtain ⟨-, hstale, hassemble⟩ := stale_iff_premature_of_resolve fresh_cityReplaced hs
  refine ⟨s, hs, ⟨f, hf, (hstale _ f hf).2 hpremature⟩, ?_⟩
  exact (hassemble {}).2 ⟨_, hpremature⟩

/-- So a successful resolution does not always leave every reference settled. -/
theorem exists_stale_after_resolve :
    ¬∀ (operations : List Operation) (separator : String) (s : Registry),
      (∀ o ∈ operations, o.Fresh) → ((after operations).resolve separator).result = .ok s →
        ∀ m ∈ s.models, ∀ f ∈ m.references, f.isResolved ∧ s.isStale f = false := by
  intro hall
  have hresolve : ∃ s, ((after cityReplaced).resolve "_").result = .ok s ∧
      s.models.any fun m => m.references.any s.isStale := ⟨_, rfl, by decide⟩
  obtain ⟨s, hs, hany⟩ := hresolve
  obtain ⟨m, hm, hany⟩ := List.any_eq_true.1 hany
  obtain ⟨f, hf, hstale⟩ := List.any_eq_true.1 hany
  have hsettled := (hall cityReplaced "_" s fresh_cityReplaced hs m hm f hf).2
  simp [hsettled] at hstale

end Registry

end RelSchema
