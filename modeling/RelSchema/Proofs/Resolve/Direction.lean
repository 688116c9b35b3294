import RelSchema.Proofs.Registry.Obtainable
import RelSchema.Proofs.Resolve.Correct
import RelSchema.Proofs.Resolve.Settled

/-!
# Where resolutions point

A reference that is resolved points at the model it names, unless it was handed in with a
resolution.  Such a resolution is the position of a model in another registry, or of another model
in this one, and nothing looks at it again as long as the key at that position has the shape that
was recorded.
-/

namespace RelSchema

/-- The references of the model that is handed in. -/
def Operation.references : Operation → List Reference
  | .register m => m.references
  | .replace m => m.references
  | .resolve _ => []

namespace Registry

variable {separator : String} {r s next : Registry} {id : ReferenceId} {f : Reference}

/-! ## 1. Steps -/

/-- What a step resolves points at the model that it names. -/
theorem Step.reference?_or_directed (h : Step separator r id next) {id' : ReferenceId}
    (hf : next.reference? id' = some f) :
    r.reference? id' = some f ∨ r.IsOpen id' ∧ f.resolvedTarget = r.idOf f.target := by
  obtain @⟨owner, target, settled, g, resolution, howner, hg, hopen, htarget, -, -, hsettle⟩ := h
  have hreferences : (settled.setResolution id.index (some resolution)).references =
      owner.references.modify id.index fun g => { g with resolution := some resolution } := by
    rw [Model.references_setResolution, g.references_of_settle hsettle]
  rw [reference?_modify howner hg (some resolution) hreferences] at hf
  by_cases hid : id' = id
  · subst hid
    rw [if_pos rfl] at hf
    obtain rfl := Option.some.inj hf
    exact .inr ⟨⟨g, reference?_eq_some_iff.2 ⟨owner, howner, hg⟩, hopen⟩,
      (locate?_eq_some_iff.1 htarget).1.symm⟩
  · rw [if_neg hid] at hf
    exact .inl hf

/-- After any number of steps a reference is as it was, or it was open and now points at the model
that it names. -/
theorem Steps.reference?_or_directed (h : Steps separator r s) {f : Reference}
    (hf : s.reference? id = some f) :
    r.reference? id = some f ∨ r.IsOpen id ∧ f.resolvedTarget = r.idOf f.target := by
  induction h generalizing f with
  | refl => exact .inl hf
  | @tail mid next hsteps hstep ih =>
    obtain ⟨id', hstep⟩ := hstep
    rcases hstep.reference?_or_directed hf with hmid | ⟨⟨g, hg, hopen⟩, hdirected⟩
    · exact ih hmid
    · rw [idOf_congr (map_name_eq_of_map_bare_eq (Steps.map_bare_eq hsteps))] at hdirected
      -- what is open after some steps was open before them
      rcases ih hg with hbefore | ⟨hbefore, -⟩
      · exact .inr ⟨⟨g, hbefore, hopen⟩, hdirected⟩
      · exact .inr ⟨hbefore, hdirected⟩

/-! ## 2. Runs -/

/-- The reference at the place is resolved, and not to the model that it names. -/
def Misdirected (r : Registry) (id : ReferenceId) : Prop :=
  ∃ f, r.reference? id = some f ∧ f.isResolved ∧ f.resolvedTarget ≠ r.idOf f.target

/-- A run keeps the references that it does not drop as stale, and those only are misdirected
afterwards. -/
theorem misdirected_iff_of_steps (h : Steps separator r.withoutStale s) :
    s.Misdirected id ↔
      r.Misdirected id ∧ r.withoutStale.reference? id = r.reference? id := by
  have hdropped := map_bare_withoutStale r
  have hid : ∀ name, s.idOf name = r.idOf name :=
    idOf_congr (map_name_eq_of_map_bare_eq (h.map_bare_eq.trans hdropped))
  have hstart : ∀ name, r.withoutStale.idOf name = r.idOf name :=
    idOf_congr (map_name_eq_of_map_bare_eq hdropped)
  constructor
  · rintro ⟨f, hf, hres, hnot⟩
    rw [hid] at hnot
    rcases h.reference?_or_directed hf with hkept | ⟨-, hdirected⟩
    · have hbefore := reference?_of_dropRounds hkept hres
      exact ⟨⟨f, hbefore, hres, hnot⟩, hkept.trans hbefore.symm⟩
    · rw [hstart] at hdirected
      exact absurd hdirected hnot
  · -- what is resolved is not resolved again
    rintro ⟨⟨f, hf, hres, hnot⟩, hkept⟩
    rw [hf] at hkept
    exact ⟨f, h.reference?_of_isResolved hkept hres, hres, by rwa [hid]⟩

/-! ## 3. Histories -/

/-- Every resolved reference points at the model that it names, or is one of the given ones. -/
def DirectedExcept (given : List Reference) (r : Registry) : Prop :=
  ∀ m ∈ r.models, ∀ f ∈ m.references, f.isResolved → f.resolvedTarget = r.idOf f.target ∨ f ∈ given

theorem DirectedExcept.perform {given : List Reference} (h : DirectedExcept given r)
    (hr : (r.models.map (·.name)).Nodup) {operation : Operation}
    (hgiven : operation.references ⊆ given) : DirectedExcept given (r.perform operation) := by
  obtain h' | ⟨m, rfl, hnew, h'⟩ | ⟨m, id, rfl, hid, h'⟩ | ⟨separator, rfl, h'⟩ :=
    perform_cases r operation
  · rwa [h']
  · rw [h']
    intro n hn f hf hres
    rcases List.mem_append.1 hn with hn | hn
    · -- the names that were there keep their positions
      refine (h n hn f hf hres).imp_left fun hdirected => ?_
      obtain ⟨resolution, hresolution⟩ := Reference.isResolved_iff.1 hres
      rw [Reference.resolvedTarget, hresolution, Option.map_some] at hdirected ⊢
      have hfree : r.contains ({ m with id := some r.size } : Model).name = false := hnew
      exact (idOf_append_of_idOf hr hfree hdirected.symm).symm
    · obtain rfl := List.mem_singleton.1 hn
      exact .inr (hgiven hf)
  · obtain ⟨old, hold, hname⟩ := (idOf_eq_some_iff hr).1 hid
    rw [h']
    intro n hn f hf hres
    rw [idOf_congr (map_modify hold hname.symm)]
    rcases mem_modify hold hn with hn | rfl
    · exact h n hn f hf hres
    · exact .inr (hgiven hf)
  · have hsteps := (steps_of_resolveAll (resolveAll_of_resolve h')).1
    intro n hn f hf hres
    obtain ⟨id, -, hat⟩ := exists_reference?_of_mem hn hf
    by_cases hdirected : f.resolvedTarget = (r.perform (.resolve separator)).idOf f.target
    · exact .inl hdirected
    · -- a reference that is misdirected after the run was so before it
      obtain ⟨⟨g, hg, hgres, hnot⟩, hkept⟩ :=
        (misdirected_iff_of_steps hsteps).1 ⟨f, hat, hres, hdirected⟩
      have hafter := hsteps.reference?_of_isResolved (hkept.trans hg) hgres
      obtain rfl := Option.some.inj (hat.symm.trans hafter)
      obtain ⟨m, hm, hfm⟩ := reference?_eq_some_iff.1 hg
      exact .inr ((h m (mem_of_get? hm) f (List.mem_of_getElem? hfm) hres).resolve_left hnot)

theorem directedExcept_after (operations : List Operation) :
    DirectedExcept (operations.flatMap Operation.references) (after operations) := by
  have hboth : ((after operations).models.map (·.name)).Nodup ∧
      DirectedExcept (operations.flatMap Operation.references) (after operations) := by
    refine List.foldlRecOn (motive := fun r => (r.models.map (·.name)).Nodup ∧
      DirectedExcept (operations.flatMap Operation.references) r) operations perform
      ⟨List.nodup_nil, fun m hm => absurd hm List.not_mem_nil⟩ fun r hr o ho => ?_
    have hgiven : o.references ⊆ operations.flatMap Operation.references := fun f hf =>
      List.mem_flatMap.2 ⟨o, ho, hf⟩
    exact ⟨nodup_names_perform hr.1 o, hr.2.perform hr.1 hgiven⟩
  exact hboth.2

/-- After a resolution that succeeds every reference is resolved.  Those that do not point at the
model that they name are those that did not do so before and were not dropped as stale; and each of
them was handed in as it is, with its resolution. -/
theorem misdirected_iff_of_resolve {operations : List Operation}
    (h : ((after operations).resolve separator).result = .ok s) :
    (∀ m ∈ s.models, ∀ f ∈ m.references, f.isResolved) ∧
    (∀ id, s.Misdirected id ↔ (after operations).Misdirected id ∧
      (after operations).withoutStale.reference? id = (after operations).reference? id) ∧
    ∀ m ∈ s.models, ∀ f ∈ m.references,
      f.resolvedTarget = s.idOf f.target ∨ ∃ o ∈ operations, f ∈ o.references := by
  obtain ⟨hsteps, hopen, -⟩ := steps_of_resolveAll (resolveAll_of_resolve h)
  have hresolved : ∀ m ∈ s.models, ∀ f ∈ m.references, f.isResolved := fun m hm f hf =>
    isResolved_of_not_isOpen hopen hm hf
  refine ⟨hresolved, fun id => misdirected_iff_of_steps hsteps, fun m hm f hf => ?_⟩
  have hdirected := directedExcept_after (operations ++ [.resolve separator])
  -- a resolution that succeeds is one more operation of the history
  have hlast : after (operations ++ [.resolve separator]) = s := by
    simp only [after_append_singleton, perform, h]
  rw [hlast] at hdirected
  refine (hdirected m hm f hf (hresolved m hm f hf)).imp_right fun hgiven => ?_
  simpa [Operation.references] using hgiven

/-! ## 4. A city from abroad -/

/-- A registry in which the city has been resolved. -/
def abroad : Registry :=
  after [.register country, .register city, .resolve "_"]

/-- The city as it stands there. -/
def cityAbroad : Model :=
  (abroad.get? 1).getD city

def language : Model :=
  Model.ofFields "Language" [.column { name := "code", type := .text, primaryKey := true }]

/-- Here the language is where the country is abroad, and its key is the same. -/
def cityImported : List Operation :=
  [.register language, .register country, .register city, .replace cityAbroad]

theorem obtainable_country : country.Obtainable :=
  Model.Fresh.obtainable (Model.fresh_ofFields _ _ (by decide))

theorem obtainable_city : city.Obtainable :=
  Model.Fresh.obtainable (Model.fresh_ofFields _ _ (by decide))

theorem obtainable_cityAbroad : cityAbroad.Obtainable := by
  have habroad : abroad.Obtainable := obtainable_after <| by
    simp only [List.forall_mem_cons, List.not_mem_nil, false_imp_iff, implies_true, and_true]
    exact ⟨obtainable_country, obtainable_city, trivial⟩
  have hmem : cityAbroad ∈ abroad.models := List.mem_of_getElem? (i := 1) rfl
  exact .cloned habroad hmem

theorem isPublic_cityImported : ∀ o ∈ cityImported, o.Public := by
  have hlanguage : language.Fresh := Model.fresh_ofFields _ _ (by decide)
  simp only [cityImported, List.forall_mem_cons, List.not_mem_nil, false_imp_iff, implies_true,
    and_true]
  exact ⟨hlanguage.obtainable, obtainable_country, obtainable_city, obtainable_cityAbroad⟩

/-- The city that is imported keeps the position that its country has abroad. -/
theorem misdirected_iff_cityImported :
    ∃ s, ((after cityImported).resolve "_").result = .ok s ∧ s.Misdirected ⟨2, 0⟩ := by
  have hresolve : ∃ s, ((after cityImported).resolve "_").result = .ok s := ⟨_, rfl⟩
  obtain ⟨s, hs⟩ := hresolve
  have hbefore : (after cityImported).Misdirected ⟨2, 0⟩ := ⟨_, rfl, by decide, by decide⟩
  have hkept : (after cityImported).withoutStale.reference? ⟨2, 0⟩ =
      (after cityImported).reference? ⟨2, 0⟩ := rfl
  exact ⟨s, hs, ((misdirected_iff_of_resolve hs).2.1 _).2 ⟨hbefore, hkept⟩⟩

/-- So a resolution can leave a reference with a model that it does not name. -/
theorem exists_misdirected_after_resolve :
    ¬∀ (operations : List Operation) (separator : String) (s : Registry),
      (∀ o ∈ operations, o.Public) → ((after operations).resolve separator).result = .ok s →
        ∀ m ∈ s.models, ∀ f ∈ m.references, f.resolvedTarget = s.idOf f.target := by
  intro hall
  have hresolve : ∃ s, ((after cityImported).resolve "_").result = .ok s ∧
      ∃ m ∈ s.models, ∃ f ∈ m.references, f.resolvedTarget = some 0 ∧
        s.idOf f.target = some 1 := ⟨_, rfl, by decide⟩
  obtain ⟨s, hs, m, hm, f, hf, htarget, hid⟩ := hresolve
  have heq := hall cityImported "_" s isPublic_cityImported hs m hm f hf
  rw [htarget, hid] at heq
  cases heq

end Registry

end RelSchema
