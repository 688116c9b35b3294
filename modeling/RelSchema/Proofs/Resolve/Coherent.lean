import RelSchema.Proofs.Registry.History
import RelSchema.Proofs.Resolve.Settled

/-!
# Coherent registries

As long as no model is replaced, every resolution in a registry is settled and every final key rests
on keys that were final before it.  What a run adds to such a registry depends only on what was
declared, since keys that rest on each other in this way have one solution.
-/

namespace RelSchema

namespace Registry

/-! ## 1. Keys that rest on each other -/

/-- The key of the model depends, through any number of key references, only on models of the
registry, and never on itself. -/
inductive Grounded (r : Registry) : String → Prop
  | intro {m : Model} (hm : m ∈ r.models)
      (hkeys : ∀ f ∈ m.references, f.primaryKey → Grounded r f.target) : Grounded r m.name

/-- Only what the models declare counts. -/
theorem Grounded.mono {r s : Registry} {name : String} (h : r.Grounded name)
    (hmodels : ∀ m ∈ r.models, ∃ n ∈ s.models, n.bare = m.bare) : s.Grounded name := by
  induction h with
  | @intro m hm hkeys ih =>
    obtain ⟨n, hn, hbare⟩ := hmodels m hm
    rw [← Model.name_eq_of_bare_eq hbare]
    refine .intro hn fun g hg hkey => ?_
    obtain ⟨f, hf, hfg⟩ := Model.exists_reference_of_bare_eq hbare hg
    rw [← Reference.congr_of_bare_eq hfg (·.target)]
    exact ih f hf (by rw [Reference.congr_of_bare_eq hfg (·.primaryKey)]; exact hkey)

/-! ## 2. Coherent registries -/

structure Coherent (r : Registry) : Prop where
  sound : r.Sound
  settled : ∀ m ∈ r.models, ∀ f ∈ m.references, ∀ resolution, f.resolution = some resolution →
    f.SettledIn r m resolution
  grounded : ∀ m ∈ r.models, m.isKeyFinal → r.Grounded m.name

/-- Every implicit reference that is resolved has its columns named with the separator. -/
def UsesSeparator (separator : String) (r : Registry) : Prop :=
  ∀ m ∈ r.models, ∀ f ∈ m.references, ∀ resolution, f.resolution = some resolution →
    f.isImplicit → resolution.pairs = f.sourcePairs separator resolution.key

theorem exists_bare_eq_of_map_bare_eq {r s : Registry}
    (h : r.models.map Model.bare = s.models.map Model.bare) {m : Model} (hm : m ∈ r.models) :
    ∃ n ∈ s.models, n.bare = m.bare := by
  have hmem : m.bare ∈ s.models.map Model.bare := h ▸ List.mem_map_of_mem hm
  exact List.mem_map.1 hmem

namespace Coherent

variable {separator : String} {r s next : Registry}

/-- A key reference of a model that was resolved before rests on a grounded key. -/
theorem grounded_target (hr : r.Coherent) {m : Model} (hm : m ∈ r.models) {f : Reference}
    (hf : f ∈ m.references) (hres : f.isResolved) : r.Grounded f.target := by
  obtain ⟨resolution, hres⟩ := Reference.isResolved_iff.1 hres
  have hsettled := hr.settled m hm f hf resolution hres
  obtain ⟨t, ht, hname, hfinal, -⟩ := hsettled.exists_named_target hr.sound hm hf
  exact hname ▸ hr.grounded t (mem_of_get? ht) hfinal

theorem empty : ({} : Registry).Coherent :=
  ⟨Sound.empty, by simp, by simp⟩

theorem append {m : Model} (hr : r.Coherent) (hnew : r.contains m.name = false) (hlaid : m.Laid)
    (hopen : ∀ f ∈ m.references, f.resolution = none) :
    (⟨r.models ++ [m]⟩ : Registry).Coherent := by
  refine ⟨hr.sound.append hnew hlaid hopen, ?_, ?_⟩
  · intro n hn f hf resolution hres
    have hold := mem_of_mem_append hopen hn hf hres
    obtain ⟨-, ⟨t, ht, htarget⟩, hmatches⟩ := hr.settled n hold f hf resolution hres
    exact ⟨hres, ⟨t, get?_append_of_get? ht m, htarget⟩, hmatches⟩
  · intro n hn hfinal
    rcases List.mem_append.1 hn with hn | hn
    · exact (hr.grounded n hn hfinal).mono fun m' hm' =>
        ⟨m', List.mem_append_left _ hm', rfl⟩
    · -- a final key of a new model has no references, since none of them is resolved
      obtain rfl := List.mem_singleton.1 hn
      refine .intro (List.mem_append_right _ (List.mem_singleton_self _)) fun f hf hkey => ?_
      obtain ⟨resolution, hres⟩ := Reference.isResolved_iff.1
        (Model.isKeyFinal_iff.1 hfinal f hf hkey)
      simp [hopen f hf] at hres

/-- A step settles its reference, and the key that it may make final rests on keys that were final
before. -/
theorem step {id : ReferenceId} (hr : r.Coherent) (h : Step separator r id next) :
    next.Coherent := by
  have hsound := h.sound hr.sound
  have hgrow := h.growsTo hr.sound
  have hmodels : ∀ m ∈ r.models, ∃ n ∈ next.models, n.bare = m.bare := fun m hm =>
    exists_bare_eq_of_map_bare_eq hgrow.map_bare_eq hm
  refine ⟨hsound, ?_, ?_⟩
  · -- what was settled before stays so, and the step settles its own reference
    intro n hn f hf resolution hres
    obtain ⟨id', hid', hf'⟩ := exists_reference?_of_mem hn hf
    rcases h.settledIn_or hr.sound hf' (Reference.isResolved_iff.2 ⟨_, hres⟩)
      with hold | ⟨owner, resolution', howner, hsettled, -⟩
    · obtain ⟨m, hm, hfm⟩ := reference?_eq_some_iff.1 hold
      have hmn := hgrow.growsTo id'.model m n hm hid'
      exact (hr.settled m (mem_of_get? hm) f (List.mem_of_getElem? hfm) resolution hres).mono
        hr.sound hsound hgrow hmn (hr.sound.laid m (mem_of_get? hm)) (hsound.laid n hn)
    · obtain rfl := Option.some.inj (hid'.symm.trans howner)
      obtain rfl := Option.some.inj (hres.symm.trans hsettled.resolution_eq)
      exact hsettled
  · -- a key reference either was resolved before or names a key that was final before, so that
    -- no key comes to rest on itself
    intro n hn hfinal
    refine .intro hn fun f hf hkey => Grounded.mono ?_ hmodels
    obtain ⟨id', -, hf'⟩ := exists_reference?_of_mem hn hf
    have hres := Model.isKeyFinal_iff.1 hfinal f hf hkey
    rcases h.settledIn_or hr.sound hf' hres with hold | ⟨-, -, -, -, -, t, ht, hname, htfinal⟩
    · obtain ⟨m, hm, hfm⟩ := reference?_eq_some_iff.1 hold
      exact hr.grounded_target (mem_of_get? hm) (List.mem_of_getElem? hfm) hres
    · exact hname ▸ hr.grounded t ht htfinal

theorem steps (hr : r.Coherent) (h : Steps separator r s) : s.Coherent := by
  induction h with
  | refl => exact hr
  | tail _ hstep ih => exact ih.step hstep.choose_spec

/-- Nothing is stale, so that a resolution has nothing to drop. -/
theorem withoutStale_eq (hr : r.Coherent) : r.withoutStale = r := by
  refine withoutStale_of_staleReferences_eq_nil (List.eq_nil_iff_forall_not_mem.2 fun id hid => ?_)
  obtain ⟨f, hf, hstale⟩ := mem_referencesWhere.1 hid
  obtain ⟨m, hm, hfm⟩ := reference?_eq_some_iff.1 hf
  obtain ⟨resolution, hres⟩ := Reference.isResolved_iff.1 (isResolved_of_isStale hstale)
  have hmem := mem_of_get? hm
  have hfmem := List.mem_of_getElem? hfm
  have hnot := (hr.settled m hmem f hfmem resolution hres).isStale_eq_false hr.sound hmem hfmem
  simp [hnot] at hstale

theorem steps_of_resolve (hr : r.Coherent) (h : (r.resolve separator).result = .ok s) :
    Steps separator r s := by
  have hsteps := (Registry.steps_of_resolve hr.sound h).1
  rw [hr.withoutStale_eq] at hsteps
  exact hsteps

theorem resolve (hr : r.Coherent) (h : (r.resolve separator).result = .ok s) : s.Coherent :=
  hr.steps (hr.steps_of_resolve h)

/-- With replacements a resolution could outlive the key that it was made for. -/
theorem perform {o : Operation} (hr : r.Coherent) (hfresh : o.Fresh)
    (haccumulates : o.Accumulates) : (r.perform o).Coherent := by
  obtain h | ⟨m, rfl, hnew, h⟩ | ⟨m, id, rfl, -, -⟩ | ⟨separator, rfl, h⟩ := perform_cases r o
  · rw [h]
    exact hr
  · have hm : m.Fresh := hfresh
    rw [h]
    exact hr.append hnew (hm.laid.withId _) hm.resolution_eq_none
  · exact haccumulates.elim
  · exact hr.resolve h

end Coherent

/-! ## 3. Coherence along a history -/

namespace UsesSeparator

variable {separator : String} {r s : Registry}

theorem empty : ({} : Registry).UsesSeparator separator := by
  simp [UsesSeparator]

theorem append {m : Model} (hr : r.UsesSeparator separator)
    (hopen : ∀ f ∈ m.references, f.resolution = none) :
    (⟨r.models ++ [m]⟩ : Registry).UsesSeparator separator := by
  intro n hn f hf resolution hres
  exact hr n (mem_of_mem_append hopen hn hf hres) f hf resolution hres

theorem steps (hr : r.UsesSeparator separator) (hsound : r.Sound) (h : Steps separator r s) :
    s.UsesSeparator separator := by
  intro n hn f hf resolution hres himplicit
  obtain ⟨i, hi⟩ := exists_get?_of_mem hn
  obtain ⟨j, hj⟩ := List.getElem?_of_mem hf
  have hat : s.reference? ⟨i, j⟩ = some f := reference?_eq_some_iff.2 ⟨n, hi, hj⟩
  rcases h.settledIn_or hsound hat (Reference.isResolved_iff.2 ⟨_, hres⟩)
    with hbefore | ⟨owner, resolution', -, hsettled, hpairs⟩
  · obtain ⟨m, hm, hfm⟩ := reference?_eq_some_iff.1 hbefore
    exact hr m (mem_of_get? hm) f (List.mem_of_getElem? hfm) resolution hres himplicit
  · obtain rfl := Option.some.inj (hres.symm.trans hsettled.resolution_eq)
    exact hpairs himplicit

end UsesSeparator

/-- Nothing is left to do. -/
structure Finished (r : Registry) : Prop where
  coherent : r.Coherent
  isResolved : ∀ m ∈ r.models, ∀ f ∈ m.references, f.isResolved
  keyShape_ne_nil : ∀ m ∈ r.models, m.keyShape ≠ []

theorem Coherent.finished {separator : String} {r s : Registry} (hr : r.Coherent)
    (h : (r.resolve separator).result = .ok s) : s.Finished := by
  obtain ⟨-, hopen, hkeys⟩ := Registry.steps_of_resolve hr.sound h
  exact ⟨hr.resolve h, fun m hm f hf => isResolved_of_not_isOpen hopen hm hf, hkeys⟩

/-- Nothing is left to do, and everything that is resolved was resolved with the separator. -/
structure Complete (separator : String) (r : Registry) : Prop where
  coherent : r.Coherent
  usesSeparator : r.UsesSeparator separator
  isResolved : ∀ m ∈ r.models, ∀ f ∈ m.references, f.isResolved
  keyShape_ne_nil : ∀ m ∈ r.models, m.keyShape ≠ []

theorem Coherent.complete {separator : String} {r s : Registry} (hr : r.Coherent)
    (hseparator : r.UsesSeparator separator) (h : (r.resolve separator).result = .ok s) :
    s.Complete separator := by
  obtain ⟨hcoherent, hresolved, hkeys⟩ := hr.finished h
  exact ⟨hcoherent, hseparator.steps hr.sound (hr.steps_of_resolve h), hresolved, hkeys⟩

variable {separator : String} {operations : List Operation}

/-- Without replacements a registry stays coherent. -/
theorem coherent_after_of_accumulates (hfresh : ∀ o ∈ operations, o.Fresh)
    (haccumulates : ∀ o ∈ operations, o.Accumulates) : (after operations).Coherent :=
  List.foldlRecOn operations perform Coherent.empty
    fun _ hr o ho => hr.perform (hfresh o ho) (haccumulates o ho)

/-- Without replacements, and with one separator, all columns are named with the separator. -/
theorem coherent_after (hfresh : ∀ o ∈ operations, o.Fresh)
    (hadditive : ∀ o ∈ operations, o.Additive separator) :
    (after operations).Coherent ∧ (after operations).UsesSeparator separator := by
  refine List.foldlRecOn (motive := fun r => r.Coherent ∧ r.UsesSeparator separator)
    operations perform ⟨.empty, .empty⟩ ?_
  rintro r ⟨hr, hsep⟩ o ho
  refine ⟨hr.perform (hfresh o ho) (hadditive o ho).accumulates, ?_⟩
  obtain h | ⟨m, rfl, hnew, h⟩ | ⟨m, id, rfl, -, -⟩ | ⟨other, rfl, h⟩ := perform_cases r o
  · rw [h]
    exact hsep
  · have hm : m.Fresh := hfresh _ ho
    rw [h]
    exact hsep.append hm.resolution_eq_none
  · exact (hadditive _ ho).elim
  · obtain rfl : other = separator := hadditive _ ho
    exact hsep.steps hr.sound (hr.steps_of_resolve h)

end Registry

end RelSchema
