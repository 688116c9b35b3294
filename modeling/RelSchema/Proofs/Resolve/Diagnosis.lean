import Mathlib.Data.List.Chain
import RelSchema.Proofs.Registry.History
import RelSchema.Proofs.Resolve.Cycles
import RelSchema.Proofs.Resolve.Standstill

/-!
# What failed resolutions report

A resolution fails because an attempt is refused, because a model has no key, or because the passes
come to a standstill.  In the last case the report names a reference whose target is not registered,
or it is a cycle of open key references, each of which waits for the key that the next one keeps
open.
-/

namespace RelSchema

/-! ## 1. Refused attempts -/

namespace Model

theorem error_of_key {m : Model} {e : Error} (h : m.key = .error e) :
    e = .missingPrimaryKey m.name := by
  rw [key] at h
  split at h
  · exact (Except.error.inj h).symm
  · cases h

theorem error_of_addColumns {m : Model} {columns : List Column} {e : Error}
    (h : m.addColumns columns = .error e) : ∃ column, e = .duplicateColumn m.name column := by
  induction columns generalizing m with
  | nil => cases h
  | cons c columns ih =>
    rw [addColumns] at h
    split at h
    · rename_i hadd
      obtain rfl := Except.error.inj h
      rw [addColumn] at hadd
      split at hadd
      · exact ⟨c.name, (Except.error.inj hadd).symm⟩
      · cases hadd
    · rename_i hadd
      obtain ⟨-, rfl⟩ := addColumn_eq_ok_iff.1 hadd
      obtain ⟨column, rfl⟩ := ih h
      exact ⟨column, rfl⟩

theorem error_of_synthesize {m : Model} {f : Reference} {separator : String} {key : PrimaryKey}
    {e : Error} (h : m.synthesize f separator key = .error e) :
    ∃ column, e = .duplicateColumn m.name column := by
  unfold synthesize at h
  split at h
  · exact ⟨_, (Except.error.inj h).symm⟩
  · unfold addSynthesized at h
    split at h
    · rename_i hadd
      obtain rfl := Except.error.inj h
      exact error_of_addColumns hadd
    · cases h

end Model

namespace Registry

variable {separator : String} {r s next : Registry} {id : ReferenceId} {owner m : Model}
  {f : Reference} {e : Error}

/-- The error says which model of the registry cannot have its columns or its key, or which
reference does not pair its columns as it should. -/
inductive Refuses (r : Registry) : Error → Prop
  | duplicateColumn {m : Model} (hm : m ∈ r.models) (column : String) :
      Refuses r (.duplicateColumn m.name column)
  | missingPrimaryKey {m : Model} (hm : m ∈ r.models) : Refuses r (.missingPrimaryKey m.name)
  | invalidPair {m : Model} {f : Reference} (hm : m ∈ r.models) (hf : f ∈ m.references)
      (problem : PairProblem) : Refuses r (.invalidPair m.name f.field problem)

theorem exists_reference_of_map_bare_eq (hbare : r.models.map Model.bare = s.models.map Model.bare)
    (hm : m ∈ r.models) (hf : f ∈ m.references) :
    ∃ n ∈ s.models, ∃ g ∈ n.references, n.name = m.name ∧ g.bare = f.bare := by
  obtain ⟨n, hn, hnm⟩ := exists_bare_eq_of_map_bare_eq hbare hm
  obtain ⟨g, hg, hgf⟩ := Model.exists_reference_of_bare_eq hnm.symm hf
  exact ⟨n, hn, g, hg, Model.name_eq_of_bare_eq hnm, hgf⟩

theorem Refuses.congr (h : r.Refuses e)
    (hbare : r.models.map Model.bare = s.models.map Model.bare) : s.Refuses e := by
  cases h with
  | duplicateColumn hm column =>
    obtain ⟨n, hn, hnm⟩ := exists_bare_eq_of_map_bare_eq hbare hm
    rw [← Model.name_eq_of_bare_eq hnm]
    exact .duplicateColumn hn column
  | missingPrimaryKey hm =>
    obtain ⟨n, hn, hnm⟩ := exists_bare_eq_of_map_bare_eq hbare hm
    rw [← Model.name_eq_of_bare_eq hnm]
    exact .missingPrimaryKey hn
  | invalidPair hm hf problem =>
    obtain ⟨n, hn, g, hg, hname, hgf⟩ := exists_reference_of_map_bare_eq hbare hm hf
    rw [← hname, ← Reference.congr_of_bare_eq hgf (·.field)]
    exact .invalidPair hn hg problem

theorem refuses_of_settle (hm : m ∈ r.models) (hf : f ∈ m.references) {target : Model}
    {key : PrimaryKey} (h : f.settle m target separator key = .error e) : r.Refuses e := by
  unfold Reference.settle at h
  split at h
  · cases hsynthesize : m.synthesize f separator key with
    | error e' =>
      obtain ⟨column, rfl⟩ := Model.error_of_synthesize hsynthesize
      rw [hsynthesize] at h
      obtain rfl := Except.error.inj h
      exact .duplicateColumn hm column
    | ok synthesized => simp [hsynthesize, Except.map] at h
  · cases hcheck : f.checkPairs m target key with
    | error e' =>
      obtain ⟨problem, rfl⟩ := Reference.error_of_checkPairs hcheck
      rw [hcheck] at h
      obtain rfl := Except.error.inj h
      exact .invalidPair hm hf problem
    | ok pairs => simp [hcheck, Except.map] at h

theorem refuses_of_attempt (hm : m ∈ r.models) (hf : f ∈ m.references)
    (h : r.attempt separator id m f = .error e) : r.Refuses e := by
  unfold attempt at h
  split at h
  · cases h
  · rename_i targetId target hlocate
    have htarget := mem_of_get? (locate?_eq_some_iff.1 hlocate).2
    split at h
    · split at h
      · rename_i hkey
        obtain rfl := Except.error.inj h
        obtain rfl := Model.error_of_key hkey
        exact .missingPrimaryKey htarget
      · split at h
        · rename_i hsettle
          obtain rfl := Except.error.inj h
          exact refuses_of_settle hm hf hsettle
        · cases h
    · cases h

theorem refuses_of_pass {ids : List ReferenceId} (hr : r.Sound) (hids : ∀ id ∈ ids, r.IsOpen id)
    (hnodup : ids.Nodup) (h : (pass separator r ids).result = .error e) : r.Refuses e := by
  rcases pass_cases hr hids hnodup with ⟨next, waiting, hpass, -⟩ | ⟨e', mid, hpass, hsteps, hfails⟩
  · cases hpass.symm.trans h
  · obtain rfl := Except.error.inj (hpass.symm.trans h)
    obtain ⟨id, m, hm, f, hf, hattempt⟩ := hfails
    exact (refuses_of_attempt hm hf hattempt).congr hsteps.map_bare_eq

theorem refuses_of_passes {left : Nat} {state : Progress} (hr : state.registry.Sound)
    (htracks : state.Tracks) (h : (passes separator left state).result = .error e) :
    state.registry.Refuses e := by
  induction left generalizing state with
  | zero => cases h
  | succ left ih =>
    rw [result_passes_succ] at h
    split at h
    · cases h
    · have hids : ∀ id ∈ state.pending, state.registry.IsOpen id := fun id hid =>
        (htracks.isOpen_iff id).2 hid
      cases hpass : (pass separator state.registry state.pending).result with
      | error e' =>
        rw [hpass] at h
        obtain rfl := Except.error.inj h
        exact refuses_of_pass hr hids htracks.nodup hpass
      | ok out =>
        have hsteps := (steps_of_pass hids htracks.nodup hpass).1
        have hafter := htracks.of_pass hpass (state.count + 1)
        rw [hpass] at h
        simp only [Except.bind] at h
        split at h
        · cases h
        · exact (ih (hsteps.sound hr) hafter h).congr hsteps.map_bare_eq

/-! ## 2. Cycles of open keys -/

/-- A model with one of its references, which keeps its key open. -/
structure KeyStep where
  id : ModelId
  model : Model
  reference : Reference

namespace KeyStep

def text (step : KeyStep) : String :=
  step.model.name ++ "." ++ step.reference.field

def walkStep (step : KeyStep) : WalkStep :=
  ⟨step.id, step.text⟩

/-- The reference of the one step names the model of the other. -/
def Leads (step next : KeyStep) : Prop :=
  step.reference.target = next.model.name

structure IsOpenIn (r : Registry) (step : KeyStep) : Prop where
  get?_eq : r.get? step.id = some step.model
  mem : step.reference ∈ step.model.references
  primaryKey : step.reference.primaryKey
  resolution_eq_none : step.reference.resolution = none

end KeyStep

/-- Open key references of different models that name the model of the next one each, and the last
one that of the first. -/
structure OpenKeyCycle (r : Registry) (steps : List KeyStep) : Prop where
  ne_nil : steps ≠ []
  nodup_ids : (steps.map (·.id)).Nodup
  isOpen : ∀ step ∈ steps, step.IsOpenIn r
  leads : (steps ++ steps.take 1).IsChain KeyStep.Leads

/-- The steps of a walk that has come to the model. -/
structure Trail (r : Registry) (steps : List KeyStep) (m : Model) : Prop where
  nodup_ids : (steps.map (·.id)).Nodup
  isOpen : ∀ step ∈ steps, step.IsOpenIn r
  leads : steps.IsChain KeyStep.Leads
  last_leads : ∀ step ∈ steps.getLast?, step.reference.target = m.name

namespace Trail

variable {steps : List KeyStep} {id : ModelId}

theorem nil (r : Registry) (m : Model) : r.Trail [] m :=
  ⟨List.nodup_nil, by simp, .nil, by simp⟩

/-- The walk goes on along an open key reference of a model that it has not passed. -/
theorem append {step : KeyStep} (h : r.Trail steps step.model) (hnew : step.id ∉ steps.map (·.id))
    (hopen : step.IsOpenIn r) {n : Model} (htarget : step.reference.target = n.name) :
    r.Trail (steps ++ [step]) n := by
  refine ⟨?_, ?_, ?_, ?_⟩
  · rw [List.map_append, List.map_singleton]
    exact List.nodup_append.2 ⟨h.nodup_ids, List.nodup_singleton _, by simpa using hnew⟩
  · simpa [or_imp, forall_and, hopen] using h.isOpen
  · refine List.isChain_append.2
      ⟨h.leads, List.isChain_singleton _, fun last hlast next hnext => ?_⟩
    obtain rfl : step = next := by simpa using hnext
    exact h.last_leads last hlast
  · simpa using htarget

/-- A walk that has come back to a model has gone round a cycle since it was there. -/
theorem exists_cycle (h : r.Trail steps m) (hm : r.get? id = some m)
    (hback : id ∈ steps.map (·.id)) :
    ∃ cycle, r.OpenKeyCycle cycle ∧
      WalkStep.cycle (steps.map KeyStep.walkStep) id =
        .cyclicKey ((cycle ++ cycle.take 1).map KeyStep.text) := by
  obtain ⟨first, hfirst, rfl⟩ := List.mem_map.1 hback
  obtain ⟨before, after, rfl⟩ := List.append_of_mem hfirst
  have hids := h.nodup_ids
  rw [List.map_append, List.nodup_append] at hids
  -- the way up to the first visit does not belong to the cycle
  have hdrop : ((before ++ first :: after).map KeyStep.walkStep).dropWhile (·.model != first.id) =
      (first :: after).map KeyStep.walkStep := by
    have hbefore : ∀ step ∈ before.map KeyStep.walkStep, (step.model != first.id) = true := by
      simp only [List.forall_mem_map, bne_iff_ne]
      exact fun step hstep => hids.2.2 _ (List.mem_map_of_mem hstep) _ (by simp)
    rw [List.map_append, List.dropWhile_append_of_pos hbefore, List.map_cons,
      List.dropWhile_cons_of_neg (by simp [KeyStep.walkStep])]
  obtain rfl := Option.some.inj ((h.isOpen first hfirst).get?_eq.symm.trans hm)
  refine ⟨first :: after, ⟨List.cons_ne_nil _ _, hids.2.1,
    fun step hstep => h.isOpen step (List.mem_append_right _ hstep), ?_⟩, ?_⟩
  · refine List.isChain_append.2 ⟨h.leads.right_of_append, List.isChain_singleton _,
      fun last hlast next hnext => ?_⟩
    obtain rfl : first = next := by simpa using hnext
    refine h.last_leads last ?_
    rwa [List.getLast?_append_of_ne_nil _ (List.cons_ne_nil _ _)]
  · rw [WalkStep.cycle, hdrop, List.map_map, List.map_append, List.map_take]
    rfl

/-- A walk that has passed as many models as there are has passed them all. -/
theorem mem_of_length_eq (h : r.Trail steps m) (hlength : steps.length = r.size)
    (hm : r.get? id = some m) : id ∈ steps.map (·.id) := by
  have hlt : ∀ {i n}, r.get? i = some n → i < r.size := fun hn =>
    (List.getElem?_eq_some_iff.1 hn).1
  have hsubset : steps.map (·.id) ⊆ List.range r.size := by
    simp only [List.subset_def, List.forall_mem_map, List.mem_range]
    exact fun step hstep => hlt (h.isOpen step hstep).get?_eq
  have hperm : (steps.map (·.id)).Perm (List.range r.size) :=
    (h.nodup_ids.subperm hsubset).perm_of_length_le (by simp [hlength])
  exact hperm.mem_iff.2 (List.mem_range.2 (hlt hm))

end Trail

/-! ## 3. The report on a standstill -/

/-- Every open reference names a model of the registry whose key is open as well. -/
def IsEntangled (r : Registry) : Prop :=
  ∀ m ∈ r.models, ∀ f ∈ m.references, f.resolution = none →
    ∃ t ∈ r.models, t.name = f.target ∧ t.isKeyFinal = false

theorem exists_openKeyReference (h : m.isKeyFinal = false) :
    ∃ f, m.openKeyReference? = some f ∧ f ∈ m.references ∧ f.primaryKey ∧ f.resolution = none := by
  cases hfind : m.openKeyReference? with
  | none => simp [(m.openKeyReference?_eq_none_iff).1 hfind] at h
  | some f =>
    have hprops : f.primaryKey ∧ f.isResolved = false := by simpa using List.find?_some hfind
    exact ⟨f, rfl, List.mem_of_find?_eq_some hfind, hprops.1,
      Reference.isResolved_eq_false_iff.1 hprops.2⟩

/-- From a model with an open key a walk comes round a cycle. -/
theorem IsEntangled.exists_cycle (hentangled : r.IsEntangled)
    (hnames : (r.models.map (·.name)).Nodup) {left : Nat} {steps : List KeyStep} {id : ModelId}
    (hleft : steps.length + left = r.size) (htrail : r.Trail steps m) (hm : r.get? id = some m)
    (hopen : m.isKeyFinal = false) :
    ∃ cycle, r.OpenKeyCycle cycle ∧
      r.walk left (steps.map KeyStep.walkStep) id =
        .cyclicKey ((cycle ++ cycle.take 1).map KeyStep.text) := by
  -- on the steps that are left: with none left the walk has passed every model
  induction left generalizing steps id m with
  | zero => exact htrail.exists_cycle hm (htrail.mem_of_length_eq hleft hm)
  | succ left ih =>
    by_cases hback : id ∈ steps.map (·.id)
    · have hany : (steps.map KeyStep.walkStep).any (·.model == id) = true := by
        simpa [KeyStep.walkStep] using hback
      rw [walk, if_pos hany]
      exact htrail.exists_cycle hm hback
    · have hany : ¬(steps.map KeyStep.walkStep).any (·.model == id) = true := by
        simpa [KeyStep.walkStep] using hback
      obtain ⟨f, hfind, hf, hkey, hres⟩ := exists_openKeyReference hopen
      obtain ⟨t, ht, hname, htopen⟩ := hentangled m (mem_of_get? hm) f hf hres
      obtain ⟨next, hnext⟩ := exists_get?_of_mem ht
      have hwalk : r.walk (left + 1) (steps.map KeyStep.walkStep) id =
          r.walk left ((steps ++ [(⟨id, m, f⟩ : KeyStep)]).map KeyStep.walkStep) next := by
        rw [walk, if_neg hany, hm]
        dsimp only
        rw [hfind]
        dsimp only
        rw [(idOf_eq_some_iff hnames).2 ⟨t, hnext, hname⟩, List.map_append]
        rfl
      rw [hwalk]
      have hstep : KeyStep.IsOpenIn r ⟨id, m, f⟩ := ⟨hm, hf, hkey, hres⟩
      refine ih ?_ (htrail.append hback hstep hname.symm) hnext htopen
      rw [List.length_append, List.length_singleton]
      omega

theorem contains_of_missingTarget?_eq_none {pending : List ReferenceId}
    (h : r.missingTarget? pending = none) (hid : id ∈ pending) (hf : r.reference? id = some f) :
    r.contains f.target := by
  obtain ⟨m, hm, -⟩ := reference?_eq_some_iff.1 hf
  simpa [hm, hf] using List.findSome?_eq_none_iff.1 h id hid

theorem mem_of_missingTarget?_eq_some {pending : List ReferenceId}
    (h : r.missingTarget? pending = some (m, f)) :
    m ∈ r.models ∧ f ∈ m.references ∧ r.contains f.target = false := by
  obtain ⟨id, -, hfound⟩ := List.exists_of_findSome?_eq_some h
  cases hm : r.get? id.model with
  | none => simp [hm] at hfound
  | some owner =>
    cases hf : r.reference? id with
    | none => simp [hm, hf] at hfound
    | some g =>
      simp only [hm, hf, Option.ite_none_left_eq_some, Option.some.injEq, Prod.mk.injEq,
        Bool.not_eq_true] at hfound
      obtain ⟨hnot, rfl, rfl⟩ := hfound
      obtain ⟨owner', howner, hat⟩ := reference?_eq_some_iff.1 hf
      obtain rfl := Option.some.inj (hm.symm.trans howner)
      exact ⟨mem_of_get? hm, List.mem_of_getElem? hat, hnot⟩

theorem Progress.Tracks.isEntangled {state : Progress} (htracks : state.Tracks)
    (hstuck : state.IsStuck)
    (hmissing : state.registry.missingTarget? state.pending = none) :
    state.registry.IsEntangled := by
  intro m hm f hf hres
  obtain ⟨id, -, hat⟩ := exists_reference?_of_mem hm hf
  have hpending := (htracks.isOpen_iff id).1 ⟨f, hat, hres⟩
  -- it is blocked although its target is there, so that the target has no final key
  obtain ⟨f', hat', hnot⟩ := hstuck id hpending
  obtain rfl := Option.some.inj (hat.symm.trans hat')
  obtain ⟨t, ht, hname⟩ :=
    contains_iff.1 (contains_of_missingTarget?_eq_none hmissing hpending hat)
  refine ⟨t, ht, hname, ?_⟩
  rw [← Bool.not_eq_true]
  exact fun hfinal => hnot (mem_finalKeys.2 ⟨t, ht, hfinal, hname⟩)

/-- The report on a standstill names an open reference to a model that is not registered; or there
is none, and it names a cycle. -/
theorem stallError_cases {state : Progress} (hr : state.registry.Sound) (htracks : state.Tracks)
    (hstuck : state.IsStuck) {first : ReferenceId} {rest : List ReferenceId}
    (hpending : state.pending = first :: rest) :
    (∃ m ∈ state.registry.models, ∃ f ∈ m.references, state.registry.contains f.target = false ∧
      state.registry.stallError first rest = .unknownTarget m.name f.field f.target) ∨
    (∀ m ∈ state.registry.models, ∀ f ∈ m.references, f.resolution = none →
      state.registry.contains f.target) ∧
      ∃ cycle, state.registry.OpenKeyCycle cycle ∧
        state.registry.stallError first rest =
          .cyclicKey ((cycle ++ cycle.take 1).map KeyStep.text) := by
  unfold stallError
  cases hmissing : state.registry.missingTarget? (first :: rest) with
  | some found =>
    obtain ⟨m, f⟩ := found
    obtain ⟨hm, hf, hnot⟩ := mem_of_missingTarget?_eq_some hmissing
    exact .inl ⟨m, hm, f, hf, hnot, rfl⟩
  | none =>
    rw [← hpending] at hmissing
    have hentangled := htracks.isEntangled hstuck hmissing
    have hfirst : first ∈ state.pending := hpending ▸ List.mem_cons_self
    obtain ⟨f, hat, hres⟩ := (htracks.isOpen_iff first).2 hfirst
    obtain ⟨m, hm, hf⟩ := reference?_eq_some_iff.1 hat
    obtain ⟨t, ht, hname, hopen⟩ :=
      hentangled m (mem_of_get? hm) f (List.mem_of_getElem? hf) hres
    obtain ⟨start, hstart⟩ := exists_get?_of_mem ht
    refine .inr ⟨fun n hn g hg hgres => ?_, ?_⟩
    · obtain ⟨t', ht', hname', -⟩ := hentangled n hn g hg hgres
      exact contains_iff.2 ⟨t', ht', hname'⟩
    · dsimp only
      rw [hat]
      dsimp only
      rw [(idOf_eq_some_iff hr.nodup_names).2 ⟨t, hstart, hname⟩]
      exact hentangled.exists_cycle hr.nodup_names (Nat.zero_add _) (.nil _ t) hstart hopen

/-! ## 4. The report of a resolution -/

/-- What a resolution may report. -/
inductive Diagnosis (separator : String) (r : Registry) : Error → Prop
  | refused {e : Error} (h : r.Refuses e) : Diagnosis separator r e
  | unknownTarget {m : Model} {f : Reference} (hm : m ∈ r.models) (hf : f ∈ m.references)
      (hmissing : r.contains f.target = false) :
      Diagnosis separator r (.unknownTarget m.name f.field f.target)
  | cyclicKey {state : Progress} {steps : List KeyStep} (hstops : StopsIn separator r state)
      (hdeclared : state.registry.models.map Model.bare = r.models.map Model.bare)
      (hcycle : state.registry.OpenKeyCycle steps) :
      Diagnosis separator r (.cyclicKey ((steps ++ steps.take 1).map KeyStep.text))

theorem Refuses.kind_ne_cyclicKey (h : r.Refuses e) : e.kind ≠ .cyclicKey := by
  cases h <;> simp [Error.kind]

theorem resolve_cases (separator : String) (hr : r.Sound) :
    (∃ e, (r.resolve separator).result = .error (.error e) ∧ r.Refuses e) ∨
      ∃ state, StopsIn separator r state ∧
        (r.resolve separator).result = (conclude state).result.mapError .error := by
  rw [result_resolve hr, result_resolveAll]
  cases hpasses : (passes separator (r.size + 1)
      ⟨r.withoutStale, r.withoutStale.unresolved, 0⟩).result with
  | error e =>
    have hrefuses := refuses_of_passes hr.withoutStale (tracks_unresolved _) hpasses
    -- dropping what is stale changes no declaration
    exact .inl ⟨e, rfl, hrefuses.congr (map_bare_withoutStale r)⟩
  | ok state => exact .inr ⟨state, hpasses, rfl⟩

namespace StopsIn

variable {state : Progress}

/-- What is reported of the state in which the passes stop holds of the registry. -/
theorem diagnosis (hstops : StopsIn separator r state) (hr : r.Sound)
    (h : (conclude state).result = .error e) : Diagnosis separator r e := by
  have hbare := hstops.map_bare_eq
  unfold conclude at h
  split at h
  · rename_i first rest hpending
    obtain rfl := Except.error.inj h
    rcases stallError_cases (hstops.sound hr) hstops.tracks (hstops.isStuck hr) hpending with
      ⟨m, hm, f, hf, hmissing, heq⟩ | ⟨-, cycle, hcycle, heq⟩
    · -- the report names what the registry had before the passes as well
      obtain ⟨n, hn, g, hg, hname, hgf⟩ := exists_reference_of_map_bare_eq hbare hm hf
      have htarget : g.target = f.target := Reference.congr_of_bare_eq hgf (·.target)
      rw [contains_congr (map_name_eq_of_map_bare_eq hbare), ← htarget] at hmissing
      rw [heq, ← hname, ← htarget, ← Reference.congr_of_bare_eq hgf (·.field)]
      exact .unknownTarget hn hg hmissing
    · rw [heq]
      exact .cyclicKey hstops hbare hcycle
  · split at h
    · rename_i m hfind
      obtain rfl := Except.error.inj h
      exact .refused ((Refuses.missingPrimaryKey (List.mem_of_find?_eq_some hfind)).congr hbare)
    · rw [Logged.result_emit_bind] at h
      cases h

/-- A reference that waits for a model which is not registered is reported before any cycle. -/
theorem exists_error_of_not_contains (hstops : StopsIn separator r state) (hr : r.Sound)
    (hm : m ∈ r.withoutStale.models) (hf : f ∈ m.references)
    (hmissing : r.contains f.target = false) :
    ∃ e, (conclude state).result = .error e ∧ e.kind ≠ .cyclicKey := by
  have hbare := hstops.map_bare_eq
  have hsound := hstops.sound hr
  -- no reference to a missing model has ever been resolved
  obtain ⟨n, hn, g, hg, -, hgf⟩ :=
    exists_reference_of_map_bare_eq hstops.steps.map_bare_eq.symm hm hf
  have hnot : ¬state.registry.contains g.target := by
    rw [contains_congr (map_name_eq_of_map_bare_eq hbare),
      Reference.congr_of_bare_eq hgf (·.target), hmissing]
    exact Bool.false_ne_true
  have hopen : g.resolution = none := by
    refine Option.eq_none_iff_forall_ne_some.2 fun resolution hresolution => hnot ?_
    obtain ⟨t, ht, hname⟩ := hsound.exists_target hn hg hresolution
    exact contains_iff.2 ⟨t, mem_of_get? ht, hname⟩
  obtain ⟨id, -, hat⟩ := exists_reference?_of_mem hn hg
  have hpending := (hstops.tracks.isOpen_iff id).1 ⟨g, hat, hopen⟩
  obtain ⟨first, rest, hcons⟩ := List.exists_cons_of_ne_nil (List.ne_nil_of_mem hpending)
  have hresult : (conclude state).result = .error (state.registry.stallError first rest) := by
    rw [conclude, hcons]
    rfl
  refine ⟨_, hresult, ?_⟩
  rcases stallError_cases hsound hstops.tracks (hstops.isStuck hr) hcons with
    ⟨_, _, _, _, _, heq⟩ | ⟨hall, -⟩
  · rw [heq]
    simp [Error.kind]
  · exact absurd (hall n hn g hg hopen) hnot

end StopsIn

/-- The errors that a resolution may report are of five kinds. -/
theorem Diagnosis.kind_mem (h : Diagnosis separator r e) :
    e.kind ∈ [ErrorKind.duplicateColumn, .missingPrimaryKey, .invalidPair, .unknownTarget,
      .cyclicKey] := by
  cases h with
  | refused hrefuses => cases hrefuses <;> simp [Error.kind]
  | unknownTarget => simp [Error.kind]
  | cyclicKey => simp [Error.kind]

/-- A resolution that fails reports the truth, and it fails without reporting a cycle if an open
reference names a model that is not registered. -/
theorem diagnosis_of_resolve {operations : List Operation} (hfresh : ∀ o ∈ operations, o.Fresh)
    (separator : String) :
    (∀ failure, ((after operations).resolve separator).result = .error failure →
      ∃ e, failure = .error e ∧ Diagnosis separator (after operations) e ∧
        e.kind ∈ [ErrorKind.duplicateColumn, .missingPrimaryKey, .invalidPair, .unknownTarget,
          .cyclicKey]) ∧
    ∀ m ∈ (after operations).withoutStale.models, ∀ f ∈ m.references, f.resolution = none →
      (after operations).contains f.target = false →
        ∃ e, ((after operations).resolve separator).result = .error (.error e) ∧
          e.kind ≠ .cyclicKey := by
  have hr := sound_after hfresh
  rcases resolve_cases separator hr with
    ⟨e, hresult, hrefuses⟩ | ⟨state, hstops, hresult⟩
  · refine ⟨fun failure h => ?_, fun _ _ _ _ _ _ => ⟨e, hresult, hrefuses.kind_ne_cyclicKey⟩⟩
    rw [hresult, Except.error.injEq] at h
    have hdiagnosis : Diagnosis separator (after operations) e := .refused hrefuses
    exact ⟨e, h.symm, hdiagnosis, hdiagnosis.kind_mem⟩
  · refine ⟨fun failure h => ?_, fun m hm f hf _ hmissing => ?_⟩
    · cases hconclude : (conclude state).result with
      | ok s => simp [hresult, hconclude, Except.mapError] at h
      | error e =>
        rw [hresult, hconclude] at h
        have hdiagnosis := hstops.diagnosis hr hconclude
        exact ⟨e, (Except.error.inj h).symm, hdiagnosis, hdiagnosis.kind_mem⟩
    · obtain ⟨e, hconclude, hkind⟩ :=
        hstops.exists_error_of_not_contains hr hm hf hmissing
      exact ⟨e, by rw [hresult, hconclude]; rfl, hkind⟩

/-- The keys of the country and of its capital wait for each other. -/
def capitalDeclared : List Operation :=
  [.register countryOfCapital, .register city]

theorem fresh_capitalDeclared : ∀ o ∈ capitalDeclared, o.Fresh := by
  simp only [capitalDeclared, List.forall_mem_cons, List.not_mem_nil, false_imp_iff, implies_true,
    and_true]
  exact ⟨Model.fresh_ofFields _ _ (by decide), Model.fresh_ofFields _ _ (by decide)⟩

theorem diagnosis_capitalDeclared :
    ((after capitalDeclared).resolve "_").result =
        .error (.error (.cyclicKey ["City.country", "Country.capital", "City.country"])) ∧
      Diagnosis "_" (after capitalDeclared)
        (.cyclicKey ["City.country", "Country.capital", "City.country"]) := by
  have hresult : ((after capitalDeclared).resolve "_").result =
      .error (.error (.cyclicKey ["City.country", "Country.capital", "City.country"])) := rfl
  obtain ⟨e, he, hdiagnosis, -⟩ := (diagnosis_of_resolve fresh_capitalDeclared "_").1 _ hresult
  obtain rfl := Failure.error.inj he
  exact ⟨hresult, hdiagnosis⟩

end Registry

end RelSchema
