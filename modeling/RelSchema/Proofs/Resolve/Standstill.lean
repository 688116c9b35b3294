import Mathlib.Data.Finset.Card
import RelSchema.Proofs.Resolve.Dropping
import RelSchema.Proofs.Resolve.Run

/-!
# Where the passes stop

A pass that leaves references waiting has made some key final, or it leaves each of them without a
final key to be resolved against.  There are no more keys than models, so that the passes come to a
standstill within their bound: no reference that is still pending could be resolved by another pass.
-/

namespace RelSchema

namespace Registry

variable {separator : String} {r s next : Registry} {id : ReferenceId}

/-! ## 1. Final keys -/

/-- The names of the models with a final key. -/
def finalKeys (r : Registry) : Finset String :=
  ((r.models.filter (·.isKeyFinal)).map (·.name)).toFinset

theorem mem_finalKeys {name : String} :
    name ∈ r.finalKeys ↔ ∃ m ∈ r.models, m.isKeyFinal ∧ m.name = name := by
  simp only [finalKeys, List.mem_toFinset, List.mem_map, List.mem_filter, and_assoc]

theorem card_finalKeys_le (r : Registry) : r.finalKeys.card ≤ r.size := by
  refine (List.toFinset_card_le _).trans ?_
  rw [List.length_map]
  exact List.length_filter_le _ _

theorem size_eq_of_map_bare_eq (h : r.models.map Model.bare = s.models.map Model.bare) :
    r.size = s.size := by
  simpa [size] using congrArg List.length h

/-- A final key stays final. -/
theorem GrowsTo.finalKeys_subset (h : r.GrowsTo s) : r.finalKeys ⊆ s.finalKeys := by
  intro name hname
  obtain ⟨m, hm, hfinal, rfl⟩ := mem_finalKeys.1 hname
  obtain ⟨id, hid⟩ := exists_get?_of_mem hm
  obtain ⟨n, hn, hmn⟩ := h.exists_get? hid
  exact mem_finalKeys.2 ⟨n, mem_of_get? hn, hmn.isKeyFinal hfinal,
    (Model.name_eq_of_bare_eq hmn.bare_eq).symm⟩

/-- The reference at the place names no model with a final key. -/
def IsBlocked (r : Registry) (id : ReferenceId) : Prop :=
  ∃ f, r.reference? id = some f ∧ f.target ∉ r.finalKeys

/-- While registries grow, a reference stays blocked, or else some key becomes final. -/
theorem GrowsTo.isBlocked_or_ssubset (h : r.GrowsTo s) (hblocked : r.IsBlocked id) :
    s.IsBlocked id ∨ r.finalKeys ⊂ s.finalKeys := by
  obtain ⟨f, hf, hnot⟩ := hblocked
  obtain ⟨g, hg, hfg⟩ := exists_reference?_of_map_bare_eq h.map_bare_eq hf
  rw [Reference.congr_of_bare_eq hfg (·.target)] at hnot
  -- if the target has become final, its name is among the final keys and was not before
  by_cases hfinal : g.target ∈ s.finalKeys
  · exact .inr ((Finset.ssubset_iff_of_subset h.finalKeys_subset).2 ⟨g.target, hfinal, hnot⟩)
  · exact .inl ⟨g, hg, hfinal⟩

/-! ## 2. Attempts -/

section Attempt

variable {owner : Model} {f : Reference}

/-- What an attempt does not resolve is blocked. -/
theorem not_mem_finalKeys_of_attempt (hnames : (r.models.map (·.name)).Nodup) {outcome : Attempt}
    (h : r.attempt separator id owner f = .ok outcome)
    (hwaits : ∀ next resolution, outcome ≠ .resolved next resolution) :
    f.target ∉ r.finalKeys := by
  intro hmem
  obtain ⟨t, ht, hfinal, hname⟩ := mem_finalKeys.1 hmem
  obtain ⟨i, hlocate⟩ := exists_locate?_of_mem hnames ht
  rw [hname] at hlocate
  simp only [attempt, hlocate, hfinal, if_true] at h
  cases hkey : t.key with
  | error e => simp [hkey] at h
  | ok key =>
    cases hsettle : f.settle owner t separator key with
    | error e => simp [hkey, hsettle] at h
    | ok out =>
      simp only [hkey, hsettle, Except.ok.injEq] at h
      exact hwaits _ _ h.symm

theorem attempt_of_not_mem_finalKeys (hnames : (r.models.map (·.name)).Nodup)
    (h : f.target ∉ r.finalKeys) :
    r.attempt separator id owner f = .ok .targetMissing ∨
      r.attempt separator id owner f = .ok .targetKeyOpen := by
  cases hlocate : r.locate? f.target with
  | none => exact .inl (by simp [attempt, hlocate])
  | some found =>
    obtain ⟨ht, hname⟩ := (locate?_eq_some_iff_name hnames).1 hlocate
    have hopen : found.2.isKeyFinal ≠ true := fun hfinal =>
      h (mem_finalKeys.2 ⟨found.2, mem_of_get? ht, hfinal, hname⟩)
    exact .inr (by simp [attempt, hlocate, hopen])

end Attempt

/-! ## 3. Passes -/

/-- What a pass over references does, one after the other: it leaves a blocked one waiting, and
resolves any other one. -/
inductive Passed (separator : String) :
    Registry → List ReferenceId → Registry → List ReferenceId → Prop
  | done (r : Registry) : Passed separator r [] r []
  | waits {r next : Registry} {id : ReferenceId} {rest waiting : List ReferenceId}
      (hblocked : r.IsBlocked id) (hrest : Passed separator r rest next waiting) :
      Passed separator r (id :: rest) next (id :: waiting)
  | resolves {r mid next : Registry} {id : ReferenceId} {rest waiting : List ReferenceId}
      (hstep : Step separator r id mid) (hrest : Passed separator mid rest next waiting) :
      Passed separator r (id :: rest) next waiting

/-- An attempt at a reference of the registry fails. -/
def FailsWith (separator : String) (r : Registry) (e : Error) : Prop :=
  ∃ id, ∃ m ∈ r.models, ∃ f ∈ m.references, r.attempt separator id m f = .error e

/-- A pass over open references goes through, or it stops at an attempt that fails. -/
theorem pass_cases {ids : List ReferenceId} (hr : r.Sound) (hids : ∀ id ∈ ids, r.IsOpen id)
    (hnodup : ids.Nodup) :
    (∃ next waiting, (pass separator r ids).result = .ok (next, waiting) ∧
      Passed separator r ids next waiting) ∨
    ∃ e mid, (pass separator r ids).result = .error e ∧ Steps separator r mid ∧
      FailsWith separator mid e := by
  -- over the ids, with the registry free, because a resolution hands a new one to the rest
  induction ids generalizing r with
  | nil => exact .inl ⟨r, [], rfl, .done r⟩
  | cons id rest ih =>
    rw [List.nodup_cons] at hnodup
    obtain ⟨f, hreference, hopen⟩ := hids id List.mem_cons_self
    obtain ⟨owner, howner, hf⟩ := reference?_eq_some_iff.1 hreference
    have hothers : ∀ id' ∈ rest, r.IsOpen id' ∧ id' ≠ id := fun id' hid' =>
      ⟨hids id' (.tail _ hid'), fun heq => hnodup.1 (heq ▸ hid')⟩
    rw [result_pass_cons howner hreference]
    cases hattempt : r.attempt separator id owner f with
    | error e =>
      exact .inr ⟨e, r, rfl, .refl, id, owner, mem_of_get? howner, f, List.mem_of_getElem? hf,
        hattempt⟩
    | ok outcome =>
      have hnot := not_mem_finalKeys_of_attempt hr.nodup_names hattempt
      cases outcome with
      | targetMissing | targetKeyOpen =>
        have hblocked : r.IsBlocked id := ⟨f, hreference, hnot (by simp)⟩
        rcases ih hr (fun id' hid' => (hothers id' hid').1) hnodup.2 with
          ⟨next, waiting, hpass, hpassed⟩ | ⟨e, mid, hpass, hsteps, hfails⟩
        · exact .inl ⟨next, id :: waiting, by rw [hpass]; rfl, .waits hblocked hpassed⟩
        · exact .inr ⟨e, mid, by rw [hpass]; rfl, hsteps, hfails⟩
      | resolved mid resolution =>
        have hstep := step_of_attempt howner hf hopen hattempt
        rcases ih (hstep.sound hr) (fun id' hid' => hstep.isOpen_iff.2 (hothers id' hid'))
          hnodup.2 with ⟨next, waiting, hpass, hpassed⟩ | ⟨e, mid', hpass, hsteps, hfails⟩
        · exact .inl ⟨next, waiting, hpass, .resolves hstep hpassed⟩
        · exact .inr ⟨e, mid', hpass, hsteps.head ⟨id, hstep⟩, hfails⟩

theorem passed_of_pass {ids waiting : List ReferenceId} (hr : r.Sound)
    (hids : ∀ id ∈ ids, r.IsOpen id) (hnodup : ids.Nodup)
    (h : (pass separator r ids).result = .ok (next, waiting)) :
    Passed separator r ids next waiting := by
  rcases pass_cases hr hids hnodup with ⟨next', waiting', hpass, hpassed⟩ | ⟨e, mid, hpass, -⟩
  · obtain ⟨rfl, rfl⟩ := Prod.mk.inj (Except.ok.inj (hpass.symm.trans h))
    exact hpassed
  · cases hpass.symm.trans h

namespace Passed

variable {ids waiting : List ReferenceId}

theorem steps (h : Passed separator r ids next waiting) : Steps separator r next := by
  induction h with
  | done r => exact .refl
  | waits _ _ ih => exact ih
  | resolves hstep _ ih => exact ih.head ⟨_, hstep⟩

theorem length_le (h : Passed separator r ids next waiting) : waiting.length ≤ ids.length := by
  induction h with
  | done r => exact Nat.le_refl _
  | waits _ _ ih => exact Nat.succ_le_succ ih
  | resolves _ _ ih => exact Nat.le_succ_of_le ih

/-- A pass that leaves everything waiting has done nothing. -/
theorem eq_of_length_eq (h : Passed separator r ids next waiting)
    (hlength : waiting.length = ids.length) : next = r := by
  induction h with
  | done r => rfl
  | waits _ _ ih => exact ih (Nat.succ.inj hlength)
  | resolves _ hrest _ =>
    have hle := hrest.length_le
    rw [List.length_cons] at hlength
    omega

/-- What waits after a pass is blocked, unless the pass has made some key final. -/
theorem isBlocked_or_ssubset (h : Passed separator r ids next waiting) (hr : r.Sound) :
    (∀ id ∈ waiting, next.IsBlocked id) ∨ r.finalKeys ⊂ next.finalKeys := by
  induction h with
  | done r => exact .inl fun _ hid => absurd hid List.not_mem_nil
  | waits hblocked hrest ih =>
    -- the first one was blocked before the rest of the pass, which may have changed that
    have hgrows := hrest.steps.growsTo hr
    rcases ih hr with hall | hmore
    · rcases hgrows.isBlocked_or_ssubset hblocked with hfirst | hmore
      · exact .inl (List.forall_mem_cons.2 ⟨hfirst, hall⟩)
      · exact .inr hmore
    · exact .inr hmore
  | resolves hstep _ ih =>
    have hsubset := (hstep.growsTo hr).finalKeys_subset
    exact (ih (hstep.sound hr)).imp_right hsubset.trans_ssubset

end Passed

/-- A pass over references that are all blocked leaves all of them waiting. -/
theorem result_pass_of_isBlocked {ids : List ReferenceId}
    (hnames : (r.models.map (·.name)).Nodup) (h : ∀ id ∈ ids, r.IsBlocked id) :
    (pass separator r ids).result = .ok (r, ids) := by
  induction ids with
  | nil => rfl
  | cons id rest ih =>
    obtain ⟨f, hf, hnot⟩ := h id List.mem_cons_self
    obtain ⟨owner, howner, -⟩ := reference?_eq_some_iff.1 hf
    have hrest := ih fun id' hid' => h id' (.tail _ hid')
    rw [result_pass_cons howner hf, hrest]
    rcases attempt_of_not_mem_finalKeys hnames hnot with hattempt | hattempt <;>
      · rw [hattempt]
        rfl

/-! ## 4. Standstill -/

/-- Another pass would resolve nothing. -/
def Progress.IsStuck (state : Progress) : Prop :=
  ∀ id ∈ state.pending, state.registry.IsBlocked id

/-- After a pass the passes are stuck, or there are more final keys for one pass less. -/
theorem Progress.isStuck_or_lt_of_pass {state : Progress} (hr : state.registry.Sound)
    (htracks : state.Tracks) {waiting : List ReferenceId}
    (h : (pass separator state.registry state.pending).result = .ok (next, waiting)) (count : Nat)
    {left : Nat}
    (hbound : state.IsStuck ∨
      state.registry.size < state.registry.finalKeys.card + (left + 1)) :
    (⟨next, waiting, count⟩ : Progress).IsStuck ∨ next.size < next.finalKeys.card + left := by
  rcases hbound with hstuck | hbound
  · rw [result_pass_of_isBlocked hr.nodup_names hstuck] at h
    obtain ⟨rfl, rfl⟩ := Prod.mk.inj (Except.ok.inj h)
    exact .inl hstuck
  · have hpassed := passed_of_pass hr (fun id hid => (htracks.isOpen_iff id).2 hid)
      htracks.nodup h
    refine (hpassed.isBlocked_or_ssubset hr).imp_right fun hmore => ?_
    have hcard := Finset.card_lt_card hmore
    have hsize := size_eq_of_map_bare_eq hpassed.steps.map_bare_eq
    omega

/-- The passes end stuck, given one more of them than there are keys that are not final. -/
theorem isStuck_of_passes {left : Nat} {state final : Progress} (hr : state.registry.Sound)
    (htracks : state.Tracks)
    (hbound : state.IsStuck ∨ state.registry.size < state.registry.finalKeys.card + left)
    (h : (passes separator left state).result = .ok final) : final.IsStuck := by
  induction left generalizing state with
  | zero =>
    -- there cannot be more final keys than models
    obtain rfl := Except.ok.inj h
    exact hbound.resolve_right (Nat.not_lt.2 state.registry.card_finalKeys_le)
  | succ left ih =>
    rw [result_passes_succ] at h
    split at h
    · rename_i hempty
      obtain rfl := Except.ok.inj h
      intro id hid
      simp [List.isEmpty_iff.1 hempty] at hid
    · cases hpass : (pass separator state.registry state.pending).result with
      | error e => simp [hpass, Except.bind] at h
      | ok out =>
        have hpassed := passed_of_pass hr (fun id hid => (htracks.isOpen_iff id).2 hid)
          htracks.nodup hpass
        have hafter := Progress.isStuck_or_lt_of_pass hr htracks hpass (state.count + 1) hbound
        rw [hpass] at h
        simp only [Except.bind] at h
        split at h
        · -- a pass that resolves nothing makes no key final
          rename_i hlength
          obtain rfl := Except.ok.inj h
          have hsame := hpassed.eq_of_length_eq hlength
          exact (hpassed.isBlocked_or_ssubset hr).resolve_right fun hmore =>
            hmore.ne (congrArg finalKeys hsame).symm
        · exact ih (hpassed.steps.sound hr) (htracks.of_pass hpass _) hafter h

/-- The passes of a resolution end in the state. -/
def StopsIn (separator : String) (r : Registry) (state : Progress) : Prop :=
  (passes separator (r.size + 1) ⟨r.withoutStale, r.withoutStale.unresolved, 0⟩).result = .ok state

namespace StopsIn

variable {state : Progress}

theorem steps (h : StopsIn separator r state) : Steps separator r.withoutStale state.registry :=
  (steps_of_passes (tracks_unresolved _) h).1

theorem tracks (h : StopsIn separator r state) : state.Tracks :=
  (steps_of_passes (tracks_unresolved _) h).2

theorem sound (h : StopsIn separator r state) (hr : r.Sound) : state.registry.Sound :=
  h.steps.sound hr.withoutStale

theorem map_bare_eq (h : StopsIn separator r state) :
    state.registry.models.map Model.bare = r.models.map Model.bare :=
  h.steps.map_bare_eq.trans (map_bare_withoutStale r)

theorem isStuck (h : StopsIn separator r state) (hr : r.Sound) : state.IsStuck := by
  refine isStuck_of_passes hr.withoutStale (tracks_unresolved _) (.inr ?_) h
  have hsize := size_eq_of_map_bare_eq (map_bare_withoutStale r)
  dsimp only
  omega

end StopsIn

end Registry

end RelSchema
