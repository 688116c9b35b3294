import RelSchema.Proofs.Resolve.Staleness
import RelSchema.Proofs.Resolve.Standstill

/-!
# The bound on the passes

Passes go on as long as one of them resolves something.  Each pass that is not the last one either
makes the key of some model final or leaves nothing that another pass could resolve, so that one
pass more than there are models is enough: a run with the bound ends as a run without it does.
-/

namespace RelSchema

namespace Registry

variable {separator : String}

/-! ## 1. Passes without a bound -/

/-- The state after one more pass over what is pending. -/
structure PassesTo (separator : String) (state next : Progress) : Prop where
  pending_ne_nil : state.pending ≠ []
  result_eq : (pass separator state.registry state.pending).result =
    .ok (next.registry, next.pending)
  count_eq : next.count = state.count + 1

/-- A pass after which the run goes on, as less is pending than before. -/
structure GoesOn (separator : String) (state next : Progress) : Prop
    extends PassesTo separator state next where
  pending_ne : next.pending ≠ state.pending

/-- Passes that no bound cuts short: until nothing is pending or a pass resolves nothing, or up to a
reference that cannot be resolved. -/
inductive Runs (separator : String) : Progress → Except Error Progress → Prop
  | nothingPending {state : Progress} (h : state.pending = []) : Runs separator state (.ok state)
  | failed {state : Progress} {e : Error} (hpending : state.pending ≠ [])
      (h : (pass separator state.registry state.pending).result = .error e) :
      Runs separator state (.error e)
  | nothingResolved {state next : Progress} (h : PassesTo separator state next)
      (hsame : next.pending = state.pending) : Runs separator state (.ok next)
  | again {state next : Progress} {out : Except Error Progress} (h : GoesOn separator state next)
      (hrest : Runs separator next out) : Runs separator state out

theorem PassesTo.unique {state next next' : Progress} (h : PassesTo separator state next)
    (h' : PassesTo separator state next') : next = next' := by
  have hresult := Except.ok.inj (h.result_eq.symm.trans h'.result_eq)
  have hcount := h.count_eq.trans h'.count_eq.symm
  cases next
  cases next'
  simp_all

/-- A run has one outcome. -/
theorem Runs.unique {state : Progress} {out out' : Except Error Progress}
    (h : Runs separator state out) (h' : Runs separator state out') : out = out' := by
  induction h with
  | nothingPending hnil =>
    cases h' with
    | nothingPending => rfl
    | failed hpending => exact absurd hnil hpending
    | nothingResolved hpass => exact absurd hnil hpass.pending_ne_nil
    | again hgoes => exact absurd hnil hgoes.pending_ne_nil
  | failed hpending herror =>
    cases h' with
    | nothingPending hnil => exact absurd hnil hpending
    | failed _ herror' => rw [Except.error.inj (herror.symm.trans herror')]
    | nothingResolved hpass => cases herror.symm.trans hpass.result_eq
    | again hgoes => cases herror.symm.trans hgoes.result_eq
  | nothingResolved hpass hsame =>
    cases h' with
    | nothingPending hnil => exact absurd hnil hpass.pending_ne_nil
    | failed _ herror => cases herror.symm.trans hpass.result_eq
    | nothingResolved hpass' => rw [hpass.unique hpass']
    | again hgoes => exact absurd (hpass.unique hgoes.toPassesTo ▸ hsame) hgoes.pending_ne
  | again hgoes _ ih =>
    cases h' with
    | nothingPending hnil => exact absurd hnil hgoes.pending_ne_nil
    | failed _ herror => cases herror.symm.trans hgoes.result_eq
    | nothingResolved hpass hsame =>
      exact absurd (hpass.unique hgoes.toPassesTo ▸ hsame) hgoes.pending_ne
    | again hgoes' hrest' => exact ih (hgoes.unique hgoes'.toPassesTo ▸ hrest')

/-! ## 2. What a pass makes final -/

variable {state next : Progress}

theorem PassesTo.passed (h : PassesTo separator state next) (hr : state.registry.Sound)
    (htracks : state.Tracks) : Passed separator state.registry state.pending next.registry
      next.pending :=
  passed_of_pass hr (fun id hid => (htracks.isOpen_iff id).2 hid) htracks.nodup h.result_eq

theorem PassesTo.tracks (h : PassesTo separator state next) (htracks : state.Tracks) :
    next.Tracks :=
  htracks.of_pass h.result_eq next.count

theorem PassesTo.sound (h : PassesTo separator state next) (hr : state.registry.Sound)
    (htracks : state.Tracks) : next.registry.Sound :=
  (h.passed hr htracks).steps.sound hr

/-- What is pending after a pass was pending before, in the same order. -/
theorem PassesTo.pending_sublist (h : PassesTo separator state next) (htracks : state.Tracks) :
    next.pending.Sublist state.pending :=
  (steps_of_pass (fun id hid => (htracks.isOpen_iff id).2 hid) htracks.nodup h.result_eq).2.1

/-- Some model has a final key that it did not have before. -/
def MakesFinal (r s : Registry) : Prop :=
  ∃ id m n, r.get? id = some m ∧ s.get? id = some n ∧ m.isKeyFinal = false ∧ n.isKeyFinal

theorem GrowsTo.makesFinal_of_ssubset {r s : Registry} (h : r.GrowsTo s)
    (hmore : r.finalKeys ⊂ s.finalKeys) : r.MakesFinal s := by
  obtain ⟨name, hname, hnot⟩ := Finset.exists_of_ssubset hmore
  obtain ⟨n, hn, hfinal, rfl⟩ := mem_finalKeys.1 hname
  obtain ⟨id, hid⟩ := exists_get?_of_mem hn
  obtain ⟨m, hm, hbare⟩ := exists_get?_of_map_bare_eq h.map_bare_eq.symm hid
  refine ⟨id, m, n, hm, hid, ?_, hfinal⟩
  -- were the key final before, its name would be among the final ones
  rw [← Bool.not_eq_true]
  exact fun hbefore => hnot
    (mem_finalKeys.2 ⟨m, mem_of_get? hm, hbefore, Model.name_eq_of_bare_eq hbare.symm⟩)

/-- A pass makes some key final, or there is nothing that the pass after it could resolve. -/
theorem PassesTo.isStuck_or_ssubset (h : PassesTo separator state next)
    (hr : state.registry.Sound) (htracks : state.Tracks) :
    next.IsStuck ∨ state.registry.finalKeys ⊂ next.registry.finalKeys :=
  (h.passed hr htracks).isBlocked_or_ssubset hr

/-! ## 3. Enough passes -/

/-- As many passes are left as the run can still need, whatever it finds. -/
def Progress.Affords (state : Progress) (left : Nat) : Prop :=
  state.IsStuck ∧ 0 < left ∨ state.registry.size + 1 < state.registry.finalKeys.card + left

theorem Progress.Affords.pos {left : Nat} (h : state.Affords left) : 0 < left := by
  have hcard := state.registry.card_finalKeys_le
  rcases h with ⟨-, hpos⟩ | hbound
  · exact hpos
  · omega

/-- A pass that does not end the run costs one pass and makes up for it. -/
theorem GoesOn.affords (h : GoesOn separator state next) (hr : state.registry.Sound)
    (htracks : state.Tracks) {left : Nat} (haffords : state.Affords (left + 1)) :
    next.Affords left := by
  rcases haffords with ⟨hstuck, -⟩ | hbound
  · -- a pass over what is stuck resolves nothing
    have hidle := h.result_eq.symm.trans (result_pass_of_isBlocked hr.nodup_names hstuck)
    exact absurd (Prod.mk.inj (Except.ok.inj hidle)).2 h.pending_ne
  · rcases h.isStuck_or_ssubset hr htracks with hstuck | hmore
    · have hcard := state.registry.card_finalKeys_le
      exact .inl ⟨hstuck, by omega⟩
    · have hcard := Finset.card_lt_card hmore
      have hsize := size_eq_of_map_bare_eq (h.passed hr htracks).steps.map_bare_eq
      exact .inr (by omega)

/-- Passes that are afforded run as they would without a bound. -/
theorem runs_passes {left : Nat} (hr : state.registry.Sound) (htracks : state.Tracks)
    (haffords : state.Affords left) :
    Runs separator state (passes separator left state).result := by
  induction left generalizing state with
  | zero => exact absurd haffords.pos (Nat.lt_irrefl 0)
  | succ left ih =>
    rw [result_passes_succ]
    by_cases hpending : state.pending = []
    · rw [hpending, List.isEmpty_nil, if_pos rfl]
      exact .nothingPending hpending
    · rw [if_neg (by rwa [List.isEmpty_iff])]
      cases hpass : (pass separator state.registry state.pending).result with
      | error e => exact .failed hpending hpass
      | ok out =>
        have hpasses : PassesTo separator state ⟨out.1, out.2, state.count + 1⟩ :=
          ⟨hpending, hpass, rfl⟩
        show Runs separator state (if _ then _ else _)
        split
        · rename_i hlength
          exact .nothingResolved hpasses ((hpasses.pending_sublist htracks).eq_of_length hlength)
        · rename_i hlength
          have hgoes : GoesOn separator state ⟨out.1, out.2, state.count + 1⟩ :=
            { hpasses with pending_ne := fun hsame => hlength (congrArg List.length hsame) }
          exact .again hgoes (ih (hgoes.sound hr htracks) (hgoes.tracks htracks)
            (hgoes.affords hr htracks haffords))

/-! ## 4. Resolution -/

/-- Where the passes of a resolution begin. -/
def begun (r : Registry) : Progress :=
  ⟨r.withoutStale, r.withoutStale.unresolved, 0⟩

theorem tracks_begun (r : Registry) : r.begun.Tracks :=
  tracks_unresolved _

theorem affords_begun (r : Registry) : r.begun.Affords (r.size + 1) := by
  have hsize : r.begun.registry.size = r.size :=
    size_eq_of_map_bare_eq (map_bare_withoutStale r)
  rcases r.begun.registry.finalKeys.eq_empty_or_nonempty with hnone | hsome
  · -- without any final key nothing can be resolved
    refine .inl ⟨fun id hid => ?_, Nat.succ_pos _⟩
    obtain ⟨f, hf, -⟩ := (tracks_begun r).isOpen_iff id |>.2 hid
    exact ⟨f, hf, hnone ▸ Finset.notMem_empty _⟩
  · have hcard := hsome.card_pos
    exact .inr (by omega)

variable {r : Registry}

theorem result_passes_iff_runs (hr : r.Sound) (separator : String) (out : Except Error Progress) :
    (passes separator (r.size + 1) r.begun).result = out ↔ Runs separator r.begun out := by
  have hruns : Runs separator r.begun (passes separator (r.size + 1) r.begun).result :=
    runs_passes hr.withoutStale (tracks_begun r) (affords_begun r)
  exact ⟨fun h => h ▸ hruns, fun h => hruns.unique h⟩

theorem result_resolve_iff_runs (hr : r.Sound) (separator : String)
    (out : Except Failure Registry) :
    (r.resolve separator).result = out ↔
      ∃ ended, Runs separator r.begun ended ∧
        (ended.bind fun state => (conclude state).result).mapError .error = out := by
  rw [result_resolve hr, result_resolveAll]
  constructor
  · exact fun h => ⟨_, (result_passes_iff_runs hr separator _).1 rfl, h⟩
  · rintro ⟨ended, hruns, h⟩
    rw [← (result_passes_iff_runs hr separator _).2 hruns] at h
    exact h

/-- Every state that a run goes on to is sound and has everything pending that is open. -/
theorem sound_and_tracks_of_goesOn (hr : r.Sound)
    (h : Relation.ReflTransGen (GoesOn separator) r.begun state) :
    state.registry.Sound ∧ state.Tracks := by
  induction h with
  | refl => exact ⟨hr.withoutStale, tracks_begun r⟩
  | tail _ hgoes ih =>
    obtain ⟨hsound, htracks⟩ := ih
    exact ⟨hgoes.sound hsound htracks, hgoes.tracks htracks⟩

/-- With the bound of one pass more than there are models a resolution ends as it would without any
bound.  Each pass but the last leaves fewer references pending than it found, and no pass after the
first does anything, unless the one before it has made some key final. -/
theorem resolve_iff_runs_of_after {operations : List Operation}
    (hfresh : ∀ o ∈ operations, o.Fresh) (separator : String) :
    (∀ out, (passes separator ((after operations).size + 1) (after operations).begun).result = out ↔
      Runs separator (after operations).begun out) ∧
    (∀ out, ((after operations).resolve separator).result = out ↔
      ∃ ended, Runs separator (after operations).begun ended ∧
        (ended.bind fun state => (conclude state).result).mapError .error = out) ∧
    ∀ state next, Relation.ReflTransGen (GoesOn separator) (after operations).begun state →
      GoesOn separator state next →
        next.pending.length < state.pending.length ∧
        ((pass separator next.registry next.pending).result ≠ .ok (next.registry, next.pending) →
          state.registry.MakesFinal next.registry) := by
  have hr := sound_after hfresh
  refine ⟨result_passes_iff_runs hr separator, result_resolve_iff_runs hr separator, ?_⟩
  intro state next hreached hgoes
  obtain ⟨hsound, htracks⟩ := sound_and_tracks_of_goesOn hr hreached
  have hnext := hgoes.sound hsound htracks
  constructor
  · have hsub := hgoes.pending_sublist htracks
    exact lt_of_le_of_ne hsub.length_le fun heq => hgoes.pending_ne (hsub.eq_of_length heq)
  · intro hresolves
    rcases hgoes.isStuck_or_ssubset hsound htracks with hstuck | hmore
    · exact absurd (result_pass_of_isBlocked hnext.nodup_names hstuck) hresolves
    · exact ((hgoes.passed hsound htracks).steps.growsTo hsound).makesFinal_of_ssubset hmore

/-- The visitor has to wait for the city, and the city's country comes last. -/
def visitorFirst : List Operation :=
  [.register visitor, .register city, .register country]

theorem fresh_visitorFirst : ∀ o ∈ visitorFirst, o.Fresh := by
  simp only [visitorFirst, List.forall_mem_cons, List.not_mem_nil, false_imp_iff, implies_true,
    and_true]
  exact ⟨Model.fresh_ofFields _ _ (by decide), Model.fresh_ofFields _ _ (by decide),
    Model.fresh_ofFields _ _ (by decide)⟩

/-- The first pass makes the key of cities final, the second one resolves the visitor's home. -/
theorem makesFinal_visitorFirst :
    ∃ next ended, GoesOn "_" (after visitorFirst).begun next ∧ GoesOn "_" next ended ∧
      (after visitorFirst).begun.registry.MakesFinal next.registry ∧
      Runs "_" (after visitorFirst).begun (.ok ended) ∧
      ((after visitorFirst).resolve "_").result = .ok ended.registry := by
  have hpasses : ∃ next ended, GoesOn "_" (after visitorFirst).begun next ∧
      GoesOn "_" next ended ∧ ended.pending.length < next.pending.length ∧
      (passes "_" 4 (after visitorFirst).begun).result = .ok ended ∧
      (conclude ended).result = .ok ended.registry :=
    ⟨⟨_, [⟨0, 0⟩], 1⟩, ⟨_, [], 2⟩, ⟨⟨by decide, rfl, rfl⟩, by decide⟩,
      ⟨⟨by decide, rfl, rfl⟩, by decide⟩, by decide, rfl, rfl⟩
  obtain ⟨next, ended, hfirst, hsecond, hless, hbounded, hconclude⟩ := hpasses
  obtain ⟨hruns, hresolve, hpass⟩ := resolve_iff_runs_of_after fresh_visitorFirst "_"
  have hended := (hruns _).1 hbounded
  refine ⟨next, ended, hfirst, hsecond, (hpass _ _ .refl hfirst).2 fun hidle => ?_, hended,
    (hresolve _).2 ⟨_, hended, ?_⟩⟩
  · -- the second pass leaves less pending than it finds
    have hsame := Except.ok.inj (hsecond.result_eq.symm.trans hidle)
    rw [(Prod.mk.inj hsame).2] at hless
    exact Nat.lt_irrefl _ hless
  · show ((conclude ended).result).mapError _ = _
    rw [hconclude]
    rfl

end Registry

end RelSchema
