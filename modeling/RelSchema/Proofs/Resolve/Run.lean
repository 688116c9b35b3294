import RelSchema.Proofs.Resolve.Step

/-!
# Runs as sequences of steps

What the passes do to a registry is a sequence of steps, and the references that they leave waiting
are the open ones.  So a successful resolution is a sequence of steps after which no reference is
open.
-/

namespace RelSchema

namespace Registry

variable {separator : String}

/-! ## 1. Passes -/

/-- An attempt that resolves its reference is a step. -/
theorem step_of_attempt {r next : Registry} {id : ReferenceId} {owner : Model} {f : Reference}
    {resolution : Resolution} (howner : r.get? id.model = some owner)
    (hf : owner.references[id.index]? = some f) (hopen : f.resolution = none)
    (h : r.attempt separator id owner f = .ok (.resolved next resolution)) :
    Step separator r id next := by
  unfold attempt at h
  cases htarget : r.locate? f.target with
  | none => simp [htarget] at h
  | some found =>
    by_cases hfinal : found.2.isKeyFinal
    · cases hkey : found.2.key with
      | error e => simp [htarget, hfinal, hkey] at h
      | ok key =>
        cases hsettle : f.settle owner found.2 separator key with
        | error e => simp [htarget, hfinal, hkey, hsettle] at h
        | ok out =>
          simp only [htarget, hfinal, hkey, hsettle, if_true, Except.ok.injEq,
            Attempt.resolved.injEq] at h
          obtain ⟨rfl, rfl⟩ := h
          exact .settle howner hf hopen htarget hfinal hkey hsettle
    · -- a reference whose target has an open key is not resolved by the attempt
      simp [htarget, hfinal] at h

/-- The result of a pass, by what becomes of its first reference. -/
theorem result_pass_cons {r : Registry} {id : ReferenceId} {rest : List ReferenceId} {owner : Model}
    {f : Reference} (howner : r.get? id.model = some owner) (hf : r.reference? id = some f) :
    (pass separator r (id :: rest)).result =
      match r.attempt separator id owner f with
      | .error e => .error e
      | .ok (.resolved next _) => (pass separator next rest).result
      | .ok _ => (pass separator r rest).result.map fun out => (out.1, id :: out.2) := by
  rw [pass, howner, hf]
  dsimp only
  cases r.attempt separator id owner f with
  | error e => rfl
  | ok outcome =>
    cases outcome with
    | resolved next resolution => exact Logged.result_emit_bind _ _
    | targetMissing | targetKeyOpen =>
      dsimp only
      rw [Logged.result_emit_bind, Logged.result_bind]
      cases (pass separator r rest).result <;> rfl

/-- A pass over open references resolves those that it does not leave waiting. -/
theorem steps_of_pass {r next : Registry} {ids waiting : List ReferenceId}
    (hids : ∀ id ∈ ids, r.IsOpen id) (hnodup : ids.Nodup)
    (h : (pass separator r ids).result = .ok (next, waiting)) :
    Steps separator r next ∧ waiting.Sublist ids ∧
      ∀ id, next.IsOpen id ↔ r.IsOpen id ∧ (id ∈ ids → id ∈ waiting) := by
  induction ids generalizing r waiting with
  | nil =>
    obtain ⟨rfl, rfl⟩ := Prod.mk.inj (Except.ok.inj h)
    exact ⟨.refl, .slnil, by simp⟩
  | cons id rest ih =>
    rw [List.nodup_cons] at hnodup
    obtain ⟨f, hreference, hopen⟩ := hids id List.mem_cons_self
    obtain ⟨owner, howner, hf⟩ := reference?_eq_some_iff.1 hreference
    have hrest : ∀ id' ∈ rest, r.IsOpen id' ∧ id' ≠ id := fun id' hid' =>
      ⟨hids id' (.tail _ hid'), fun heq => hnodup.1 (heq ▸ hid')⟩
    rw [result_pass_cons howner hreference] at h
    -- a reference that has to wait stays open and is put in front of the others that wait
    have hwaits : (pass separator r rest).result.map (fun out => (out.1, id :: out.2)) =
        .ok (next, waiting) → Steps separator r next ∧ waiting.Sublist (id :: rest) ∧
          ∀ id', next.IsOpen id' ↔ r.IsOpen id' ∧ (id' ∈ id :: rest → id' ∈ waiting) := by
      intro hmap
      cases hpass : (pass separator r rest).result with
      | error e => simp [hpass, Except.map] at hmap
      | ok out =>
        simp only [hpass, Except.map, Except.ok.injEq, Prod.mk.injEq] at hmap
        obtain ⟨rfl, rfl⟩ := hmap
        obtain ⟨hsteps, hsub, hopens⟩ := ih (fun id' hid' => (hrest id' hid').1) hnodup.2 hpass
        refine ⟨hsteps, hsub.cons_cons id, fun id' => ?_⟩
        rw [hopens id']
        by_cases hid : id' = id
        · simp [hid, hnodup.1]
        · simp [hid]
    cases hattempt : r.attempt separator id owner f with
    | error e => simp [hattempt] at h
    | ok outcome =>
      rw [hattempt] at h
      cases outcome with
      | targetMissing => exact hwaits h
      | targetKeyOpen => exact hwaits h
      | resolved mid resolution =>
        have hstep := step_of_attempt howner hf hopen hattempt
        obtain ⟨hsteps, hsub, hopens⟩ :=
          ih (fun id' hid' => hstep.isOpen_iff.2 (hrest id' hid')) hnodup.2 h
        refine ⟨hsteps.head ⟨id, hstep⟩, hsub.cons id, fun id' => ?_⟩
        rw [hopens id', hstep.isOpen_iff]
        -- the resolved reference is closed, and nothing that waits has its place
        by_cases hid : id' = id
        · subst hid
          have hnot : id' ∉ waiting := fun hmem => hnodup.1 (hsub.subset hmem)
          simp [hnot]
        · simp [hid]

theorem result_passes_succ (left : Nat) (state : Progress) :
    (passes separator (left + 1) state).result =
      if state.pending.isEmpty then .ok state
      else (pass separator state.registry state.pending).result.bind fun out =>
        if out.2.length = state.pending.length then .ok ⟨out.1, out.2, state.count + 1⟩
        else (passes separator left ⟨out.1, out.2, state.count + 1⟩).result := by
  rw [passes]
  split
  · rfl
  · rw [Logged.result_emit_bind, Logged.result_bind]
    cases (pass separator state.registry state.pending).result with
    | error e => rfl
    | ok out =>
      show Logged.result (if _ then _ else _) = if _ then _ else _
      split <;> rfl

theorem result_passes_nil (separator : String) (left : Nat) {state : Progress}
    (h : state.pending = []) : (passes separator left state).result = .ok state := by
  cases left with
  | zero => rfl
  | succ left => rw [result_passes_succ, h, List.isEmpty_nil, if_pos rfl]

/-- All pending references are open, and no others. -/
structure Progress.Tracks (state : Progress) : Prop where
  isOpen_iff : ∀ id, state.registry.IsOpen id ↔ id ∈ state.pending
  nodup : state.pending.Nodup

/-- A pass over what is open leaves what is open waiting. -/
theorem Progress.Tracks.of_pass {state : Progress} (hstate : state.Tracks) {next : Registry}
    {waiting : List ReferenceId}
    (h : (pass separator state.registry state.pending).result = .ok (next, waiting))
    (count : Nat) : (⟨next, waiting, count⟩ : Progress).Tracks := by
  obtain ⟨-, hsub, hopens⟩ :=
    steps_of_pass (fun id hid => (hstate.isOpen_iff id).2 hid) hstate.nodup h
  refine ⟨fun id => ?_, hsub.nodup hstate.nodup⟩
  rw [hopens id, hstate.isOpen_iff]
  exact ⟨fun h' => h'.2 h'.1, fun h' => ⟨hsub.subset h', fun _ => h'⟩⟩

theorem steps_of_passes {left : Nat} {state final : Progress} (hstate : state.Tracks)
    (h : (passes separator left state).result = .ok final) :
    Steps separator state.registry final.registry ∧ final.Tracks := by
  induction left generalizing state with
  | zero =>
    obtain rfl := Except.ok.inj h
    exact ⟨.refl, hstate⟩
  | succ left ih =>
    rw [result_passes_succ] at h
    split at h
    · obtain rfl := Except.ok.inj h
      exact ⟨.refl, hstate⟩
    · cases hpass : (pass separator state.registry state.pending).result with
      | error e => simp [hpass, Except.bind] at h
      | ok out =>
        rw [hpass] at h
        obtain ⟨hsteps, -, -⟩ :=
          steps_of_pass (fun id hid => (hstate.isOpen_iff id).2 hid) hstate.nodup hpass
        have hafter := hstate.of_pass hpass (state.count + 1)
        simp only [Except.bind] at h
        -- a pass after which as many wait as before it is the last one
        split at h
        · obtain rfl := Except.ok.inj h
          exact ⟨hsteps, hafter⟩
        · obtain ⟨hrest, hfinal⟩ := ih hafter h
          exact ⟨hsteps.trans hrest, hfinal⟩

/-! ## 2. Resolution -/

theorem conclude_eq_ok_iff {state : Progress} {s : Registry} :
    (conclude state).result = .ok s ↔
      state.pending = [] ∧ (∀ m ∈ state.registry.models, m.keyShape ≠ []) ∧
        state.registry = s := by
  unfold conclude
  cases hpending : state.pending with
  | cons first rest => simp
  | nil =>
    cases hfind : state.registry.models.find? (·.keyShape.isEmpty) with
    | some m =>
      have hm : m.keyShape = [] := by simpa using List.find?_some hfind
      simp only [Logged.result_fail, reduceCtorEq, true_and, false_iff]
      exact fun h => h.1 m (List.mem_of_find?_eq_some hfind) hm
    | none =>
      have hall : ∀ m ∈ state.registry.models, m.keyShape ≠ [] := by
        simpa [List.find?_eq_none] using hfind
      dsimp only
      rw [Logged.result_emit_bind, Logged.result_pure]
      simp only [Except.ok.injEq, true_and]
      exact ⟨fun h => ⟨hall, h⟩, fun h => h.2⟩

theorem tracks_unresolved (r : Registry) : (⟨r, r.unresolved, 0⟩ : Progress).Tracks :=
  ⟨fun _ => mem_unresolved_iff.symm, r.nodup_unresolved⟩

theorem result_resolveAll (r : Registry) :
    (r.resolveAll separator).result =
      (passes separator (r.size + 1) ⟨r.withoutStale, r.withoutStale.unresolved, 0⟩).result.bind
        fun state => (conclude state).result := by
  rw [resolveAll, Logged.result_report_bind, Logged.result_bind]

theorem result_resolve {r : Registry} (hr : r.Sound) :
    (r.resolve separator).result = (r.resolveAll separator).result.mapError .error := by
  rw [resolve, if_neg (by simp [hr.hasForeignTarget_eq_false]), Logged.result_mapError]

theorem resolveAll_of_resolve {r s : Registry} (h : (r.resolve separator).result = .ok s) :
    (r.resolveAll separator).result = .ok s := by
  unfold resolve at h
  split at h
  · cases h
  · rw [Logged.result_mapError] at h
    cases hall : (r.resolveAll separator).result <;> simp_all [Except.mapError]

/-- After a successful resolution no reference is open and every model has a key, and the registry
was reached by steps from the one without stale resolutions. -/
theorem steps_of_resolveAll {r s : Registry} (h : (r.resolveAll separator).result = .ok s) :
    Steps separator r.withoutStale s ∧ (∀ id, ¬s.IsOpen id) ∧ ∀ m ∈ s.models, m.keyShape ≠ [] := by
  rw [result_resolveAll] at h
  cases hpasses : (passes separator (r.size + 1)
      ⟨r.withoutStale, r.withoutStale.unresolved, 0⟩).result with
  | error e => simp [hpasses, Except.bind] at h
  | ok state =>
    obtain ⟨hsteps, htracks⟩ := steps_of_passes (tracks_unresolved _) hpasses
    rw [hpasses] at h
    obtain ⟨hpending, hkeys, rfl⟩ := conclude_eq_ok_iff.1 h
    refine ⟨hsteps, fun id hopen => ?_, hkeys⟩
    have hmem := (htracks.isOpen_iff id).1 hopen
    simp [hpending] at hmem

theorem steps_of_resolve {r s : Registry} (hr : r.Sound)
    (h : (r.resolve separator).result = .ok s) :
    Steps separator r.withoutStale s ∧ (∀ id, ¬s.IsOpen id) ∧ ∀ m ∈ s.models, m.keyShape ≠ [] := by
  rw [result_resolve hr] at h
  cases hall : (r.resolveAll separator).result with
  | error e => simp [hall, Except.mapError] at h
  | ok next =>
    rw [hall] at h
    obtain rfl := Except.ok.inj h
    exact steps_of_resolveAll hall

theorem isResolved_of_not_isOpen {r : Registry} (h : ∀ id, ¬r.IsOpen id) {m : Model}
    (hm : m ∈ r.models) {f : Reference} (hf : f ∈ m.references) : f.isResolved := by
  obtain ⟨i, hi⟩ := exists_get?_of_mem hm
  obtain ⟨j, hj⟩ := List.getElem?_of_mem hf
  cases hres : f.isResolved
  · exact absurd ⟨f, reference?_eq_some_iff.2 ⟨m, hi, hj⟩,
      Reference.isResolved_eq_false_iff.1 hres⟩ (h ⟨i, j⟩)
  · rfl

end Registry

end RelSchema
