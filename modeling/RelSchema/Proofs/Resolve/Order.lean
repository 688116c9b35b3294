import RelSchema.Proofs.Resolve.Approach
import RelSchema.Proofs.Resolve.Schedule

/-!
# Orders of registration

When models resolve in one order of registration, they resolve in another exactly if the schedule of
that order brings every column before the first declared pair that starts at it.  In all other cases
the run ends with the report of a missing local column.
-/

namespace RelSchema

namespace Registry

/-- In the outcome the reference at `id` pairs a column that the one at `source`, of the same model,
has brought. -/
def Borrows (outcome r : Registry) (id source : ReferenceId) : Prop :=
  source.model = id.model ∧ ∃ m n f g, r.get? id.model = some m ∧ outcome.lookup m.name = .ok n ∧
    m.references[id.index]? = some f ∧ m.references[source.index]? = some g ∧
    ∃ p ∈ f.declaredPairs, ∃ c ∈ n.columns, c.name = p.source ∧ c.isMarkedBy g.field

theorem Borrows.isSome_reference? {outcome r : Registry} {id source : ReferenceId}
    (h : Borrows outcome r id source) : (r.reference? id).isSome := by
  obtain ⟨-, m, -, f, -, hm, -, hf, -⟩ := h
  rw [reference?_eq_some_iff.2 ⟨m, hm, hf⟩]
  rfl

/-- What is borrowed at one of the places stands before it in the order. -/
def LendsInTime (outcome r : Registry) (order : List ReferenceId) : Prop :=
  ∀ id source, Borrows outcome r id source → source ∈ before order id

/-- A state of a run that has settled the places of `done`, and is on its way to the outcome. -/
structure Follows (separator : String) (outcome start r : Registry) (done : List ReferenceId) :
    Prop where
  approaches : Approaches separator outcome r
  map_bare_eq : start.models.map Model.bare = r.models.map Model.bare
  mem_done_iff : ∀ id, id ∈ done ↔ ∃ f, r.reference? id = some f ∧ f.isResolved

/-- A declared pair that starts at a column that is not there. -/
def ReportsMissingSource (e : Error) : Prop :=
  ∃ model field column, e = .invalidPair model field (.sourceMissing column model)

namespace Follows

variable {separator : String} {outcome start r : Registry} {done : List ReferenceId}
  {id : ReferenceId} {f : Reference}

/-! ## 1. The schedule knows what is ready -/

theorem mem_done_iff_isResolved (h : Follows separator outcome start r done)
    (hf : r.reference? id = some f) : id ∈ done ↔ f.isResolved := by
  rw [h.mem_done_iff]
  constructor
  · rintro ⟨g, hg, hres⟩
    obtain rfl := Option.some.inj (hf.symm.trans hg)
    exact hres
  · intro hres
    exact ⟨f, hf, hres⟩

/-- What is not done has no resolution. -/
theorem not_mem_done_iff (h : Follows separator outcome start r done)
    (hf : r.reference? id = some f) : id ∉ done ↔ f.resolution = none := by
  rw [h.mem_done_iff_isResolved hf, Bool.not_eq_true, Reference.isResolved_eq_false_iff]

theorem isKeyDone_iff (h : Follows separator outcome start r done) {i : ModelId} {m n : Model}
    (hn : r.get? i = some n) (hbare : m.bare = n.bare) : isKeyDone done i m ↔ n.isKeyFinal := by
  have hdone : ∀ (j : Nat) g, n.references[j]? = some g → (⟨i, j⟩ ∈ done ↔ g.isResolved) :=
    fun j g hg => h.mem_done_iff_isResolved (reference?_eq_some_iff.2 ⟨n, hn, hg⟩)
  rw [Registry.isKeyDone_iff, Model.isKeyFinal_iff]
  constructor
  · intro hkeys g hg hkey
    obtain ⟨j, hj⟩ := List.getElem?_of_mem hg
    obtain ⟨f, hf, hfg⟩ := Model.exists_reference?_of_bare_eq hbare.symm hj
    have hfkey : f.primaryKey := by
      rw [Reference.congr_of_bare_eq hfg (·.primaryKey)]
      exact hkey
    exact (hdone j g hj).1 (hkeys j f hf hfkey)
  · intro hfinal j f hf hkey
    obtain ⟨g, hg, hgf⟩ := Model.exists_reference?_of_bare_eq hbare hf
    have hgkey : g.primaryKey := by
      rw [Reference.congr_of_bare_eq hgf (·.primaryKey)]
      exact hkey
    exact (hdone j g hg).2 (hfinal g (List.mem_of_getElem? hg) hgkey)

/-- A reference is ready for the schedule when the run finds its target with a final key. -/
theorem isReady_iff (h : Follows separator outcome start r done) (hf : r.reference? id = some f)
    {t : Model} {i : ModelId} (ht : r.locate? f.target = some (i, t)) :
    (start.reference? id).any (start.isReady done) ↔ t.isKeyFinal := by
  obtain ⟨g, hg, hfg⟩ := exists_reference?_of_map_bare_eq h.map_bare_eq.symm hf
  obtain ⟨hid, hti⟩ := locate?_eq_some_iff.1 ht
  obtain ⟨u, hu, htu⟩ := exists_get?_of_map_bare_eq h.map_bare_eq.symm hti
  -- the names and their places are those of the start
  have hstart : start.locate? g.target = some (i, u) := by
    rw [locate?_eq_some_iff, ← Reference.congr_of_bare_eq hfg (·.target),
      idOf_congr (map_name_eq_of_map_bare_eq h.map_bare_eq)]
    exact ⟨hid, hu⟩
  rw [hg, Option.any_some, isReady, hstart, Option.any_some]
  exact h.isKeyDone_iff hti htu.symm

/-! ## 2. What is borrowed -/

/-- What is borrowed, with the models and the references that the state has for it. -/
theorem borrows_iff (h : Follows separator outcome start r done)
    (houtcome : outcome.Complete separator) {owner n : Model}
    (howner : r.get? id.model = some owner) (hf : owner.references[id.index]? = some f)
    (hn : n ∈ outcome.models) (hbare : owner.bare = n.bare) (source : ReferenceId) :
    Borrows outcome start id source ↔ source.model = id.model ∧
      ∃ g, r.reference? source = some g ∧
        ∃ p ∈ f.declaredPairs, ∃ c ∈ n.columns, c.name = p.source ∧ c.isMarkedBy g.field := by
  obtain ⟨m, hm, hmo⟩ := exists_get?_of_map_bare_eq h.map_bare_eq.symm howner
  obtain ⟨f', hf', hff'⟩ := Model.exists_reference?_of_bare_eq hmo hf
  have hpairs : f'.declaredPairs = f.declaredPairs :=
    Reference.congr_of_bare_eq hff' (·.declaredPairs)
  have hname : n.name = m.name := Model.name_eq_of_bare_eq (hbare.symm.trans hmo)
  have hlookup : ∀ n', outcome.lookup m.name = .ok n' ↔ n' ∈ outcome.models ∧ n'.name = m.name :=
    fun _ => lookup_eq_ok_iff houtcome.coherent.sound.nodup_names
  constructor
  · rintro ⟨hmodel, m', n', f'', g, hm', hn', hf'', hg, p, hp, c, hc, hcname, hmark⟩
    obtain rfl := Option.some.inj (hm.symm.trans hm')
    obtain rfl := Option.some.inj (hf'.symm.trans hf'')
    obtain ⟨hnmem, hnname⟩ := (hlookup n').1 hn'
    obtain rfl := houtcome.coherent.sound.model_inj hnmem hn (hnname.trans hname.symm)
    obtain ⟨e, he, heg⟩ := Model.exists_reference?_of_bare_eq hmo.symm hg
    have hat : r.reference? source = some e :=
      reference?_eq_some_iff.2 ⟨owner, hmodel ▸ howner, he⟩
    refine ⟨hmodel, e, hat, p, hpairs ▸ hp, c, hc, hcname, ?_⟩
    rw [Reference.congr_of_bare_eq heg (·.field)]
    exact hmark
  · rintro ⟨hmodel, g, hg, p, hp, c, hc, hcname, hmark⟩
    obtain ⟨owner', howner', hgo⟩ := reference?_eq_some_iff.1 hg
    rw [hmodel, howner] at howner'
    obtain rfl := Option.some.inj howner'
    obtain ⟨e, he, heg⟩ := Model.exists_reference?_of_bare_eq hmo hgo
    refine ⟨hmodel, m, n, f', e, hm, (hlookup n).2 ⟨hn, hname⟩, hf', he, p, hpairs ▸ hp, c, hc,
      hcname, ?_⟩
    rw [Reference.congr_of_bare_eq heg (·.field)]
    exact hmark

/-- An open reference lacks a source exactly when it borrows from one that is not done. -/
theorem exists_missing_iff (h : Follows separator outcome start r done)
    (houtcome : outcome.Complete separator) {owner : Model} (howner : r.get? id.model = some owner)
    (hf : owner.references[id.index]? = some f) :
    (∃ p ∈ f.declaredPairs, owner.column? p.source = none) ↔
      ∃ source, Borrows outcome start id source ∧ source ∉ done := by
  have hmem := mem_of_get? howner
  obtain ⟨n, hn, hbare⟩ := h.approaches.exists_in_outcome hmem
  have hborrows := h.borrows_iff houtcome howner hf hn hbare
  constructor
  · rintro ⟨p, hp, hmissing⟩
    -- the outcome pairs the source, so that it has a column of the name
    obtain ⟨g, hg, hfg, resolution, hsettled, -⟩ :=
      Approaches.exists_settled houtcome hn hbare (List.mem_of_getElem? hf)
    have hpg : p ∈ g.declaredPairs := by
      rw [← Reference.congr_of_bare_eq hfg (·.declaredPairs)]
      exact hp
    obtain ⟨c, hc, -, -, hcname, -⟩ := hsettled.fits hpg
    rw [← hcname] at hmissing
    obtain ⟨e, he, heopen, hmark⟩ :=
      (h.approaches.column?_eq_none_iff houtcome hmem hn hbare hc).1 hmissing
    obtain ⟨k, hk⟩ := List.getElem?_of_mem he
    have hat : r.reference? ⟨id.model, k⟩ = some e := reference?_eq_some_iff.2 ⟨owner, howner, hk⟩
    refine ⟨⟨id.model, k⟩, ?_, (h.not_mem_done_iff hat).2 heopen⟩
    exact (hborrows _).2 ⟨rfl, e, hat, p, hp, c, hc, hcname, hmark⟩
  · rintro ⟨source, hsource, hnot⟩
    obtain ⟨hmodel, e, hat, p, hp, c, hc, hcname, hmark⟩ := (hborrows source).1 hsource
    obtain ⟨owner', howner', heo⟩ := reference?_eq_some_iff.1 hat
    rw [hmodel, howner] at howner'
    obtain rfl := Option.some.inj howner'
    refine ⟨p, hp, ?_⟩
    rw [← hcname]
    refine (h.approaches.column?_eq_none_iff houtcome hmem hn hbare hc).2 ⟨e, ?_, ?_, hmark⟩
    · exact List.mem_of_getElem? heo
    · exact (h.not_mem_done_iff hat).1 hnot

/-! ## 3. One attempt -/

/-- A reference that is not ready waits. -/
theorem attempt_of_not_ready (h : Follows separator outcome start r done)
    (houtcome : outcome.Complete separator) (owner : Model) (hf : r.reference? id = some f)
    (hready : (start.reference? id).any (start.isReady done) = false) :
    r.attempt separator id owner f = .ok .targetKeyOpen := by
  obtain ⟨owner', howner', hfo⟩ := reference?_eq_some_iff.1 hf
  obtain ⟨t, ht, htname⟩ :=
    h.approaches.exists_target houtcome (mem_of_get? howner') (List.mem_of_getElem? hfo)
  obtain ⟨i, hi⟩ := exists_locate?_of_mem h.approaches.coherent.sound.nodup_names ht
  rw [htname] at hi
  have hopen : t.isKeyFinal = false := by
    rw [← Bool.not_eq_true, ← h.isReady_iff hf hi, Bool.not_eq_true]
    exact hready
  simp only [attempt, hi, hopen, Bool.false_eq_true, if_false]

/-- A reference that is ready is settled if it borrows only from what is done, and refused
otherwise. -/
theorem attempt_of_ready (h : Follows separator outcome start r done)
    (houtcome : outcome.Complete separator) {owner : Model} (howner : r.get? id.model = some owner)
    (hf : r.reference? id = some f) (hopen : f.resolution = none)
    (hready : (start.reference? id).any (start.isReady done)) :
    ((∀ source, Borrows outcome start id source → source ∈ done) ∧
      ∃ next resolution, r.attempt separator id owner f = .ok (.resolved next resolution)) ∨
    ((∃ source, Borrows outcome start id source ∧ source ∉ done) ∧
      ∃ e, ReportsMissingSource e ∧ r.attempt separator id owner f = .error e) := by
  obtain ⟨owner', howner', hfo⟩ := reference?_eq_some_iff.1 hf
  obtain rfl := Option.some.inj (howner.symm.trans howner')
  have hmem := mem_of_get? howner
  have hfmem := List.mem_of_getElem? hfo
  obtain ⟨t, ht, htname⟩ := h.approaches.exists_target houtcome hmem hfmem
  obtain ⟨i, hi⟩ := exists_locate?_of_mem h.approaches.coherent.sound.nodup_names ht
  rw [htname] at hi
  have hfinal := (h.isReady_iff hf hi).1 hready
  obtain ⟨u, hu, htu⟩ := h.approaches.exists_in_outcome ht
  have hne : t.keyShape ≠ [] := by
    rw [h.approaches.keyShape_eq houtcome ht hu htu hfinal]
    exact houtcome.keyShape_ne_nil u hu
  have hkey : t.key = .ok t.keyShape := Model.key_eq_ok_iff.2 ⟨rfl, hne⟩
  have hmissing := h.exists_missing_iff houtcome howner hfo
  rcases h.approaches.settle houtcome hmem hfmem hopen ht htname hfinal with
    ⟨hsources, settled, pairs, hsettle⟩ | ⟨p, hp, hnone, hsettle⟩
  · refine .inl ⟨fun source hborrows => ?_, ?_⟩
    · by_contra hnot
      obtain ⟨p, hp, hnone⟩ := hmissing.2 ⟨source, hborrows, hnot⟩
      exact hsources p hp hnone
    · simp only [attempt, hi, hfinal, if_true, hkey, hsettle]
      exact ⟨_, _, rfl⟩
  · refine .inr ⟨hmissing.1 ⟨p, hp, hnone⟩, ?_⟩
    simp only [attempt, hi, hfinal, if_true, hkey, hsettle]
    exact ⟨_, ⟨_, _, _, rfl⟩, rfl⟩

theorem step {next : Registry} (h : Follows separator outcome start r done)
    (hstep : Step separator r id next) : Follows separator outcome start next (done ++ [id]) := by
  have hsound := h.approaches.coherent.sound
  have hgrow := hstep.growsTo hsound
  have hsteps : Steps separator r next := .single ⟨id, hstep⟩
  refine ⟨⟨h.approaches.coherent.step hstep, h.approaches.usesSeparator.steps hsound hsteps, ?_⟩,
    h.map_bare_eq.trans hgrow.map_bare_eq, fun id' => ?_⟩
  · rw [← hgrow.map_bare_eq]
    exact h.approaches.perm
  · obtain ⟨g, resolution, hg, -, hnext⟩ := hstep.reference?_eq
    rw [List.mem_append, List.mem_singleton, h.mem_done_iff, hnext]
    by_cases hid : id' = id
    · simp [hid, Reference.isResolved]
    · simp [hid]

/-! ## 4. A pass, and all passes -/

/-- A pass settles what the schedule says, or stops at a reference that borrows out of time. -/
theorem result_pass {ids : List ReferenceId} (h : Follows separator outcome start r done)
    (houtcome : outcome.Complete separator) (hids : ∀ id ∈ ids, r.IsOpen id) (hnodup : ids.Nodup) :
    (∃ next, (pass separator r ids).result = .ok (next, (start.schedulePass done ids).2) ∧
      Follows separator outcome start next (start.schedulePass done ids).1 ∧
      ∀ id ∈ ids, id ∈ (start.schedulePass done ids).1 → ∀ source,
        Borrows outcome start id source → source ∈ before (start.schedulePass done ids).1 id) ∨
    ∃ e, ReportsMissingSource e ∧ (pass separator r ids).result = .error e ∧
      ∃ id ∈ (start.schedulePass done ids).1, ∃ source,
        Borrows outcome start id source ∧ source ∉ before (start.schedulePass done ids).1 id := by
  -- the schedule and the pass go through the places side by side
  induction ids generalizing r done with
  | nil => exact .inl ⟨r, rfl, h, by simp⟩
  | cons id rest ih =>
    rw [List.nodup_cons] at hnodup
    obtain ⟨f, hf, hopen⟩ := hids id List.mem_cons_self
    obtain ⟨owner, howner, -⟩ := reference?_eq_some_iff.1 hf
    have hnotDone : id ∉ done := (h.not_mem_done_iff hf).2 hopen
    rw [result_pass_cons howner hf]
    cases hready : (start.reference? id).any (start.isReady done) with
    | false =>
      rw [h.attempt_of_not_ready houtcome owner hf hready, schedulePass_cons_of_not_ready hready]
      dsimp only
      rcases ih h (fun id' hid' => hids id' (.tail _ hid')) hnodup.2 with
        ⟨next, hpass, hnext, htime⟩ | ⟨e, he, hpass, hlate⟩
      · refine .inl ⟨next, by rw [hpass]; rfl, hnext, ?_⟩
        rintro id' (_ | ⟨_, hid'⟩) hmem
        · exact absurd ((schedulePass_spec start done rest).2.2.2 id hmem)
            (not_or.2 ⟨hnotDone, hnodup.1⟩)
        · exact htime id' hid' hmem
      · exact .inr ⟨e, he, by rw [hpass]; rfl, hlate⟩
    | true =>
      rw [schedulePass_cons_of_ready hready]
      have hbefore := before_schedulePass start hnotDone rest
      rcases h.attempt_of_ready houtcome howner hf hopen hready with
        ⟨hlends, next, resolution, hattempt⟩ | ⟨⟨source, hborrows, hlate⟩, e, he, hattempt⟩
      · rw [hattempt]
        dsimp only
        obtain ⟨owner', howner', hfo⟩ := reference?_eq_some_iff.1 hf
        obtain rfl := Option.some.inj (howner.symm.trans howner')
        have hstep := step_of_attempt howner hfo hopen hattempt
        have hrest : ∀ id' ∈ rest, next.IsOpen id' := fun id' hid' =>
          hstep.isOpen_iff.2 ⟨hids id' (.tail _ hid'), fun heq => hnodup.1 (heq ▸ hid')⟩
        rcases ih (h.step hstep) hrest hnodup.2 with
          ⟨next', hpass, hnext, htime⟩ | ⟨e, he, hpass, hlate⟩
        · refine .inl ⟨next', hpass, hnext, ?_⟩
          rintro id' (_ | ⟨_, hid'⟩) hmem source hborrows
          · rw [hbefore]
            exact hlends source hborrows
          · exact htime id' hid' hmem source hborrows
        · exact .inr ⟨e, he, hpass, hlate⟩
      · -- the attempt stops the pass, and what it lacks comes after it in the schedule
        rw [hattempt]
        have hmem : id ∈ (start.schedulePass (done ++ [id]) rest).1 :=
          (schedulePass_spec start (done ++ [id]) rest).1.subset
            (List.mem_append_right _ (List.mem_singleton_self id))
        refine .inr ⟨e, he, rfl, id, hmem, source, hborrows, ?_⟩
        rw [hbefore]
        exact hlate

theorem covers {pending : List ReferenceId} (h : Follows separator outcome start r done)
    (hpending : ∀ id, r.IsOpen id ↔ id ∈ pending) : start.Covers done pending := by
  intro id f hf
  obtain ⟨g, hg, -⟩ := exists_reference?_of_map_bare_eq h.map_bare_eq hf
  cases hres : g.isResolved with
  | true => exact .inl ((h.mem_done_iff id).2 ⟨g, hg, hres⟩)
  | false =>
    exact .inr ((hpending id).1 ⟨g, hg, Reference.isResolved_eq_false_iff.1 hres⟩)

theorem nodup_names (h : Follows separator outcome start r done) :
    (start.models.map (·.name)).Nodup := by
  rw [map_name_eq_of_map_bare_eq h.map_bare_eq]
  exact h.approaches.coherent.sound.nodup_names

/-- No key of the registry depends on itself, or there would be no outcome. -/
theorem grounded (h : Follows separator outcome start r done)
    (houtcome : outcome.Complete separator) : ∀ m ∈ start.models, start.Grounded m.name := by
  intro m hm
  have hmodels : ∀ n ∈ outcome.models, ∃ m ∈ start.models, m.bare = n.bare := fun n hn => by
    obtain ⟨m', hm', hbare⟩ := h.approaches.exists_of_outcome hn
    obtain ⟨m, hm, hmm'⟩ := exists_bare_eq_of_map_bare_eq h.map_bare_eq.symm hm'
    exact ⟨m, hm, hmm'.trans hbare⟩
  obtain ⟨m', hm', hmm'⟩ := exists_bare_eq_of_map_bare_eq h.map_bare_eq hm
  obtain ⟨n, hn, hbare⟩ := h.approaches.exists_in_outcome hm'
  have hfinal : n.isKeyFinal :=
    Model.isKeyFinal_iff.2 fun g hg _ => houtcome.isResolved n hn g hg
  rw [Model.name_eq_of_bare_eq (hmm'.symm.trans hbare)]
  exact (houtcome.coherent.grounded n hn hfinal).mono hmodels

theorem exists_target (h : Follows separator outcome start r done)
    (houtcome : outcome.Complete separator) :
    ∀ m ∈ start.models, ∀ f ∈ m.references, ∃ t ∈ start.models, t.name = f.target := by
  intro m hm f hf
  obtain ⟨n, hn, hbare⟩ := exists_bare_eq_of_map_bare_eq h.map_bare_eq hm
  obtain ⟨g, hg, hgf⟩ := Model.exists_reference_of_bare_eq hbare.symm hf
  obtain ⟨t, ht, htname⟩ := h.approaches.exists_target houtcome hn hg
  obtain ⟨u, hu, hut⟩ := exists_bare_eq_of_map_bare_eq h.map_bare_eq.symm ht
  refine ⟨u, hu, ?_⟩
  rw [Model.name_eq_of_bare_eq hut, htname, Reference.congr_of_bare_eq hgf (·.target)]

end Follows

/-- How passes end that start with the pending places and would settle them in the order: in a
registry where nothing is open, or at a reference that borrows out of time. -/
inductive Verdict (separator : String) (outcome start : Registry)
    (pending order : List ReferenceId) : Except Error Progress → Prop
  | settled {final : Progress} (hpending : final.pending = [])
      (hfollows : Follows separator outcome start final.registry order)
      (hlends : ∀ id ∈ pending, ∀ source, Borrows outcome start id source →
        source ∈ before order id) : Verdict separator outcome start pending order (.ok final)
  | refused {e : Error} (he : ReportsMissingSource e) {id source : ReferenceId} (hid : id ∈ order)
      (hborrows : Borrows outcome start id source) (hlate : source ∉ before order id) :
      Verdict separator outcome start pending order (.error e)

/-- Places that are known to borrow in time may be added to the pending ones. -/
theorem Verdict.extend {separator : String} {outcome start : Registry}
    {pending pending' order : List ReferenceId} {x : Except Error Progress}
    (h : Verdict separator outcome start pending order x)
    (hextend : ∀ id ∈ pending', id ∈ pending ∨
      ∀ source, Borrows outcome start id source → source ∈ before order id) :
    Verdict separator outcome start pending' order x := by
  cases h with
  | settled hnil hfollows hlends =>
    exact .settled hnil hfollows fun id hid => (hextend id hid).elim (hlends id) fun h => h
  | refused he hid hborrows hlate => exact .refused he hid hborrows hlate

namespace Follows

variable {separator : String} {outcome start : Registry} {done : List ReferenceId}

/-- When nothing is left waiting, the passes end where they are. -/
theorem verdict_of_pending_eq_nil {state : Progress}
    (h : Follows separator outcome start state.registry done) (hnil : state.pending = [])
    (left : Nat) :
    Verdict separator outcome start state.pending
      (start.schedulePasses left (done, state.pending)).1
      (passes separator left state).result := by
  rw [result_passes_nil separator left hnil, hnil, schedulePasses_nil]
  exact .settled hnil h fun id hid => absurd hid List.not_mem_nil

/-- With a pass for every key that is not done, and one more, nothing is left waiting. -/
theorem verdict_passes {left : Nat} {state : Progress}
    (h : Follows separator outcome start state.registry done)
    (houtcome : outcome.Complete separator) (hstate : state.Tracks)
    (hleft : start.unfinished done < left) :
    Verdict separator outcome start state.pending
      (start.schedulePasses left (done, state.pending)).1
      (passes separator left state).result := by
  induction left generalizing done state with
  | zero => exact absurd hleft (Nat.not_lt_zero _)
  | succ left ih =>
    by_cases hpending : state.pending = []
    · exact h.verdict_of_pending_eq_nil hpending (left + 1)
    · have hopen : ∀ id ∈ state.pending, state.registry.IsOpen id := fun id hid =>
        (hstate.isOpen_iff id).2 hid
      have hids : ∀ id ∈ state.pending, ∃ f, start.reference? id = some f := fun id hid => by
        obtain ⟨f, hf, -⟩ := hopen id hid
        obtain ⟨g, hg, -⟩ := exists_reference?_of_map_bare_eq h.map_bare_eq.symm hf
        exact ⟨g, hg⟩
      have hprogress := schedulePass_progress h.nodup_names (h.grounded houtcome)
        (h.exists_target houtcome) hids (h.covers hstate.isOpen_iff)
      have hkeeps := prefix_schedulePasses start left (start.schedulePass done state.pending)
      rw [result_passes_succ, if_neg (by simpa using hpending), schedulePasses]
      rcases h.result_pass houtcome hopen hstate.nodup with
        ⟨next, hpass, hnext, htime⟩ | ⟨e, he, hpass, id, hid, source, hborrows, hlate⟩
      · have hafter := hstate.of_pass hpass (state.count + 1)
        have hfollowing : Follows separator outcome start
            (⟨next, (start.schedulePass done state.pending).2, state.count + 1⟩ :
              Progress).registry
            (start.schedulePass done state.pending).1 := hnext
        -- the passes do not stop early, since every pass settles something
        have hshorter :
            (start.schedulePass done state.pending).2.length ≠ state.pending.length := by
          rcases hprogress with hnil | ⟨-, hlt⟩
          · rw [hnil]
            exact fun heq => hpending (List.eq_nil_of_length_eq_zero heq.symm)
          · exact Nat.ne_of_lt hlt
        have hrest : Verdict separator outcome start (start.schedulePass done state.pending).2
            (start.schedulePasses left (start.schedulePass done state.pending)).1
            (passes separator left
              ⟨next, (start.schedulePass done state.pending).2, state.count + 1⟩).result := by
          rcases hprogress with hnil | ⟨hlt, -⟩
          · exact hfollowing.verdict_of_pending_eq_nil hnil left
          · exact ih hfollowing hafter (by omega)
        rw [hpass]
        simp only [Except.bind, if_neg hshorter]
        -- what the first pass settled stays where it is in the order
        apply hrest.extend
        intro id hid
        rcases (schedulePass_spec start done state.pending).2.2.1 id hid with hid' | hid'
        · rw [before_eq_of_mem hkeeps hid']
          exact .inr (htime id hid hid')
        · exact .inl hid'
      · rw [hpass]
        refine .refused he (hkeeps.subset hid) hborrows ?_
        rw [before_eq_of_mem hkeeps hid]
        exact hlate

end Follows

/-! ## 5. Two orders -/

variable {separator : String} {outcome : Registry} {models models' : List Model}

theorem mem_unresolved_of_forall {start : Registry}
    (hopen : ∀ m ∈ start.models, ∀ f ∈ m.references, f.resolution = none) {id : ReferenceId}
    (h : (start.reference? id).isSome) : id ∈ start.unresolved := by
  obtain ⟨f, hf⟩ := Option.isSome_iff_exists.1 h
  obtain ⟨m, hm, hfm⟩ := reference?_eq_some_iff.1 hf
  exact mem_unresolved_iff.2 ⟨f, hf, hopen m (mem_of_get? hm) f (List.mem_of_getElem? hfm)⟩

/-- A registry in which nothing is resolved follows every outcome that has its declarations. -/
theorem follows_of_forall {start : Registry} (hcoherent : start.Coherent)
    (hseparator : start.UsesSeparator separator)
    (hopen : ∀ m ∈ start.models, ∀ f ∈ m.references, f.resolution = none)
    (hperm : (start.models.map Model.bare).Perm (outcome.models.map Model.bare)) :
    Follows separator outcome start start [] := by
  refine ⟨⟨hcoherent, hseparator, hperm⟩, rfl, fun id => ?_⟩
  simp only [List.not_mem_nil, false_iff, not_exists, not_and, Bool.not_eq_true]
  intro f hf
  obtain ⟨m, hm, hfm⟩ := reference?_eq_some_iff.1 hf
  exact Reference.isResolved_eq_false_iff.2
    (hopen m (mem_of_get? hm) f (List.mem_of_getElem? hfm))

/-- Once all is settled, every model has the key that it has in the outcome. -/
theorem Follows.keyShape_ne_nil {start r : Registry} {done : List ReferenceId}
    (h : Follows separator outcome start r done) (houtcome : outcome.Complete separator)
    (hopen : ∀ id, ¬r.IsOpen id) : ∀ m ∈ r.models, m.keyShape ≠ [] := by
  intro m hm
  obtain ⟨n, hn, hbare⟩ := h.approaches.exists_in_outcome hm
  have hfinal : m.isKeyFinal :=
    Model.isKeyFinal_iff.2 fun f hf _ => isResolved_of_not_isOpen hopen hm hf
  rw [h.approaches.keyShape_eq houtcome hm hn hbare hfinal]
  exact houtcome.keyShape_ne_nil n hn

theorem unfinished_nil_le_size (r : Registry) : r.unfinished [] ≤ r.size := by
  have hle : r.unfinished [] ≤ r.models.zipIdx.length := List.length_filter_le _ _
  rw [List.length_zipIdx] at hle
  exact hle

/-- A registry in which nothing is resolved, and which has an outcome, resolves exactly if every
place borrows from places before it in the schedule.  It is otherwise refused for a local column
that is missing. -/
theorem resolve_iff_lendsInTime {start : Registry} (houtcome : outcome.Complete separator)
    (hcoherent : start.Coherent) (hseparator : start.UsesSeparator separator)
    (hunresolved : ∀ m ∈ start.models, ∀ f ∈ m.references, f.resolution = none)
    (hperm : (start.models.map Model.bare).Perm (outcome.models.map Model.bare)) :
    ((∃ r, (start.resolve separator).result = .ok r) ↔
      LendsInTime outcome start start.schedule) ∧
    ∀ failure, (start.resolve separator).result = .error failure →
      ∃ e, ReportsMissingSource e ∧ failure = .error e := by
  have hfollows : Follows separator outcome start start [] :=
    follows_of_forall hcoherent hseparator hunresolved hperm
  have hverdict : Verdict separator outcome start start.unresolved start.schedule
      (passes separator (start.size + 1) ⟨start, start.unresolved, 0⟩).result :=
    Follows.verdict_passes hfollows houtcome (tracks_unresolved _)
      (Nat.lt_succ_of_le (unfinished_nil_le_size _))
  rw [result_resolve hcoherent.sound, result_resolveAll, hcoherent.withoutStale_eq]
  cases hpasses : (passes separator (start.size + 1) ⟨start, start.unresolved, 0⟩).result with
  | ok final =>
    rw [hpasses] at hverdict
    -- nothing waits and every key is that of the outcome, so that the conclusion is good
    obtain ⟨hnil, hfinal, hlends⟩ := hverdict
    have htracks := (steps_of_passes (tracks_unresolved _) hpasses).2
    have hopen : ∀ id, ¬final.registry.IsOpen id := fun id hid => by
      have hmem := (htracks.isOpen_iff id).1 hid
      simp [hnil] at hmem
    have hconclude : (conclude final).result = .ok final.registry :=
      conclude_eq_ok_iff.2 ⟨hnil, hfinal.keyShape_ne_nil houtcome hopen, rfl⟩
    simp only [Except.bind, hconclude, Except.mapError]
    refine ⟨⟨fun _ id source hborrows => ?_, fun _ => ⟨_, rfl⟩⟩, fun failure hfailure => by
      cases hfailure⟩
    exact hlends id (mem_unresolved_of_forall hunresolved hborrows.isSome_reference?) source
      hborrows
  | error e =>
    rw [hpasses] at hverdict
    simp only [Except.bind, Except.mapError]
    cases hverdict with
    | refused he hid hborrows hlate =>
      refine ⟨⟨fun hok => ?_, fun hlends => ?_⟩, fun failure hfailure => ?_⟩
      · obtain ⟨r, hr⟩ := hok
        cases hr
      · exact absurd (hlends _ _ hborrows) hlate
      · exact ⟨e, he, (Except.error.inj hfailure).symm⟩

/-- Models with an outcome resolve exactly if every place borrows from places before it in the
schedule, and are otherwise refused for a local column that is missing. -/
theorem resolve_ofModels_iff (houtcome : outcome.Complete separator)
    (hfresh : ∀ m ∈ models, m.Fresh) (hnames : (models.map (·.name)).Nodup)
    (hperm : models.Perm (outcome.models.map Model.bare)) :
    ((∃ r, ((ofModels models).resolve separator).result = .ok r) ↔
      LendsInTime outcome (ofModels models) (ofModels models).schedule) ∧
    ∀ failure, ((ofModels models).resolve separator).result = .error failure →
      ∃ e, ReportsMissingSource e ∧ failure = .error e := by
  obtain ⟨hcoherent, hseparator⟩ := coherent_ofModels hfresh separator
  refine resolve_iff_lendsInTime houtcome hcoherent hseparator
    (resolution_eq_none_ofModels hfresh) ?_
  rw [map_bare_ofModels hfresh hnames]
  exact hperm

/-- The declarations that have been resolved in one order have an outcome for all orders. -/
theorem complete_of_resolve (hfresh : ∀ m ∈ models, m.Fresh)
    (hnames : (models.map (·.name)).Nodup)
    (h : ((ofModels models).resolve separator).result = .ok outcome) :
    outcome.Complete separator ∧ outcome.models.map Model.bare = models := by
  obtain ⟨hcoherent, hseparator⟩ := coherent_ofModels hfresh separator
  refine ⟨hcoherent.complete hseparator h, ?_⟩
  rw [map_bare_of_resolve hcoherent.sound h, map_bare_ofModels hfresh hnames]

/-- Pairs that start at declared columns borrow nothing, and then the order does not matter. -/
theorem resolve_of_perm_of_declared (hfresh : ∀ m ∈ models, m.Fresh)
    (hnames : (models.map (·.name)).Nodup) (hperm : models.Perm models')
    (hdeclared : ∀ m ∈ models, ∀ f ∈ m.references, ∀ p ∈ f.declaredPairs,
      ∃ c ∈ m.columns, c.name = p.source)
    (h : ∃ r, ((ofModels models).resolve separator).result = .ok r) :
    ∃ r, ((ofModels models').resolve separator).result = .ok r := by
  obtain ⟨outcome, h⟩ := h
  have hfresh' : ∀ m ∈ models', m.Fresh := fun m hm => hfresh m (hperm.mem_iff.2 hm)
  have hnames' : (models'.map (·.name)).Nodup := (hperm.map _).nodup_iff.1 hnames
  obtain ⟨houtcome, hbare⟩ := complete_of_resolve hfresh hnames h
  refine (resolve_ofModels_iff houtcome hfresh' hnames' (hbare ▸ hperm.symm)).1.2 ?_
  rintro id source ⟨-, m, n, f, g, hm, hn, hf, -, p, hp, c, hc, hcname, hmark⟩
  obtain ⟨hnmem, hnname⟩ := (lookup_eq_ok_iff houtcome.coherent.sound.nodup_names).1 hn
  have hmbare : m.bare ∈ models := by
    have hmem : m.bare ∈ (ofModels models').models.map Model.bare :=
      List.mem_map_of_mem (mem_of_get? hm)
    rw [map_bare_ofModels hfresh' hnames'] at hmem
    exact hperm.mem_iff.2 hmem
  have hnbare : n.bare ∈ models := hbare ▸ List.mem_map_of_mem hnmem
  have hsame : m.bare = n.bare := List.inj_on_of_nodup_map hnames hmbare hnbare hnname.symm
  -- the declared column of the name is the only one of the name
  obtain ⟨d, hd, hdname⟩ := hdeclared m.bare hmbare f.bare
    (List.mem_map_of_mem (List.mem_of_getElem? hf)) p hp
  rw [hsame] at hd
  obtain ⟨d', hd', rfl⟩ := List.mem_map.1 hd
  have hlaid := houtcome.coherent.sound.laid n hnmem
  have hd'c : d' = c := hlaid.column_inj (hlaid.mem_columns_iff.2 (.inl hd')) hc
    (hdname.trans hcname.symm)
  have hunmarked := Model.not_isMarkedBy_of_mem_declaredColumns hd' g.field
  rw [hd'c, hmark] at hunmarked
  cases hunmarked

/-- Models that resolve when registered in one order resolve in another exactly if every place
borrows from places before it in the schedule of that order.  If they do not, the resolution reports
a local column that is missing. -/
theorem resolve_perm_iff (hfresh : ∀ m ∈ models, m.Fresh)
    (hnames : (models.map (·.name)).Nodup) (hperm : models.Perm models')
    (h : ((ofModels models).resolve separator).result = .ok outcome) :
    ((∃ r, ((ofModels models').resolve separator).result = .ok r) ↔
      LendsInTime outcome (ofModels models') (ofModels models').schedule) ∧
    ∀ failure, ((ofModels models').resolve separator).result = .error failure →
      ∃ e, ReportsMissingSource e ∧ failure = .error e := by
  have hfresh' : ∀ m ∈ models', m.Fresh := fun m hm => hfresh m (hperm.mem_iff.2 hm)
  have hnames' : (models'.map (·.name)).Nodup := (hperm.map _).nodup_iff.1 hnames
  obtain ⟨houtcome, hbare⟩ := complete_of_resolve hfresh hnames h
  exact resolve_ofModels_iff houtcome hfresh' hnames' (hbare ▸ hperm.symm)

/-- With the country last the person is resolved before the city, and borrows from its home too
early. -/
theorem resolve_perm_country_last :
    ∃ outcome, ((ofModels [country, city, person]).resolve "_").result = .ok outcome ∧
      ¬LendsInTime outcome (ofModels [person, city, country])
        (ofModels [person, city, country]).schedule := by
  have hresolve : ∃ outcome,
      ((ofModels [country, city, person]).resolve "_").result = .ok outcome := ⟨_, rfl⟩
  obtain ⟨outcome, houtcome⟩ := hresolve
  have hrefused : ¬∃ r, ((ofModels [person, city, country]).resolve "_").result = .ok r := by
    rintro ⟨r, hr⟩
    cases hr
  have hiff := (resolve_perm_iff fresh_country_city_person (by decide)
    (List.reverse_perm [country, city, person]).symm houtcome).1
  exact ⟨outcome, houtcome, fun hlends => hrefused (hiff.2 hlends)⟩

/-- So the order of registration can decide whether models resolve. -/
theorem exists_order_that_fails :
    ¬∀ (models models' : List Model) (separator : String), (∀ m ∈ models, m.Fresh) →
      (models.map (·.name)).Nodup → models.Perm models' →
        ((∃ r, ((ofModels models).resolve separator).result = .ok r) ↔
          ∃ r, ((ofModels models').resolve separator).result = .ok r) := by
  intro hall
  have hiff := hall [country, city, person] [person, city, country] "_" fresh_country_city_person
    (by decide) (List.reverse_perm [country, city, person]).symm
  obtain ⟨r, hr⟩ := hiff.1 ⟨_, rfl⟩
  cases hr

end Registry

end RelSchema
