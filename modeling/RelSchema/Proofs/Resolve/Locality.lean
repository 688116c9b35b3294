import RelSchema.Proofs.Registry.ColumnLayout
import RelSchema.Proofs.Resolve.KeyGraph
import RelSchema.Proofs.Resolve.Staleness

/-!
# What a replacement reaches

Replacing a model can make resolutions stale, and dropping these can change further keys.  All of it
keeps to references that name the replaced model or a model whose key depends on it, so that a model
without such references stays as it is.
-/

namespace RelSchema

namespace Registry

open Relation (ReflTransGen)

variable {separator : String} {names : Set String} {r s next : Registry} {id : ReferenceId}

/-! ## 1. Models that steps leave alone -/

/-- A step changes no model that has all its references resolved. -/
theorem Step.get?_eq_of_isResolved (h : Step separator r id next) {i : ModelId} {m : Model}
    (hm : r.get? i = some m) (hres : ∀ f ∈ m.references, f.isResolved) :
    next.get? i = some m := by
  obtain @⟨owner, target, settled, f, resolution, howner, hf, hopen, -, -, -, -⟩ := h
  have hother : id.model ≠ i := by
    rintro rfl
    obtain rfl := Option.some.inj (howner.symm.trans hm)
    have hclosed := hres f (List.mem_of_getElem? hf)
    simp [Reference.isResolved, hopen] at hclosed
  rw [get?_modify, if_neg hother, hm]

theorem Steps.get?_eq_of_isResolved (h : Steps separator r s) {i : ModelId} {m : Model}
    (hm : r.get? i = some m) (hres : ∀ f ∈ m.references, f.isResolved) : s.get? i = some m := by
  induction h with
  | refl => exact hm
  | tail _ hstep ih => exact hstep.choose_spec.get?_eq_of_isResolved ih hres

/-! ## 2. Drops within a set of models -/

/-- A key reference leads into the set only from a model of the set. -/
def KeyClosed (r : Registry) (names : Set String) : Prop :=
  ∀ a b, r.KeyEdge a b → b ∈ names → a ∈ names

/-- On the way from `r` to `s` only references that name models of the set have lost their
resolutions. -/
structure DropsWithin (names : Set String) (r s : Registry) : Prop where
  sound : s.Sound
  map_bare_eq : s.models.map Model.bare = r.models.map Model.bare
  reference?_eq : ∀ id f, r.reference? id = some f → f.target ∉ names → s.reference? id = some f
  get?_eq : ∀ i m, r.get? i = some m → (∀ f ∈ m.references, f.target ∉ names) →
    s.get? i = some m

namespace DropsWithin

theorem refl (hr : r.Sound) : DropsWithin names r r :=
  ⟨hr, rfl, fun _ _ hf _ => hf, fun _ _ hm _ => hm⟩

theorem drop (h : DropsWithin names r s)
    (hid : ∀ f, r.reference? id = some f → f.target ∈ names) :
    DropsWithin names r (s.drop id) := by
  refine ⟨h.sound.drop id, (map_drop bare_of_drop s id).trans h.map_bare_eq,
    fun id' f hf hout => ?_, fun i m hm hout => ?_⟩
  · have hother : id' ≠ id := by
      rintro rfl
      exact hout (hid f hf)
    rw [reference?_drop, if_neg hother, h.reference?_eq id' f hf hout]
  · have hkept := h.get?_eq i m hm hout
    cases hf : s.reference? id with
    | none => rwa [Registry.drop, hf]
    | some f =>
      -- the model has no reference that could be the dropped one
      have hother : id.model ≠ i := by
        rintro rfl
        obtain ⟨n, hn, hfn⟩ := reference?_eq_some_iff.1 hf
        obtain rfl := Option.some.inj (hkept.symm.trans hn)
        have hbefore : r.reference? id = some f := reference?_eq_some_iff.2 ⟨m, hm, hfn⟩
        exact hout f (List.mem_of_getElem? hfn) (hid f hbefore)
      rw [drop_eq_modify hf, get?_modify, if_neg hother, hkept]

section Closed

variable (hr : r.Sound) (hclosed : r.KeyClosed names)
include hr hclosed

/-- The key of a model outside of the set stays. -/
theorem keyShape_eq (h : DropsWithin names r s) {i : ModelId} {m n : Model}
    (hm : r.get? i = some m) (hn : s.get? i = some n) (hname : m.name ∉ names) :
    m.keyShape = n.keyShape := by
  have hnLaid := h.sound.laid n (mem_of_get? hn)
  obtain ⟨n', hn', hbare⟩ := exists_get?_of_map_bare_eq h.map_bare_eq.symm hm
  obtain rfl := Option.some.inj (hn.symm.trans hn')
  refine Model.keyShape_eq_of_bare_eq (hr.laid m (mem_of_get? hm)) hnLaid hbare
    fun f hf g hg hfg hkey _ => ?_
  -- a key reference of such a model leads out of the set, so that it is kept
  have hout : f.target ∉ names := fun hin =>
    hname (hclosed m.name f.target ⟨m, mem_of_get? hm, rfl, f, hf, hkey, rfl⟩ hin)
  obtain ⟨j, hj⟩ := List.getElem?_of_mem hf
  have hkept := h.reference?_eq ⟨i, j⟩ f (reference?_eq_some_iff.2 ⟨m, hm, hj⟩) hout
  obtain ⟨n', hn', hfn⟩ := reference?_eq_some_iff.1 hkept
  obtain rfl := Option.some.inj (hn.symm.trans hn')
  rw [hnLaid.reference_inj (List.mem_of_getElem? hfn) hg
    (Reference.congr_of_bare_eq hfg (·.field))]

/-- So a reference that leads out of the set goes stale no more than before. -/
theorem isStale_eq (h : DropsWithin names r s) {f : Reference} (hf : r.reference? id = some f)
    (hout : f.target ∉ names) : s.isStale f = r.isStale f := by
  cases hres : f.resolution with
  | none => simp [isStale, hres]
  | some resolution =>
    obtain ⟨m, hm, hfm⟩ := reference?_eq_some_iff.1 hf
    obtain ⟨n, hn, hfn⟩ := reference?_eq_some_iff.1 (h.reference?_eq id f hf hout)
    have hfmem := List.mem_of_getElem? hfm
    obtain ⟨t, ht, htname⟩ := hr.exists_target (mem_of_get? hm) hfmem hres
    obtain ⟨u, hu, -⟩ := exists_get?_of_map_bare_eq h.map_bare_eq.symm ht
    have hkey := h.keyShape_eq hr hclosed ht hu (htname ▸ hout)
    rw [Bool.eq_iff_iff, hr.isStale_iff (mem_of_get? hm) hfmem hres ht,
      h.sound.isStale_iff (mem_of_get? hn) (List.mem_of_getElem? hfn) hres hu, hkey]

variable (hstale : ∀ id f, r.reference? id = some f → f.target ∉ names → r.isStale f = false)
include hstale

theorem dropRound (h : DropsWithin names r s) : DropsWithin names r s.dropRound := by
  refine List.foldlRecOn (motive := DropsWithin names r) s.staleReferences Registry.drop h
    fun u hu id hid => hu.drop fun f hf => ?_
  by_contra hout
  obtain ⟨g, hg, hgstale⟩ := mem_referencesWhere.1 hid
  obtain rfl := Option.some.inj ((h.reference?_eq id f hf hout).symm.trans hg)
  rw [h.isStale_eq hr hclosed hf hout, hstale id f hf hout] at hgstale
  cases hgstale

theorem dropRounds (h : DropsWithin names r s) (rounds : Nat) :
    DropsWithin names r (Registry.dropRounds rounds s) := by
  induction rounds generalizing s with
  | zero => exact h
  | succ rounds ih => exact ih (h.dropRound hr hclosed hstale)

theorem withoutStale : DropsWithin names r r.withoutStale :=
  (refl hr).dropRounds hr hclosed hstale _

end Closed

end DropsWithin

/-- A model outlasts a resolution as it is when all its references are resolved, and when they lead
out of a set of models in which all that is stale stays. -/
theorem get?_eq_of_resolve (hr : r.Sound) (hclosed : r.KeyClosed names)
    (hstale : ∀ id f, r.reference? id = some f → f.target ∉ names → r.isStale f = false)
    (h : (r.resolve separator).result = .ok s) {i : ModelId} {m : Model} (hm : r.get? i = some m)
    (hres : ∀ f ∈ m.references, f.isResolved) (hout : ∀ f ∈ m.references, f.target ∉ names) :
    s.get? i = some m := by
  have hkept := (DropsWithin.withoutStale hr hclosed hstale).get?_eq i m hm hout
  exact (steps_of_resolve hr h).1.get?_eq_of_isResolved hkept hres

/-! ## 3. Models that depend on a key -/

/-- The models whose keys depend on the key of the model of the name, and that model itself. -/
def dependents (r : Registry) (name : String) : Set String :=
  {a | ReflTransGen r.KeyEdge a name}

theorem keyClosed_dependents (r : Registry) (name : String) : r.KeyClosed (r.dependents name) :=
  fun _ _ hab hb => ReflTransGen.head hab hb

/-- A way to a place takes no edge that starts at the place. -/
theorem reflTransGen_of_forall_ne {α : Type} {E F : α → α → Prop} {c : α}
    (h : ∀ a b, a ≠ c → E a b → F a b) {a : α} (hac : ReflTransGen E a c) :
    ReflTransGen F a c := by
  induction hac using ReflTransGen.head_induction_on with
  | refl => exact .refl
  | @head a b hab _ ih =>
    by_cases ha : a = c
    · exact ha ▸ .refl
    · exact ih.head (h a b ha hab)

variable {t : Model} {i : ModelId}

theorem keyEdge_replace_iff (hr : r.Sound) (hi : r.idOf t.name = some i) {a b : String}
    (ha : a ≠ t.name) :
    (r.modify i fun _ => { t with id := some i }).KeyEdge a b ↔ r.KeyEdge a b := by
  constructor
  · rintro ⟨m, hm, rfl, hedge⟩
    rcases (mem_replace_iff hr.nodup_names hi).1 hm with rfl | ⟨hm, -⟩
    · exact absurd rfl ha
    · exact ⟨m, hm, rfl, hedge⟩
  · rintro ⟨m, hm, rfl, hedge⟩
    exact ⟨m, (mem_replace_iff hr.nodup_names hi).2 (.inr ⟨hm, ha⟩), rfl, hedge⟩

/-- What depends on a model does not depend on how the model is declared. -/
theorem dependents_replace (hr : r.Sound) (hi : r.idOf t.name = some i) :
    (r.modify i fun _ => { t with id := some i }).dependents t.name = r.dependents t.name := by
  ext a
  exact ⟨reflTransGen_of_forall_ne fun _ _ ha => (keyEdge_replace_iff hr hi ha).1,
    reflTransGen_of_forall_ne fun _ _ ha => (keyEdge_replace_iff hr hi ha).2⟩

/-! ## 4. Replacement -/

/-- The new model has nothing resolved, and to others only it is different. -/
theorem isStale_replace_eq_false (hr : r.Sound) (ht : t.Fresh) (hi : r.idOf t.name = some i)
    (hsettled : ∀ m ∈ r.models, ∀ f ∈ m.references, r.isStale f = false) {f : Reference}
    (hf : (r.modify i fun _ => { t with id := some i }).reference? id = some f)
    (hout : f.target ≠ t.name) :
    (r.modify i fun _ => { t with id := some i }).isStale f = false := by
  cases hres : f.resolution with
  | none => simp [isStale, hres]
  | some resolution =>
    obtain ⟨m, hm, hfm⟩ := reference?_eq_some_iff.1 hf
    have hfmem := List.mem_of_getElem? hfm
    rcases (mem_replace_iff hr.nodup_names hi).1 (mem_of_get? hm) with rfl | ⟨hm, -⟩
    · simp [ht.resolution_eq_none f hfmem] at hres
    · obtain ⟨old, hold, holdName⟩ := (idOf_eq_some_iff hr.nodup_names).1 hi
      obtain ⟨u, hu, huName⟩ := hr.exists_target hm hfmem hres
      have hother : i ≠ resolution.target := by
        rintro rfl
        obtain rfl := Option.some.inj (hold.symm.trans hu)
        exact hout (huName.symm.trans holdName)
      rw [← hsettled m hm f hfmem]
      simp only [isStale, hres, get?_modify, if_neg hother]

/-- After a replacement in a registry in which nothing is open or stale, a resolution changes only
the model itself and the models with references to it or to a model whose key depends on it. -/
theorem model_kept_of_replace {operations : List Operation}
    (hfresh : ∀ o ∈ operations, o.Fresh)
    (hsettled : ∀ m ∈ (after operations).models, ∀ f ∈ m.references,
      f.isResolved ∧ (after operations).isStale f = false)
    (ht : t.Fresh) {replaced : Registry}
    (hreplace : ((after operations).replace t).result = .ok (replaced, i))
    (hresolve : (replaced.resolve separator).result = .ok s) :
    s.dependents t.name = (after operations).dependents t.name ∧
      (∀ name, s.idOf name = (after operations).idOf name) ∧
      ∀ j m, (after operations).get? j = some m → m.name ≠ t.name →
        (∀ f ∈ m.references, f.target ∉ (after operations).dependents t.name) →
        s.get? j = some m := by
  have hr := sound_after hfresh
  have hfreshReplace : (Operation.replace t).Fresh := ht
  have hreplaced := hr.perform hfreshReplace
  obtain ⟨hi, rfl⟩ := replace_eq_ok_iff.1 hreplace
  rw [perform_replace hi] at hreplaced
  obtain ⟨old, hold, hname⟩ := (idOf_eq_some_iff hr.nodup_names).1 hi
  have hdependents := dependents_replace hr hi
  have hbare := map_bare_of_resolve hreplaced hresolve
  refine ⟨?_, fun name => ?_, fun j m hm hne hout => ?_⟩
  · rw [← hdependents, dependents, keyEdge_congr hbare, dependents]
  · rw [idOf_congr (map_name_eq_of_map_bare_eq hbare), idOf_congr (map_modify hold hname.symm)]
  · have hmem := mem_of_get? hm
    have hother : i ≠ j := by
      rintro rfl
      exact hne (Option.some.inj (hold.symm.trans hm) ▸ hname)
    refine get?_eq_of_resolve hreplaced (hdependents ▸ keyClosed_dependents _ t.name)
      (fun id f hf hleads => ?_) hresolve ?_ (fun f hf => (hsettled m hmem f hf).1) hout
    · refine isStale_replace_eq_false hr ht hi (fun m hm f hf => (hsettled m hm f hf).2) hf ?_
      exact fun heq => hleads (heq ▸ ReflTransGen.refl)
    · rw [get?_modify, if_neg hother, hm]

/-! ## 5. A badge of a visitor -/

/-- The badge refers to a visitor, and no city is part of the key of a visitor. -/
def badge : Model :=
  Model.ofFields "Badge" [
    .column { name := "number", type := .integer, primaryKey := true },
    .reference { field := "owner", target := "Visitor" }]

def badgeIssued : List Operation :=
  [.register country, .register city, .register visitor, .register badge, .resolve "_"]

def countryOfNumber : Model :=
  Model.ofFields "Country" [.column { name := "number", type := .integer, primaryKey := true }]

theorem fresh_badgeIssued : ∀ o ∈ badgeIssued, o.Fresh := by
  simp only [badgeIssued, List.forall_mem_cons, List.not_mem_nil, false_imp_iff, implies_true,
    and_true]
  exact ⟨Model.fresh_ofFields _ _ (by decide), Model.fresh_ofFields _ _ (by decide),
    Model.fresh_ofFields _ _ (by decide), Model.fresh_ofFields _ _ (by decide), trivial⟩

/-- The new country reaches the visitor by way of the city, and the badge not at all. -/
theorem model_kept_badge :
    ∃ replaced s m, ((after badgeIssued).replace countryOfNumber).result = .ok (replaced, 0) ∧
      (replaced.resolve ".").result = .ok s ∧ s.get? 2 ≠ (after badgeIssued).get? 2 ∧
      (after badgeIssued).get? 3 = some m ∧ m.columns.map (·.name) = ["number", "owner_id"] ∧
      s.get? 3 = some m := by
  have hresolve : ∃ replaced s m,
      ((after badgeIssued).replace countryOfNumber).result = .ok (replaced, 0) ∧
      (replaced.resolve ".").result = .ok s ∧ s.get? 2 ≠ (after badgeIssued).get? 2 ∧
      (after badgeIssued).get? 3 = some m ∧ m.columns.map (·.name) = ["number", "owner_id"] ∧
      m.name = "Badge" ∧ ∀ f ∈ m.references, f.target = "Visitor" :=
    ⟨_, _, _, rfl, rfl, by decide, rfl, rfl, rfl, by decide⟩
  obtain ⟨replaced, s, m, hreplace, hs, hvisitor, hm, hcolumns, hname, htargets⟩ := hresolve
  have hsettled : ∀ m ∈ (after badgeIssued).models, ∀ f ∈ m.references,
      f.isResolved ∧ (after badgeIssued).isStale f = false := by decide
  have hcountry : countryOfNumber.Fresh := Model.fresh_ofFields _ _ (by decide)
  -- no key reference starts at the visitor
  have hkeyless : ∀ m ∈ (after badgeIssued).models, m.name = "Visitor" →
      ∀ f ∈ m.references, ¬f.primaryKey := by decide
  have hout : "Visitor" ∉ (after badgeIssued).dependents "Country" := by
    intro hdepends
    rcases Relation.ReflTransGen.cases_head hdepends with
      heq | ⟨-, ⟨m, hm, hname, f, hf, hkey, -⟩, -⟩
    · exact absurd heq (by decide)
    · exact hkeyless m hm hname f hf hkey
  obtain ⟨-, -, hkept⟩ :=
    model_kept_of_replace fresh_badgeIssued hsettled hcountry hreplace hs
  refine ⟨replaced, s, m, hreplace, hs, hvisitor, hm, hcolumns, hkept 3 m hm ?_ ?_⟩
  · rw [hname]
    decide
  · intro f hf
    rw [htargets f hf]
    exact hout

end Registry

end RelSchema
