import RelSchema.Proofs.Resolve.KeyGraph
import RelSchema.Proofs.Resolve.Staleness

/-!
# Cycles that a resolution accepts

A reference that is resolved waits for nothing any more.  So a resolution refuses a cycle of key
references that it has to resolve, but not one that closes through a reference that it keeps.  Those
are all the cycles that it accepts.
-/

namespace RelSchema

namespace Registry

open Relation (TransGen ReflTransGen)

/-! ## 1. Kinds of key references -/

/-- A key reference that is resolved leads from the one model to the other. -/
def KeptKeyEdge (r : Registry) (a b : String) : Prop :=
  ∃ m ∈ r.models, m.name = a ∧ ∃ f ∈ m.references, f.primaryKey ∧ f.target = b ∧ f.isResolved

/-- A key reference is resolved while the key of its target is not final. -/
def EarlyKeyEdge (r : Registry) (a b : String) : Prop :=
  ∃ m ∈ r.models, m.name = a ∧ ∃ f ∈ m.references, f.primaryKey ∧ f.target = b ∧ f.isResolved ∧
    ∃ t ∈ r.models, t.name = b ∧ t.isKeyFinal = false

instance (r : Registry) (a b : String) : Decidable (r.EarlyKeyEdge a b) :=
  inferInstanceAs (Decidable (∃ m ∈ r.models, m.name = a ∧ ∃ f ∈ m.references,
    f.primaryKey ∧ f.target = b ∧ f.isResolved ∧ ∃ t ∈ r.models, t.name = b ∧
      t.isKeyFinal = false))

/-- A key reference is open, or the key of its target is final. -/
def FirmKeyEdge (r : Registry) (a b : String) : Prop :=
  ∃ m ∈ r.models, m.name = a ∧ ∃ f ∈ m.references, f.primaryKey ∧ f.target = b ∧
    (f.isResolved → ∀ t ∈ r.models, t.name = b → t.isKeyFinal)

variable {separator : String} {r u s : Registry} {a b : String} {m : Model}

theorem KeptKeyEdge.keyEdge (h : r.KeptKeyEdge a b) : r.KeyEdge a b := by
  obtain ⟨m, hm, hname, f, hf, hkey, htarget, -⟩ := h
  exact ⟨m, hm, hname, f, hf, hkey, htarget⟩

theorem EarlyKeyEdge.keyEdge (h : r.EarlyKeyEdge a b) : r.KeyEdge a b := by
  obtain ⟨m, hm, hname, f, hf, hkey, htarget, -⟩ := h
  exact ⟨m, hm, hname, f, hf, hkey, htarget⟩

theorem KeyEdge.early_of_not_firm (h : r.KeyEdge a b) (hnot : ¬r.FirmKeyEdge a b) :
    r.EarlyKeyEdge a b := by
  obtain ⟨m, hm, hname, f, hf, hkey, htarget⟩ := h
  have hcondition : ¬(f.isResolved → ∀ t ∈ r.models, t.name = b → t.isKeyFinal) :=
    fun hfirm => hnot ⟨m, hm, hname, f, hf, hkey, htarget, hfirm⟩
  simp only [Classical.not_imp, not_forall, Bool.not_eq_true] at hcondition
  obtain ⟨hres, t, ht, htname, hopen⟩ := hcondition
  exact ⟨m, hm, hname, f, hf, hkey, htarget, hres, t, ht, htname, hopen⟩

/-! ## 2. Firm edges close no cycle -/

/-- From a final key, resolved references lead to final keys only, as long as the edges are firm. -/
theorem acc_firmKeyEdge_of_isKeyFinal (hr : r.Sound)
    (hkept : ∀ name, ¬TransGen r.KeptKeyEdge name name) (hm : m ∈ r.models)
    (hfinal : m.isKeyFinal) : Acc (flip r.FirmKeyEdge) m.name := by
  have hacc : Acc (flip r.KeptKeyEdge) m.name :=
    acc_of_acyclic r.finite_names (fun _ _ ⟨n, hn, hname, _⟩ => ⟨n, hn, hname⟩) hkept m.name
  generalize hname : m.name = name at hacc
  induction hacc generalizing m with
  | intro name _ ih =>
    subst hname
    refine .intro _ fun b hb => ?_
    obtain ⟨m', hm', hname, f, hf, hkey, rfl, hfirm⟩ := hb
    obtain rfl := hr.model_inj hm' hm hname
    have hres := Model.isKeyFinal_iff.1 hfinal f hf hkey
    obtain ⟨resolution, hresolution⟩ := Reference.isResolved_iff.1 hres
    obtain ⟨t, ht, htname⟩ := hr.exists_target hm hf hresolution
    have htmem := mem_of_get? ht
    exact ih f.target ⟨m', hm, rfl, f, hf, hkey, rfl, hres⟩ htmem (hfirm hres t htmem htname)
      htname

/-- What the steps from `r` to `u` have resolved names models from which firm edges lead nowhere in
the end. -/
def RestsFirmly (r u : Registry) : Prop :=
  ∀ id g, u.reference? id = some g → g.isResolved →
    r.reference? id = some g ∨ Acc (flip r.FirmKeyEdge) g.target

/-- A key that the steps have made final is one from which firm edges lead nowhere in the end. -/
theorem RestsFirmly.acc_of_isKeyFinal (h : RestsFirmly r u) (hr : r.Sound)
    (hbare : r.models.map Model.bare = u.models.map Model.bare)
    (hkept : ∀ name, ¬TransGen r.KeptKeyEdge name name) (hm : m ∈ u.models)
    (hfinal : m.isKeyFinal) : Acc (flip r.FirmKeyEdge) m.name := by
  refine .intro _ fun b hb => ?_
  obtain ⟨n, hn, hname, f, hf, hkey, rfl, hfirm⟩ := hb
  -- the edge starts at the model as it was before the steps
  obtain ⟨i, hi⟩ := exists_get?_of_mem hm
  obtain ⟨n', hn', hmn⟩ := exists_get?_of_map_bare_eq hbare.symm hi
  obtain rfl := hr.model_inj (mem_of_get? hn') hn
    ((Model.name_eq_of_bare_eq hmn).symm.trans hname.symm)
  obtain ⟨j, hj⟩ := List.getElem?_of_mem hf
  obtain ⟨g, hgj, hgf⟩ := Model.exists_reference?_of_bare_eq hmn.symm hj
  have hfat : r.reference? ⟨i, j⟩ = some f := reference?_eq_some_iff.2 ⟨n', hn', hj⟩
  have hgat : u.reference? ⟨i, j⟩ = some g := reference?_eq_some_iff.2 ⟨m, hi, hgj⟩
  have hgkey : g.primaryKey := by
    rw [Reference.congr_of_bare_eq hgf (·.primaryKey)]
    exact hkey
  have hres := Model.isKeyFinal_iff.1 hfinal g (List.mem_of_getElem? hgj) hgkey
  rcases h ⟨i, j⟩ g hgat hres with hbefore | hacc
  · obtain rfl := Option.some.inj (hfat.symm.trans hbefore)
    obtain ⟨resolution, hresolution⟩ := Reference.isResolved_iff.1 hres
    obtain ⟨t, ht, htname⟩ := hr.exists_target hn hf hresolution
    have htmem := mem_of_get? ht
    rw [← htname]
    exact acc_firmKeyEdge_of_isKeyFinal hr hkept htmem (hfirm hres t htmem htname)
  · rw [← Reference.congr_of_bare_eq hgf (·.target)]
    exact hacc

/-- Each step resolves a reference to a key that is final before the step. -/
theorem restsFirmly_of_steps (h : Steps separator r u) (hr : r.Sound)
    (hkept : ∀ name, ¬TransGen r.KeptKeyEdge name name) : RestsFirmly r u := by
  induction h with
  | refl => exact fun id g hg _ => .inl hg
  | @tail mid next hsteps hstep ih =>
    obtain ⟨id', hstep⟩ := hstep
    have hmid := Steps.sound hsteps hr
    intro id g hg hres
    rcases hstep.settledIn_or hmid hg hres with hbefore | ⟨-, -, -, -, -, t, ht, hname, hfinal⟩
    · exact ih id g hbefore hres
    · rw [← hname]
      exact .inr (ih.acc_of_isKeyFinal hr (Steps.growsTo hsteps hr).map_bare_eq hkept ht hfinal)

/-! ## 3. Accepted cycles -/

/-- A resolution that succeeds leaves a cycle of key references exactly if the references that it
keeps contain one, or if it keeps one that was resolved early, against a model whose key depends on
the model of the reference. -/
theorem keyAcyclic_iff_of_resolve {operations : List Operation}
    (hfresh : ∀ o ∈ operations, o.Fresh)
    (h : ((after operations).resolve separator).result = .ok s) :
    s.KeyAcyclic ↔
      (∀ name, ¬TransGen (after operations).withoutStale.KeptKeyEdge name name) ∧
        ∀ a b, (after operations).withoutStale.EarlyKeyEdge a b → ¬ReflTransGen s.KeyEdge b a := by
  have hsound := sound_after hfresh
  have hstart := hsound.withoutStale
  obtain ⟨hsteps, hopen, -⟩ := steps_of_resolve hsound h
  have hbare := (hsteps.growsTo hstart).map_bare_eq
  -- edges are declared, and the run declares nothing
  rw [KeyAcyclic, ← keyEdge_congr hbare]
  constructor
  · intro hacyclic
    refine ⟨fun name hcycle => ?_, fun a b hearly hback => ?_⟩
    · exact hacyclic name (Relation.TransGen.mono (fun _ _ hab => hab.keyEdge) name name hcycle)
    · exact hacyclic a (Relation.TransGen.head' hearly.keyEdge hback)
  · rintro ⟨hkept, hearly⟩ name hcycle
    have hrests := restsFirmly_of_steps hsteps hstart hkept
    rcases transGen_or_exists_not (F := (after operations).withoutStale.FirmKeyEdge) hcycle with
      hfirm | ⟨a, b, hto, hab, hnot, hfrom⟩
    · -- in the end every key is final, so that firm edges close no cycle
      obtain ⟨-, ⟨m, hm, rfl, -⟩, -⟩ := Relation.TransGen.head'_iff.1 hcycle
      obtain ⟨n, hn, hnm⟩ := exists_bare_eq_of_map_bare_eq hbare hm
      have hfinal : n.isKeyFinal :=
        Model.isKeyFinal_iff.2 fun f hf _ => isResolved_of_not_isOpen hopen hn hf
      rw [← Model.name_eq_of_bare_eq hnm] at hfirm
      exact not_transGen_self_of_acc (hrests.acc_of_isKeyFinal hstart hbare hkept hn hfinal) hfirm
    · exact hearly a b (hab.early_of_not_firm hnot) (hfrom.trans hto)

/-! ## 4. A country whose key comes to need its capital -/

/-- The key of the country as it is declared here depends on its capital, a city. -/
def countryOfCapital : Model :=
  Model.ofFields "Country" [
    .column { name := "code", type := .text, primaryKey := true },
    .reference { field := "capital", target := "City", primaryKey := true }]

/-- When the country is replaced, its key reads as before, so that the city keeps its resolution. -/
def countryReplaced : List Operation :=
  [.register country, .register city, .resolve "_", .replace countryOfCapital]

theorem fresh_countryReplaced : ∀ o ∈ countryReplaced, o.Fresh := by
  simp only [countryReplaced, List.forall_mem_cons, List.not_mem_nil, false_imp_iff, implies_true,
    and_true]
  exact ⟨Model.fresh_ofFields _ _ (by decide), Model.fresh_ofFields _ _ (by decide), trivial,
    Model.fresh_ofFields _ _ (by decide)⟩

/-- The city was resolved early against the country, whose key depends on the city. -/
theorem keyAcyclic_iff_countryReplaced :
    ∃ s, ((after countryReplaced).resolve "_").result = .ok s ∧ ¬s.KeyAcyclic := by
  have hresolve : ∃ s, ((after countryReplaced).resolve "_").result = .ok s ∧
      s.KeyEdge "Country" "City" := ⟨_, rfl, by decide⟩
  obtain ⟨s, hs, hback⟩ := hresolve
  have hearly : (after countryReplaced).withoutStale.EarlyKeyEdge "City" "Country" := by
    decide
  refine ⟨s, hs, fun hacyclic => ?_⟩
  exact ((keyAcyclic_iff_of_resolve fresh_countryReplaced hs).1 hacyclic).2 "City" "Country" hearly
    (.single hback)

/-- So a resolution can accept keys that depend on each other. -/
theorem exists_keyCycle_after_resolve :
    ¬∀ (operations : List Operation) (separator : String) (s : Registry),
      (∀ o ∈ operations, o.Fresh) → ((after operations).resolve separator).result = .ok s →
        s.KeyAcyclic := by
  intro hall
  have hresolve : ∃ s, ((after countryReplaced).resolve "_").result = .ok s ∧
      s.KeyEdge "Country" "City" ∧ s.KeyEdge "City" "Country" := ⟨_, rfl, by decide, by decide⟩
  obtain ⟨s, hs, hto, hback⟩ := hresolve
  exact hall countryReplaced "_" s fresh_countryReplaced hs "Country" (.tail (.single hto) hback)

end Registry

end RelSchema
