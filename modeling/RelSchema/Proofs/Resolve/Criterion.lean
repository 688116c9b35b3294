import RelSchema.Proofs.Resolve.Cycles
import RelSchema.Proofs.Resolve.Order
import RelSchema.Proofs.Resolve.Outcome

/-!
# When resolution succeeds

Models that have only been declared resolve exactly if their declarations are in order, as long as
no declared pair starts at a column that has still to be brought.
-/

namespace RelSchema

namespace Registry

variable {separator : String} {r s : Registry} {m n : Model} {f : Reference}

/-! ## 1. Sources that need no other reference -/

/-- Every declared pair starts at a declared column, or at a name that no implicit reference of the
model gives to a column. -/
def PlainSources (separator : String) (r : Registry) : Prop :=
  ∀ m ∈ r.models, ∀ f ∈ m.references, ∀ p ∈ f.declaredPairs,
    (∃ c ∈ m.declaredColumns, c.name = p.source) ∨
      ∀ g ∈ m.references, g.isImplicit → ¬∃ rest, p.source = g.field ++ separator ++ rest

/-- In a registry with nothing left to resolve, a column of that source is declared. -/
theorem PlainSources.mem_declaredColumns (hplain : r.PlainSources separator)
    (hs : s.Complete separator) (hm : m ∈ r.models) (hn : n ∈ s.models) (hbare : m.bare = n.bare)
    (hf : f ∈ m.references) {p : Pair} (hp : p ∈ f.declaredPairs) {c : Column}
    (hc : c ∈ n.columns) (hname : c.name = p.source) : c ∈ n.declaredColumns := by
  have hlaid := hs.coherent.sound.laid n hn
  rcases hplain m hm f hf p hp with ⟨d, hd, hdname⟩ | hforeign
  · obtain ⟨e, he, hed⟩ := Model.exists_declaredColumn_of_bare_eq hbare hd
    have hsame : e.name = c.name :=
      (Column.congr_of_bare_eq hed (·.name)).trans (hdname.trans hname.symm)
    rw [← hlaid.column_inj (hlaid.mem_columns_iff.2 (.inl he)) hc hsame]
    exact he
  · -- a column that is not declared would have the name that its reference gives to it
    rcases hlaid.mem_columns_iff.1 hc with hdeclared | ⟨g, hg, hbrought⟩
    · exact hdeclared
    · obtain ⟨g', hg', hg'g⟩ := Model.exists_reference_of_bare_eq hbare.symm hg
      have himplicit := Reference.isImplicit_of_mem_broughtColumns hbrought
      obtain ⟨resolution, hres⟩ := Reference.isResolved_iff.1 (hs.isResolved n hn g hg)
      rw [Reference.broughtColumns_of_implicit himplicit hres
        (hs.usesSeparator n hn g hg resolution hres himplicit)] at hbrought
      obtain ⟨k, -, rfl⟩ := List.mem_map.1 hbrought
      have hsource : p.source = g'.field ++ separator ++ k.name := by
        rw [← hname, Reference.congr_of_bare_eq hg'g (·.field)]
        rfl
      have himplicit' : g'.isImplicit := by
        rw [Reference.congr_of_bare_eq hg'g (·.isImplicit)]
        exact himplicit
      exact absurd ⟨k.name, hsource⟩ (hforeign g' hg' himplicit')

/-- Nothing is borrowed. -/
theorem PlainSources.lendsInTime (hplain : r.PlainSources separator) (hs : s.Complete separator)
    (hbare : r.models.map Model.bare = s.models.map Model.bare) (order : List ReferenceId) :
    LendsInTime s r order := by
  rintro id source ⟨-, m, n, f, g, hm, hn, hf, -, p, hp, c, hc, hcname, hmark⟩
  obtain ⟨hnmem, hnname⟩ := (lookup_eq_ok_iff hs.coherent.sound.nodup_names).1 hn
  have hmem := mem_of_get? hm
  obtain ⟨n', hn', hn'm⟩ := exists_bare_eq_of_map_bare_eq hbare hmem
  obtain rfl := hs.coherent.sound.model_inj hn' hnmem
    ((Model.name_eq_of_bare_eq hn'm).trans hnname.symm)
  have hdeclared := hplain.mem_declaredColumns hs hmem hn' hn'm.symm (List.mem_of_getElem? hf) hp
    hc hcname
  rw [Model.not_isMarkedBy_of_mem_declaredColumns hdeclared g.field] at hmark
  cases hmark

/-! ## 2. Keys of a registry with nothing left to resolve -/

/-- The key of the model of the name. -/
def keyOf (r : Registry) (name : String) : PrimaryKey :=
  match r.lookup name with
  | .ok m => m.keyShape
  | .error _ => []

theorem keyOf_eq (hnames : (r.models.map (·.name)).Nodup) (hm : m ∈ r.models) :
    r.keyOf m.name = m.keyShape := by
  rw [keyOf, (lookup_eq_ok_iff hnames).2 ⟨hm, rfl⟩]

namespace Complete

variable (hs : s.Complete separator)
include hs

/-- An implicit reference has brought one column per key column of its target. -/
theorem broughtColumns_eq (hn : n ∈ s.models) (hf : f ∈ n.references) (himplicit : f.isImplicit) :
    f.broughtColumns = f.columnsFor separator (s.keyOf f.target) := by
  obtain ⟨resolution, hres⟩ := Reference.isResolved_iff.1 (hs.isResolved n hn f hf)
  have hsettled := hs.coherent.settled n hn f hf resolution hres
  obtain ⟨t, ht, hname, -, hkey⟩ := hsettled.exists_named_target hs.coherent.sound hn hf
  rw [Reference.broughtColumns_of_implicit himplicit hres
    (hs.usesSeparator n hn f hf resolution hres himplicit), ← hname,
    keyOf_eq hs.coherent.sound.nodup_names (mem_of_get? ht), hkey]

theorem grounded : ∀ n ∈ s.models, s.Grounded n.name :=
  fun n hn => hs.coherent.grounded n hn
    (Model.isKeyFinal_iff.2 fun f hf _ => hs.isResolved n hn f hf)

/-- The keys are the expected ones. -/
theorem keyOf_eq_expectedKey (hbare : r.models.map Model.bare = s.models.map Model.bare)
    (hm : m ∈ r.models) : s.keyOf m.name = r.expectedKey separator m.name := by
  have hnames := map_name_eq_of_map_bare_eq hbare
  have hrnames : (r.models.map (·.name)).Nodup := hnames ▸ hs.coherent.sound.nodup_names
  have hgrounded : ∀ m ∈ r.models, r.Grounded m.name := fun m hm => by
    obtain ⟨n, hn, hnm⟩ := exists_bare_eq_of_map_bare_eq hbare hm
    rw [← Model.name_eq_of_bare_eq hnm]
    exact (hs.grounded n hn).mono fun n hn => exists_bare_eq_of_map_bare_eq hbare.symm hn
  refine (hgrounded m hm).eq_expectedKey hrnames ((forall_grounded_iff hrnames).1 hgrounded).2 ?_
  -- the keys of the registry solve the equations of the expected keys
  intro m hm
  obtain ⟨n, hn, hnm⟩ := exists_bare_eq_of_map_bare_eq hbare hm
  rw [← Model.mergedKey_eq_of_bare_eq hnm, ← Model.name_eq_of_bare_eq hnm,
    keyOf_eq hs.coherent.sound.nodup_names hn]
  exact (hs.coherent.sound.laid n hn).keyShape_eq_mergedKey fun f hf _ himplicit =>
    hs.broughtColumns_eq hn hf himplicit

section Declared

variable (hbare : r.models.map Model.bare = s.models.map Model.bare)
include hbare

theorem keyShape_eq_expectedKey (hm : m ∈ r.models) (hn : n ∈ s.models) (hname : n.name = m.name) :
    n.keyShape = r.expectedKey separator m.name := by
  rw [← hs.keyOf_eq_expectedKey hbare hm, ← hname, keyOf_eq hs.coherent.sound.nodup_names hn]

/-- In the end every reference is settled, against the expected key of its target. -/
theorem exists_settled (hn : n ∈ s.models) (hnm : n.bare = m.bare) (hf : f ∈ m.references) :
    ∃ g ∈ n.references, g.bare = f.bare ∧ r.contains f.target ∧ ∃ resolution,
      g.SettledIn s n resolution ∧ resolution.key = r.expectedKey separator f.target := by
  have hsound := hs.coherent.sound
  obtain ⟨g, hg, hgf⟩ := Model.exists_reference_of_bare_eq hnm.symm hf
  obtain ⟨resolution, hres⟩ := Reference.isResolved_iff.1 (hs.isResolved n hn g hg)
  have hsettled := hs.coherent.settled n hn g hg resolution hres
  obtain ⟨u, hu, huname, -, hkey⟩ := hsettled.exists_named_target hsound hn hg
  obtain ⟨t, ht, htu⟩ := exists_bare_eq_of_map_bare_eq hbare.symm (mem_of_get? hu)
  have htname : t.name = f.target := by
    rw [Model.name_eq_of_bare_eq htu, huname, Reference.congr_of_bare_eq hgf (·.target)]
  refine ⟨g, hg, hgf, contains_iff.2 ⟨t, ht, htname⟩, resolution, hsettled, ?_⟩
  rw [← hkey, ← htname]
  exact hs.keyShape_eq_expectedKey hbare ht (mem_of_get? hu) (Model.name_eq_of_bare_eq htu).symm

theorem contains_target (hm : m ∈ r.models) (hf : f ∈ m.references) : r.contains f.target := by
  obtain ⟨n, hn, hnm⟩ := exists_bare_eq_of_map_bare_eq hbare hm
  obtain ⟨-, -, -, htarget, -⟩ := hs.exists_settled hbare hn hnm hf
  exact htarget

theorem nodup_names_expectedKey (hr : r.Fresh) (hm : m ∈ r.models) :
    (m.names ++ m.sourceNames separator (r.expectedKey separator)).Nodup := by
  obtain ⟨n, hn, hnm⟩ := exists_bare_eq_of_map_bare_eq hbare hm
  have hlaid := hs.coherent.sound.laid n hn
  have hperm := Model.names_perm hlaid.columns_eq fun f hf himplicit =>
    hs.broughtColumns_eq hn hf himplicit
  have hsources : n.sourceNames separator s.keyOf =
      m.sourceNames separator (r.expectedKey separator) := by
    rw [Model.sourceNames_eq_of_bare_eq hnm]
    apply List.flatMap_congr
    intro f hf
    obtain ⟨t, ht, htname⟩ := contains_iff.1 (hs.contains_target hbare hm hf)
    rw [← htname, hs.keyOf_eq_expectedKey hbare ht]
  rw [hnm, hr.names_bare hm, hsources] at hperm
  exact hperm.nodup_iff.1 hlaid.nodup_names

/-- The source that fits in the end is declared, so that it fits from the start. -/
theorem matches_expectedKey (hr : r.Fresh) (hplain : r.PlainSources separator) (hm : m ∈ r.models)
    (hf : f ∈ m.references) (hexplicit : f.isImplicit = false) :
    f.Matches m (r.expectedKey separator f.target) := by
  obtain ⟨n, hn, hnm⟩ := exists_bare_eq_of_map_bare_eq hbare hm
  obtain ⟨g, hg, hgf, -, resolution, hsettled, hkey⟩ := hs.exists_settled hbare hn hnm hf
  have hgexplicit : g.isImplicit = false := by
    rw [Reference.congr_of_bare_eq hgf (·.isImplicit)]
    exact hexplicit
  have hpairs : g.declaredPairs = f.declaredPairs :=
    Reference.congr_of_bare_eq hgf (·.declaredPairs)
  obtain ⟨hfits, hsources, htargets⟩ := (hsettled.matches_key hgexplicit).1
  rw [hkey] at hfits htargets
  refine ⟨fun p hp => ?_, hpairs ▸ hsources, hpairs ▸ htargets⟩
  obtain ⟨c, hc, k, hk, hcname, hkname, htype, hnullable, hprimary⟩ := hfits p (hpairs ▸ hp)
  have hdeclared := hplain.mem_declaredColumns hs hm hn hnm.symm hf hp hc hcname
  obtain ⟨d, hd, hdc⟩ := Model.exists_declaredColumn_of_bare_eq hnm hdeclared
  rw [hr.declaredColumns_eq hm] at hd
  refine ⟨d, hd, k, hk, ?_, hkname, ?_, ?_, ?_⟩
  · rw [Column.congr_of_bare_eq hdc (·.name), hcname]
  · rw [Column.congr_of_bare_eq hdc (·.type), htype]
  · rw [Column.congr_of_bare_eq hdc (·.nullable)]; exact hnullable
  · rw [Column.congr_of_bare_eq hdc (·.primaryKey),
      ← Reference.congr_of_bare_eq hgf (·.primaryKey)]
    exact hprimary

/-- Declarations with which nothing is left to resolve in the end are in order. -/
theorem resolvable (hr : r.Fresh) (hplain : r.PlainSources separator) :
    r.Resolvable separator where
  contains_target _ hm _ hf := hs.contains_target hbare hm hf
  keyAcyclic := by
    rw [keyAcyclic_congr hbare]
    exact ((forall_grounded_iff hs.coherent.sound.nodup_names).1 hs.grounded).2
  expectedKey_ne_nil m hm := by
    obtain ⟨n, hn, hnm⟩ := exists_bare_eq_of_map_bare_eq hbare hm
    rw [← hs.keyShape_eq_expectedKey hbare hm hn (Model.name_eq_of_bare_eq hnm)]
    exact hs.keyShape_ne_nil n hn
  nodup_names _ hm := hs.nodup_names_expectedKey hbare hr hm
  matches_key _ hm _ hf hexplicit := hs.matches_expectedKey hbare hr hplain hm hf hexplicit

end Declared

end Complete

/-! ## 3. The criterion -/

/-- Models that have only been declared resolve exactly if their declarations are in order. -/
theorem resolve_iff_resolvable (hr : r.Fresh) (hplain : r.PlainSources separator) :
    (∃ s, (r.resolve separator).result = .ok s) ↔ r.Resolvable separator := by
  constructor
  · rintro ⟨s, h⟩
    have hs := hr.coherent.complete (hr.usesSeparator separator) h
    exact hs.resolvable (map_bare_of_resolve hr.coherent.sound h).symm hr hplain
  · intro h
    have houtcome := h.complete_outcome hr
    have hbare := r.map_bare_outcome separator
    refine (resolve_iff_lendsInTime houtcome hr.coherent (hr.usesSeparator separator)
      hr.resolution_eq_none (hbare ▸ .refl _)).1.2 ?_
    exact hplain.lendsInTime houtcome hbare.symm _

/-- The nation of a settler is declared, unlike the columns of its home. -/
def settler : Model :=
  Model.ofFields "Settler" [
    .column { name := "id", type := .integer, primaryKey := true },
    .column { name := "nation", type := .text },
    .reference { field := "home", target := "City" },
    .reference { field := "origin", target := "Country",
                 declaredPairs := [⟨"nation", "code"⟩] }]

theorem fresh_country_city_settler : ∀ m ∈ [country, city, settler], m.Fresh := by
  simp only [List.forall_mem_cons, List.not_mem_nil, false_imp_iff, implies_true, and_true]
  exact ⟨Model.fresh_ofFields _ _ (by decide), Model.fresh_ofFields _ _ (by decide),
    Model.fresh_ofFields _ _ (by decide)⟩

theorem fresh_countryOfCapital_city : ∀ m ∈ [countryOfCapital, city], m.Fresh := by
  simp only [List.forall_mem_cons, List.not_mem_nil, false_imp_iff, implies_true, and_true]
  exact ⟨Model.fresh_ofFields _ _ (by decide), Model.fresh_ofFields _ _ (by decide)⟩

/-- A city may depend on its country, but not the two on each other. -/
theorem resolve_iff_resolvable_settler :
    (ofModels [country, city, settler]).Resolvable "_" ∧
      ¬(ofModels [countryOfCapital, city]).Resolvable "_" := by
  have hdeclared : ∀ m ∈ (ofModels [country, city, settler]).models, ∀ f ∈ m.references,
      ∀ p ∈ f.declaredPairs, ∃ c ∈ m.declaredColumns, c.name = p.source := by decide
  have hdeclared' : ∀ m ∈ (ofModels [countryOfCapital, city]).models, ∀ f ∈ m.references,
      ∀ p ∈ f.declaredPairs, ∃ c ∈ m.declaredColumns, c.name = p.source := by decide
  constructor
  · exact (resolve_iff_resolvable (fresh_ofModels fresh_country_city_settler)
      fun m hm f hf p hp => .inl (hdeclared m hm f hf p hp)).1 ⟨_, rfl⟩
  · intro h
    obtain ⟨s, hs⟩ := (resolve_iff_resolvable (fresh_ofModels fresh_countryOfCapital_city)
      fun m hm f hf p hp => .inl (hdeclared' m hm f hf p hp)).2 h
    cases hs

end Registry

end RelSchema
