import Mathlib.Data.Set.Basic
import RelSchema.Proofs.Resolve.Correct

/-!
# Two histories, one outcome

A final key is determined by what the models declare on which it rests.  So two histories that
declare some models alike, and end with a successful resolution, agree on these models, whatever
else they contain and in whatever order.
-/

namespace RelSchema

namespace Registry

/-! ## 1. Agreement on keys -/

/-- Both registries hold models of the names, declared alike, which reference only each other. -/
structure AlikeOn (names : Set String) (r s : Registry) : Prop where
  exists_alike : ∀ name ∈ names, ∃ m ∈ r.models, ∃ n ∈ s.models, m.name = name ∧ m.bare = n.bare
  target_mem : ∀ m ∈ r.models, m.name ∈ names → ∀ f ∈ m.references, f.target ∈ names

namespace AlikeOn

variable {names : Set String} {r s : Registry} {separator : String} {m n : Model}

theorem bare_eq (h : AlikeOn names r s) (hr : r.Sound) (hs : s.Sound) (hm : m ∈ r.models)
    (hn : n ∈ s.models) (hname : m.name = n.name) (hmem : m.name ∈ names) : m.bare = n.bare := by
  obtain ⟨m', hm', n', hn', hm'name, hbare⟩ := h.exists_alike _ hmem
  obtain rfl := hr.model_inj hm' hm hm'name
  obtain rfl := hs.model_inj hn' hn ((Model.name_eq_of_bare_eq hbare).symm.trans hname)
  exact hbare

/-- References declared alike are resolved alike when their targets have one key. -/
theorem shape_eq_of_keyShape_eq (hr : r.Coherent) (hs : s.Coherent)
    (hrsep : r.UsesSeparator separator) (hssep : s.UsesSeparator separator) (hm : m ∈ r.models)
    (hn : n ∈ s.models) {f g : Reference} (hf : f ∈ m.references) (hg : g ∈ n.references)
    (hbare : f.bare = g.bare) (hfres : f.isResolved) (hgres : g.isResolved)
    (hkeys : ∀ t ∈ r.models, ∀ u ∈ s.models, t.name = f.target → u.name = f.target →
      t.isKeyFinal → u.isKeyFinal → t.keyShape = u.keyShape) : f.shape = g.shape := by
  obtain ⟨resolution, hres⟩ := Reference.isResolved_iff.1 hfres
  obtain ⟨resolution', hres'⟩ := Reference.isResolved_iff.1 hgres
  have hfsettled := hr.settled m hm f hf resolution hres
  have hgsettled := hs.settled n hn g hg resolution' hres'
  obtain ⟨t, ht, htname, htfinal, htkey⟩ := hfsettled.exists_named_target hr.sound hm hf
  obtain ⟨u, hu, huname, hufinal, hukey⟩ := hgsettled.exists_named_target hs.sound hn hg
  have htarget : f.target = g.target := Reference.congr_of_bare_eq hbare (·.target)
  -- each recorded key is the final key of the target in its own registry
  have hkey : resolution.key = resolution'.key := by
    rw [← htkey, ← hukey]
    exact hkeys t (mem_of_get? ht) u (mem_of_get? hu) htname (huname.trans htarget.symm) htfinal
      hufinal
  -- the pairs follow from the key, by the separator or by the declaration
  have hpairs : resolution.pairs = resolution'.pairs := by
    cases himplicit : f.isImplicit with
    | true =>
      have himplicit' : g.isImplicit := by
        rw [← Reference.congr_of_bare_eq hbare (·.isImplicit)]
        exact himplicit
      rw [hrsep m hm f hf resolution hres himplicit, hssep n hn g hg resolution' hres' himplicit',
        hkey]
      exact Reference.congr_of_bare_eq hbare (·.sourcePairs separator resolution'.key)
    | false =>
      have hexplicit : g.isImplicit = false := by
        rw [← Reference.congr_of_bare_eq hbare (·.isImplicit)]
        exact himplicit
      rw [(hfsettled.matches_key himplicit).2, (hgsettled.matches_key hexplicit).2, hkey,
        Reference.congr_of_bare_eq hbare (·.declaredPairs)]
  rw [Reference.shape, Reference.shape, hres, hres', Option.map_some, Option.map_some, hkey, hpairs]

/-- There is one solution for keys that rest on each other: by induction on what the key of the name
rests on. -/
theorem keyShape_eq (h : AlikeOn names r s) (hr : r.Coherent) (hs : s.Coherent)
    (hrsep : r.UsesSeparator separator) (hssep : s.UsesSeparator separator) {name : String}
    (hgrounded : r.Grounded name) (hmem : name ∈ names) (hm : m ∈ r.models) (hn : n ∈ s.models)
    (hmname : m.name = name) (hnname : n.name = name) (hmfinal : m.isKeyFinal)
    (hnfinal : n.isKeyFinal) : m.keyShape = n.keyShape := by
  induction hgrounded generalizing m n with
  | @intro m' hm' hkeys ih =>
    obtain rfl := hr.sound.model_inj hm' hm hmname.symm
    have hbare := h.bare_eq hr.sound hs.sound hm hn hnname.symm hmem
    refine Model.keyShape_eq_of_bare_eq (hr.sound.laid m' hm) (hs.sound.laid n hn) hbare
      fun f hf g hg hfg hkey _ => ?_
    have hfres := Model.isKeyFinal_iff.1 hmfinal f hf hkey
    have hgres := Model.isKeyFinal_iff.1 hnfinal g hg
      (by rw [← Reference.congr_of_bare_eq hfg (·.primaryKey)]; exact hkey)
    -- the key reference rests on a key to which the hypothesis of the induction applies
    refine shape_eq_of_keyShape_eq hr hs hrsep hssep hm hn hf hg hfg hfres hgres ?_
    intro t ht u hu htname huname htfinal hufinal
    exact ih f hf hkey (h.target_mem m' hm hmem f hf) ht hu htname huname htfinal hufinal

theorem shape_eq (h : AlikeOn names r s) (hr : r.Coherent) (hs : s.Coherent)
    (hrsep : r.UsesSeparator separator) (hssep : s.UsesSeparator separator)
    (hmem : m.name ∈ names) (hm : m ∈ r.models) (hn : n ∈ s.models)
    {f g : Reference} (hf : f ∈ m.references) (hg : g ∈ n.references) (hbare : f.bare = g.bare)
    (hfres : f.isResolved) (hgres : g.isResolved) : f.shape = g.shape := by
  refine shape_eq_of_keyShape_eq hr hs hrsep hssep hm hn hf hg hbare hfres hgres ?_
  intro t ht u hu htname huname htfinal hufinal
  exact h.keyShape_eq hr hs hrsep hssep (hr.grounded_target hm hf hfres)
    (h.target_mem m hm hmem f hf) ht hu htname huname htfinal hufinal

end AlikeOn

/-! ## 2. Agreement on models -/

/-- The name of the model that a resolved reference points at. -/
def targetName? (r : Registry) (f : Reference) : Option String :=
  (f.resolvedTarget.bind r.get?).map (·.name)

theorem targetName?_eq {r : Registry} (hr : r.Sound) {m : Model} (hm : m ∈ r.models)
    {f : Reference} (hf : f ∈ m.references) (hres : f.isResolved) :
    r.targetName? f = some f.target := by
  obtain ⟨resolution, hres⟩ := Reference.isResolved_iff.1 hres
  obtain ⟨t, ht, hname⟩ := hr.exists_target hm hf hres
  rw [targetName?, Reference.resolvedTarget, hres, Option.map_some, Option.bind_some, ht,
    Option.map_some, hname]

/-- The models are the same, up to the ids that the two registries have given to models. -/
structure SameModel (r s : Registry) (m n : Model) : Prop where
  bare_eq : m.bare = n.bare
  columns_eq : m.columns = n.columns
  key_eq : m.key = n.key
  isResolved : ∀ f ∈ m.references, f.isResolved
  shape_eq : m.references.map (·.shape) = n.references.map (·.shape)
  targetName?_eq : m.references.map r.targetName? = n.references.map s.targetName?

theorem AlikeOn.sameModel {names : Set String} {r s : Registry} {separator : String} {m n : Model}
    (h : AlikeOn names r s) (hr : r.Complete separator) (hs : s.Complete separator)
    (hm : m ∈ r.models) (hn : n ∈ s.models) (hname : m.name = n.name) (hmem : m.name ∈ names) :
    SameModel r s m n := by
  have hrsound := hr.coherent.sound
  have hssound := hs.coherent.sound
  have hmres := hr.isResolved m hm
  have hnres := hs.isResolved n hn
  have hbare := h.bare_eq hrsound hssound hm hn hname hmem
  have hshape : ∀ f ∈ m.references, ∀ g ∈ n.references, f.bare = g.bare → f.shape = g.shape :=
    fun f hf g hg hfg => h.shape_eq hr.coherent hs.coherent hr.usesSeparator hs.usesSeparator hmem
      hm hn hf hg hfg (hmres f hf) (hnres g hg)
  have hcolumns := Model.columns_eq_of_bare_eq (hrsound.laid m hm) (hssound.laid n hn) hbare hshape
  refine ⟨hbare, hcolumns, ?_, hmres, ?_, ?_⟩
  · rw [Model.key, Model.key, Model.keyShape, Model.keyShape, hcolumns, hname]
  · exact map_eq_of_map_eq (Model.map_bare_references_eq hbare) hshape
  · apply map_eq_of_map_eq (Model.map_bare_references_eq hbare)
    intro f hf g hg hfg
    rw [targetName?_eq hrsound hm hf (hmres f hf), targetName?_eq hssound hn hg (hnres g hg),
      Reference.congr_of_bare_eq hfg (·.target)]

/-! ## 3. Agreement of histories -/

variable {operations operations' : List Operation} {separator : String} {r s : Registry}

/-- The declarations of a history are those of the registry that it ends with. -/
theorem lookup_of_declaredIn (hfresh : ∀ o ∈ operations, o.Fresh)
    (hadditive : ∀ o ∈ operations, o.Additive separator)
    (h : ((after operations).resolve separator).result = .ok r) {name : String} {m : Model} :
    declaredIn operations name = some m ↔ ∃ n, r.lookup name = .ok n ∧ n.bare = m := by
  rw [← declared?_after hfresh hadditive, ← declared?_eq_some_iff, declared?, declared?,
    map_bare_of_resolve (sound_after hfresh) h]

/-- Histories without replacement that end with a successful resolution agree on all models that
they declare alike together with the models on which these depend. -/
theorem sameModel_of_resolve (hfresh : ∀ o ∈ operations, o.Fresh)
    (hfresh' : ∀ o ∈ operations', o.Fresh) (hadditive : ∀ o ∈ operations, o.Additive separator)
    (hadditive' : ∀ o ∈ operations', o.Additive separator)
    (h : ((after operations).resolve separator).result = .ok r)
    (h' : ((after operations').resolve separator).result = .ok s) {names : Set String}
    (hnames : ∀ name ∈ names, ∃ m, declaredIn operations name = some m ∧
      declaredIn operations' name = some m ∧ ∀ f ∈ m.references, f.target ∈ names) :
    ∀ name ∈ names, ∃ m n, r.lookup name = .ok m ∧ s.lookup name = .ok n ∧ SameModel r s m n := by
  obtain ⟨hcoherent, hseparator⟩ := coherent_after hfresh hadditive
  obtain ⟨hcoherent', hseparator'⟩ := coherent_after hfresh' hadditive'
  have hr := hcoherent.complete hseparator h
  have hs := hcoherent'.complete hseparator' h'
  -- what the histories declare alike stands in both registries
  have hlookup : ∀ name ∈ names, ∃ m n, r.lookup name = .ok m ∧ s.lookup name = .ok n ∧
      m.bare = n.bare ∧ ∀ f ∈ m.references, f.target ∈ names := by
    intro name hname
    obtain ⟨d, hd, hd', hclosed⟩ := hnames name hname
    obtain ⟨m, hm, hmd⟩ := (lookup_of_declaredIn hfresh hadditive h).1 hd
    obtain ⟨n, hn, hnd⟩ := (lookup_of_declaredIn hfresh' hadditive' h').1 hd'
    refine ⟨m, n, hm, hn, hmd.trans hnd.symm, fun f hf => ?_⟩
    have hbare : f.bare ∈ d.references := hmd ▸ List.mem_map_of_mem hf
    exact hclosed f.bare hbare
  have hrnames := hr.coherent.sound.nodup_names
  have hsnames := hs.coherent.sound.nodup_names
  have halike : AlikeOn names r s := by
    refine ⟨fun name hname => ?_, fun m hm hmname => ?_⟩
    · obtain ⟨m, n, hm, hn, hbare, -⟩ := hlookup name hname
      obtain ⟨hmmem, hmname⟩ := (lookup_eq_ok_iff hrnames).1 hm
      exact ⟨m, hmmem, n, ((lookup_eq_ok_iff hsnames).1 hn).1, hmname, hbare⟩
    · obtain ⟨m', -, hm', -, -, hclosed⟩ := hlookup m.name hmname
      obtain ⟨hmmem, hname⟩ := (lookup_eq_ok_iff hrnames).1 hm'
      obtain rfl := hr.coherent.sound.model_inj hmmem hm hname
      exact hclosed
  intro name hname
  obtain ⟨m, n, hm, hn, -, -⟩ := hlookup name hname
  obtain ⟨hm', hmname⟩ := (lookup_eq_ok_iff hrnames).1 hm
  obtain ⟨hn', hnname⟩ := (lookup_eq_ok_iff hsnames).1 hn
  exact ⟨m, n, hm, hn, halike.sameModel hr hs hm' hn' (hmname.trans hnname.symm) (hmname ▸ hname)⟩

/-- Person after a first resolution, with nothing that fails. -/
def inBatches : List Operation :=
  [.register country, .register city, .resolve "_", .register person]

theorem fresh_inBatches : ∀ o ∈ inBatches, o.Fresh := by
  have hmodels := fresh_country_city_person
  simp only [List.forall_mem_cons, List.not_mem_nil, false_imp_iff, implies_true, and_true]
    at hmodels
  obtain ⟨hcountry, hcity, hperson⟩ := hmodels
  simp [inBatches, Operation.Fresh, hcountry, hcity, hperson]

/-- The city first, so that a resolution fails; then a second country, which is refused. -/
def inReverse : List Operation :=
  [.register city, .resolve "_", .register country, .register country, .resolve "_",
    .register person]

theorem sameModel_inBatches_inReverse :
    ∃ r s, ((after inBatches).resolve "_").result = .ok r ∧
      ((after inReverse).resolve "_").result = .ok s ∧
      ∀ name ∈ {name | name ∈ ["Country", "City", "Person"]}, ∃ m n,
        r.lookup name = .ok m ∧ s.lookup name = .ok n ∧ SameModel r s m n := by
  have hresolve : ∃ r s, ((after inBatches).resolve "_").result = .ok r ∧
      ((after inReverse).resolve "_").result = .ok s := ⟨_, _, rfl, rfl⟩
  obtain ⟨r, s, hr, hs⟩ := hresolve
  have hmodels := fresh_country_city_person
  simp only [List.forall_mem_cons, List.not_mem_nil, false_imp_iff, implies_true, and_true]
    at hmodels
  obtain ⟨hcountry, hcity, hperson⟩ := hmodels
  have hfresh' : ∀ o ∈ inReverse, o.Fresh := by
    simp [inReverse, Operation.Fresh, hcountry, hcity, hperson]
  have hadditive : ∀ o ∈ inBatches, o.Additive "_" := by simp [inBatches, Operation.Additive]
  have hadditive' : ∀ o ∈ inReverse, o.Additive "_" := by simp [inReverse, Operation.Additive]
  have hclosed : ∀ m ∈ [country, city, person], ∀ f ∈ m.references,
      f.target ∈ ["Country", "City", "Person"] := by decide
  refine ⟨r, s, hr, hs, sameModel_of_resolve fresh_inBatches hfresh' hadditive hadditive' hr hs ?_⟩
  intro name hname
  obtain rfl | rfl | rfl : name = "Country" ∨ name = "City" ∨ name = "Person" := by
    simpa using hname
  · exact ⟨country, rfl, rfl, hclosed country (by simp)⟩
  · exact ⟨city, rfl, rfl, hclosed city (by simp)⟩
  · exact ⟨person, rfl, rfl, hclosed person (by simp)⟩

end Registry

end RelSchema
