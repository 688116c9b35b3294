import RelSchema.Proofs.Resolve.Staleness

/-!
# Local columns of resolved pairs

A resolution is checked again only against the key of its target.  The columns of the owner that its
pairs start at can go in the meantime, or come back different, when another reference has brought
them and was dropped.
-/

namespace RelSchema

/-! ## 1. Pairs that were checked -/

/-- A pair that fits a key fits any key that has the columns of it. -/
theorem Pair.Fits.of_subset {owner : Model} {f : Reference} {key longer : PrimaryKey} {p : Pair}
    (h : p.Fits owner f key) (hkey : ∀ k ∈ key, k ∈ longer) : p.Fits owner f longer := by
  obtain ⟨c, hc, k, hk, hfits⟩ := h
  exact ⟨c, hc, k, hkey k hk, hfits⟩

namespace Reference

/-- The declared pairs matched the recorded key on the owner as it was at some time. -/
structure CheckedOn (owner : Model) (f : Reference) (resolution : Resolution) : Prop where
  pairs_eq : resolution.pairs = resolution.key.filterMap (pairFor? f.declaredPairs)
  exists_past : ∃ past : Model, past.Laid ∧ past.bare = owner.bare ∧ f.Matches past resolution.key

variable {owner : Model} {f : Reference} {resolution : Resolution} {p : Pair}

namespace CheckedOn

/-- No declared pair is lost or made up. -/
theorem mem_declaredPairs (h : f.CheckedOn owner resolution)
    (hres : f.resolution = some resolution) (hp : p ∈ f.pairs) : p ∈ f.declaredPairs := by
  rw [pairs_eq_of_resolution hres, h.pairs_eq] at hp
  exact mem_of_mem_filterMap_pairFor? hp

theorem exists_target (h : f.CheckedOn owner resolution) (hp : p ∈ f.declaredPairs) :
    ∃ k ∈ resolution.key, k.name = p.target := by
  obtain ⟨past, -, -, hmatches⟩ := h.exists_past
  obtain ⟨-, -, k, hk, -, hkname, -⟩ := hmatches.fits p hp
  exact ⟨k, hk, hkname⟩

/-- A declared column is the same at all times. -/
theorem fits_of_declared (h : f.CheckedOn owner resolution) (howner : owner.Laid)
    (hp : p ∈ f.declaredPairs) {c : Column} (hc : c ∈ owner.declaredColumns)
    (hname : c.name = p.source) : p.Fits owner f resolution.key := by
  obtain ⟨past, hpast, hbare, hmatches⟩ := h.exists_past
  obtain ⟨d, hd, k, hk, hdname, hkname, htype, hnullable, hkey⟩ := hmatches.fits p hp
  obtain ⟨d', hd', hd'c⟩ := Model.exists_declaredColumn_of_bare_eq hbare.symm hc
  have hd'name : d'.name = d.name :=
    (Column.congr_of_bare_eq hd'c (·.name)).trans (hname.trans hdname.symm)
  obtain rfl := hpast.column_inj (hpast.mem_columns_iff.2 (.inl hd')) hd hd'name
  refine ⟨c, howner.mem_columns_iff.2 (.inl hc), k, hk, hname, hkname, ?_, ?_, ?_⟩
  · rw [← Column.congr_of_bare_eq hd'c (·.type), htype]
  · rw [← Column.congr_of_bare_eq hd'c (·.nullable)]; exact hnullable
  · rw [← Column.congr_of_bare_eq hd'c (·.primaryKey)]; exact hkey

end CheckedOn

theorem SettledIn.checkedOn {r : Registry} (h : f.SettledIn r owner resolution) (hr : r.Sound)
    (howner : owner ∈ r.models) (hexplicit : f.isImplicit = false) :
    f.CheckedOn owner resolution := by
  obtain ⟨hmatches, hpairs⟩ := h.matches_key hexplicit
  exact ⟨hpairs, owner, hr.laid owner howner, rfl, hmatches⟩

end Reference

namespace Registry

/-- Every explicit reference that is resolved was checked. -/
def Checked (r : Registry) : Prop :=
  ∀ m ∈ r.models, ∀ f ∈ m.references, ∀ resolution, f.resolution = some resolution →
    f.isImplicit = false → f.CheckedOn m resolution

variable {separator : String} {r s : Registry}

namespace Checked

theorem empty : ({} : Registry).Checked := by
  simp [Checked]

theorem append {m : Model} (hr : r.Checked) (hopen : ∀ f ∈ m.references, f.resolution = none) :
    (⟨r.models ++ [m]⟩ : Registry).Checked := by
  intro n hn f hf resolution hres
  exact hr n (mem_of_mem_append hopen hn hf hres) f hf resolution hres

/-- What was checked stays so while its resolution and the declaration of its owner stay. -/
theorem of_reference? (hr : r.Checked) (hs : s.Sound)
    (hbare : r.models.map Model.bare = s.models.map Model.bare)
    (h : ∀ id f, s.reference? id = some f → f.isResolved → r.reference? id = some f ∨
      ∃ owner resolution, s.get? id.model = some owner ∧ f.SettledIn s owner resolution) :
    s.Checked := by
  intro n hn f hf resolution hres hexplicit
  obtain ⟨id, hid, hfid⟩ := exists_reference?_of_mem hn hf
  rcases h id f hfid (Reference.isResolved_iff.2 ⟨_, hres⟩) with
    hbefore | ⟨owner, resolution', howner, hsettled⟩
  · obtain ⟨m, hm, hfm⟩ := reference?_eq_some_iff.1 hbefore
    obtain ⟨n', hn', hmn⟩ := exists_get?_of_map_bare_eq hbare hm
    obtain rfl := Option.some.inj (hid.symm.trans hn')
    obtain ⟨hpairs, past, hpast, hpastBare, hmatches⟩ :=
      hr m (mem_of_get? hm) f (List.mem_of_getElem? hfm) resolution hres hexplicit
    exact ⟨hpairs, past, hpast, hpastBare.trans hmn, hmatches⟩
  · obtain rfl := Option.some.inj (hid.symm.trans howner)
    obtain rfl := Option.some.inj (hres.symm.trans hsettled.resolution_eq)
    exact hsettled.checkedOn hs hn hexplicit

theorem withoutStale (hr : r.Checked) (hsound : r.Sound) : r.withoutStale.Checked :=
  hr.of_reference? hsound.withoutStale (map_bare_withoutStale r).symm
    fun _ _ hf hres => .inl (reference?_of_dropRounds hf hres)

theorem steps (hr : r.Checked) (hsound : r.Sound) (h : Steps separator r s) : s.Checked :=
  hr.of_reference? (h.sound hsound) (h.growsTo hsound).map_bare_eq fun _ _ hf hres =>
    (h.settledIn_or hsound hf hres).imp_right
      fun ⟨owner, resolution, howner, hsettled, _⟩ => ⟨owner, resolution, howner, hsettled⟩

theorem resolve (hr : r.Checked) (hsound : r.Sound) (h : (r.resolve separator).result = .ok s) :
    s.Checked :=
  (hr.withoutStale hsound).steps hsound.withoutStale (steps_of_resolve hsound h).1

/-- A fresh model has nothing to be checked. -/
theorem perform {operation : Operation} (hr : r.Checked) (hsound : r.Sound)
    (hfresh : operation.Fresh) : (r.perform operation).Checked := by
  obtain h | ⟨m, rfl, -, h⟩ | ⟨m, id, rfl, hid, h⟩ | ⟨separator, rfl, h⟩ :=
    perform_cases r operation
  · rw [h]
    exact hr
  · have hm : m.Fresh := hfresh
    rw [h]
    exact hr.append hm.resolution_eq_none
  · have hm : m.Fresh := hfresh
    obtain ⟨old, hold, -⟩ := (idOf_eq_some_iff hsound.nodup_names).1 hid
    rw [h]
    intro n hn f hf resolution hres
    rcases mem_modify hold hn with hn | rfl
    · exact hr n hn f hf resolution hres
    · have hnone : f.resolution = none := hm.resolution_eq_none f hf
      rw [hnone] at hres
      cases hres
  · exact hr.resolve hsound h

end Checked

theorem checked_after {operations : List Operation} (hfresh : ∀ o ∈ operations, o.Fresh) :
    (after operations).Checked :=
  after_induction .empty (fun _ _ hsound hr ho => hr.perform hsound ho) hfresh

/-! ## 2. Pairs that hold -/

/-- The pair of the reference at the place starts at a column of the owner that can hold the key
column of the target. -/
def PairHolds (r : Registry) (id : ReferenceId) (p : Pair) : Prop :=
  ∃ m f t, r.get? id.model = some m ∧ m.references[id.index]? = some f ∧
    r.lookup f.target = .ok t ∧ p.Fits m f t.keyShape

/-- The source of the pair is among the columns that an open reference of the owner brings on the
way from `r` to `s`. -/
def Regains (separator : String) (r s : Registry) (id : ReferenceId) (p : Pair) : Prop :=
  ∃ m f g t u, r.get? id.model = some m ∧ m.references[id.index]? = some f ∧ g ∈ m.references ∧
    g.resolution = none ∧ g.isImplicit ∧ s.lookup f.target = .ok t ∧ s.lookup g.target = .ok u ∧
    p.Fits { m with columns := g.columnsFor separator u.keyShape } f t.keyShape

variable {id : ReferenceId} {m n t : Model} {f : Reference} {p : Pair} {resolution : Resolution}

theorem pairHolds_iff (hm : r.get? id.model = some m) (hf : m.references[id.index]? = some f)
    (ht : r.lookup f.target = .ok t) : r.PairHolds id p ↔ p.Fits m f t.keyShape := by
  constructor
  · rintro ⟨m', f', t', hm', hf', ht', hfits⟩
    obtain rfl := Option.some.inj (hm.symm.trans hm')
    obtain rfl := Option.some.inj (hf.symm.trans hf')
    obtain rfl := Except.ok.inj (ht.symm.trans ht')
    exact hfits
  · exact fun hfits => ⟨m, f, t, hm, hf, ht, hfits⟩

/-- A reference that is not stale records the key that its target has. -/
theorem Sound.exists_lookup (hr : r.Sound) (hstale : r.staleReferences = [])
    (hf : r.reference? id = some f) (hres : f.resolution = some resolution) :
    ∃ t, r.get? resolution.target = some t ∧ r.lookup f.target = .ok t ∧
      t.keyShape = resolution.key := by
  obtain ⟨m, hm, hfm⟩ := reference?_eq_some_iff.1 hf
  have hmem := mem_of_get? hm
  have hfmem := List.mem_of_getElem? hfm
  obtain ⟨t, ht, htname⟩ := hr.exists_target hmem hfmem hres
  have hkept := isStale_eq_false_of_staleReferences_eq_nil hstale hf
  rw [← Bool.not_eq_true, hr.isStale_iff hmem hfmem hres ht, not_not] at hkept
  exact ⟨t, ht, (lookup_eq_ok_iff hr.nodup_names).2 ⟨mem_of_get? ht, htname⟩, hkept⟩

section Run

variable (hr : r.Sound) (hsteps : Steps separator r s)
include hr hsteps

/-- An open implicit reference brings one column per key column that its target has in the end. -/
theorem broughtColumns_of_open (hopen : ∀ id, ¬s.IsOpen id) {i : ModelId}
    (hm : r.get? i = some m) (hn : s.get? i = some n) (hf : f ∈ m.references)
    (hnone : f.resolution = none) (himplicit : f.isImplicit) :
    ∃ g ∈ n.references, g.bare = f.bare ∧ ∃ u, s.lookup f.target = .ok u ∧
      g.broughtColumns = f.columnsFor separator u.keyShape := by
  have hs := hsteps.sound hr
  have hmn := (hsteps.growsTo hr).growsTo i m n hm hn
  obtain ⟨j, hj⟩ := List.getElem?_of_mem hf
  obtain ⟨g, hg, hgf⟩ := Model.exists_reference?_of_bare_eq hmn.bare_eq hj
  have hgmem := List.mem_of_getElem? hg
  have hgat : s.reference? ⟨i, j⟩ = some g := reference?_eq_some_iff.2 ⟨n, hn, hg⟩
  have hgres := isResolved_of_not_isOpen hopen (mem_of_get? hn) hgmem
  have htarget : g.target = f.target := Reference.congr_of_bare_eq hgf (·.target)
  refine ⟨g, hgmem, hgf, ?_⟩
  rcases hsteps.settledIn_or hr hgat hgres with
    hbefore | ⟨owner, resolution, howner, hsettled, hpairs⟩
  · -- the run has found it open
    obtain rfl := Option.some.inj
      (hbefore.symm.trans (reference?_eq_some_iff.2 ⟨m, hm, hj⟩))
    simp [Reference.isResolved, hnone] at hgres
  · obtain rfl := Option.some.inj (howner.symm.trans hn)
    obtain ⟨u, hu, huname, -, hkey⟩ :=
      hsettled.exists_named_target hs (mem_of_get? hn) hgmem
    have hgimplicit : g.isImplicit := by
      rw [Reference.congr_of_bare_eq hgf (·.isImplicit)]
      exact himplicit
    refine ⟨u, (lookup_eq_ok_iff hs.nodup_names).2 ⟨mem_of_get? hu, huname.trans htarget⟩, ?_⟩
    rw [Reference.broughtColumns_of_implicit hgimplicit hsettled.resolution_eq (hpairs hgimplicit),
      hkey]
    exact Reference.congr_of_bare_eq hgf (·.columnsFor separator resolution.key)

/-- A column after the run stood there before it, or an open reference has brought it. -/
theorem column_cases (hopen : ∀ id, ¬s.IsOpen id) {i : ModelId} (hm : r.get? i = some m)
    (hn : s.get? i = some n) {c : Column} (hc : c ∈ n.columns) :
    (∃ d ∈ m.columns, d.bare = c.bare) ∨
      ∃ e ∈ m.references, e.resolution = none ∧ e.isImplicit ∧
        ∃ v, s.lookup e.target = .ok v ∧ c ∈ e.columnsFor separator v.keyShape := by
  have hmn := (hsteps.growsTo hr).growsTo i m n hm hn
  have hmLaid := hr.laid m (mem_of_get? hm)
  have hnLaid := (hsteps.sound hr).laid n (mem_of_get? hn)
  rcases hnLaid.mem_columns_iff.1 hc with hdeclared | ⟨g, hg, hbrought⟩
  · obtain ⟨d, hd, hdc⟩ := Model.exists_declaredColumn_of_bare_eq hmn.bare_eq.symm hdeclared
    exact .inl ⟨d, hmLaid.mem_columns_iff.2 (.inl hd), hdc⟩
  · obtain ⟨e, he, heg⟩ := Model.exists_reference_of_bare_eq hmn.bare_eq.symm hg
    have hfield : e.field = g.field := Reference.congr_of_bare_eq heg (·.field)
    cases heres : e.isResolved with
    | true =>
      have hshape := hmn.shape_eq e he g hg hfield heres
      rw [← Reference.broughtColumns_congr heg hshape] at hbrought
      exact .inl ⟨c, hmLaid.mem_columns_iff.2 (.inr ⟨e, he, hbrought⟩), rfl⟩
    | false =>
      have hnone := Reference.isResolved_eq_false_iff.1 heres
      have himplicit : e.isImplicit := by
        rw [Reference.congr_of_bare_eq heg (·.isImplicit)]
        exact Reference.isImplicit_of_mem_broughtColumns hbrought
      obtain ⟨g', hg', hg'e, v, hv, hcolumns⟩ :=
        broughtColumns_of_open hr hsteps hopen hm hn he hnone himplicit
      obtain rfl := hnLaid.reference_inj hg' hg
        ((Reference.congr_of_bare_eq hg'e (·.field)).trans hfield)
      exact .inr ⟨e, he, hnone, himplicit, v, hv, hcolumns ▸ hbrought⟩

variable (hstale : r.staleReferences = [])
include hstale

/-- After a run the target of every resolved reference has the recorded key columns, among others
perhaps. -/
theorem exists_lookup_of_steps (hf : s.reference? id = some f)
    (hres : f.resolution = some resolution) :
    ∃ t, s.lookup f.target = .ok t ∧ ∀ k ∈ resolution.key, k ∈ t.keyShape := by
  have hs := hsteps.sound hr
  rcases hsteps.settledIn_or hr hf (Reference.isResolved_iff.2 ⟨_, hres⟩) with
    hbefore | ⟨owner, resolution', howner, hsettled, -⟩
  · obtain ⟨t, ht, hlookup, hkey⟩ := hr.exists_lookup hstale hbefore hres
    obtain ⟨u, hu, hgrow⟩ := (hsteps.growsTo hr).exists_get? ht
    have hname : u.name = f.target := (Model.name_eq_of_bare_eq hgrow.bare_eq).symm.trans
      ((lookup_eq_ok_iff hr.nodup_names).1 hlookup).2
    refine ⟨u, (lookup_eq_ok_iff hs.nodup_names).2 ⟨mem_of_get? hu, hname⟩, fun k hk => ?_⟩
    exact hgrow.mem_keyShape (hr.laid t (mem_of_get? ht)) (hs.laid u (mem_of_get? hu)) (hkey ▸ hk)
  · obtain rfl := Option.some.inj (hres.symm.trans hsettled.resolution_eq)
    obtain ⟨m, hm, hfm⟩ := reference?_eq_some_iff.1 hf
    obtain rfl := Option.some.inj (howner.symm.trans hm)
    obtain ⟨t, ht, hname, -, hkey⟩ :=
      hsettled.exists_named_target hs (mem_of_get? hm) (List.mem_of_getElem? hfm)
    refine ⟨t, (lookup_eq_ok_iff hs.nodup_names).2 ⟨mem_of_get? ht, hname⟩, fun k hk => ?_⟩
    rw [hkey]
    exact hk

/-- The pairs of a reference that the run resolves hold. -/
theorem pairHolds_of_isOpen (hopen : r.IsOpen id) (hm : s.get? id.model = some m)
    (hf : m.references[id.index]? = some f) (hres : f.resolution = some resolution)
    (hp : p ∈ f.pairs) : s.PairHolds id p := by
  have hs := hsteps.sound hr
  have hfid : s.reference? id = some f := reference?_eq_some_iff.2 ⟨m, hm, hf⟩
  have hmem := mem_of_get? hm
  have hfmem := List.mem_of_getElem? hf
  obtain ⟨t, ht, hsubset⟩ := exists_lookup_of_steps hr hsteps hstale hfid hres
  rw [pairHolds_iff hm hf ht]
  rcases hsteps.settledIn_or hr hfid (Reference.isResolved_iff.2 ⟨_, hres⟩) with
    hbefore | ⟨owner, resolution', howner, hsettled, -⟩
  · obtain ⟨g, hg, hnone⟩ := hopen
    obtain rfl := Option.some.inj (hbefore.symm.trans hg)
    rw [hnone] at hres
    cases hres
  · obtain rfl := Option.some.inj (howner.symm.trans hm)
    obtain rfl := Option.some.inj (hres.symm.trans hsettled.resolution_eq)
    exact (hsettled.fits_of_mem_pairs (hs.laid owner hmem) hfmem hp).of_subset hsubset

/-- The pairs of a reference that the run keeps hold if they held before the run, or if their
sources come back in it. -/
theorem pairHolds_iff_of_kept (hopen : ∀ id, ¬s.IsOpen id) (hbefore : r.reference? id = some f)
    (hres : f.resolution = some resolution) (htarget : ∃ k ∈ resolution.key, k.name = p.target) :
    s.PairHolds id p ↔ r.PairHolds id p ∨ Regains separator r s id p := by
  have hs := hsteps.sound hr
  have hgrow := hsteps.growsTo hr
  have hafter := hsteps.reference?_of_isResolved hbefore (Reference.isResolved_iff.2 ⟨_, hres⟩)
  obtain ⟨m, hm, hfm⟩ := reference?_eq_some_iff.1 hbefore
  obtain ⟨n, hn, hfn⟩ := reference?_eq_some_iff.1 hafter
  have hmn := hgrow.growsTo id.model m n hm hn
  have hmLaid := hr.laid m (mem_of_get? hm)
  have hnLaid := hs.laid n (mem_of_get? hn)
  obtain ⟨t, -, htlookup, hkey⟩ := hr.exists_lookup hstale hbefore hres
  obtain ⟨u, hulookup, hsubset⟩ := exists_lookup_of_steps hr hsteps hstale hafter hres
  rw [pairHolds_iff hm hfm htlookup, pairHolds_iff hn hfn hulookup, hkey]
  constructor
  · rintro ⟨c, hc, k, hk, hcname, hkname, hfits⟩
    -- the key column of the target is one that was recorded
    have hkmem : k ∈ resolution.key := by
      obtain ⟨k', hk', hk'name⟩ := htarget
      have huLaid := hs.laid u ((lookup_eq_ok_iff hs.nodup_names).1 hulookup).1
      obtain rfl := List.inj_on_of_nodup_map huLaid.nodup_names_keyShape (hsubset k' hk') hk
        (hk'name.trans hkname.symm)
      exact hk'
    rcases column_cases hr hsteps hopen hm hn hc with
      ⟨d, hd, hdc⟩ | ⟨e, he, hnone, himplicit, v, hv, hbrought⟩
    · refine .inl ⟨d, hd, k, hkmem, ?_, hkname, ?_⟩
      · rw [Column.congr_of_bare_eq hdc (·.name), hcname]
      · rw [Column.congr_of_bare_eq hdc (·.type), Column.congr_of_bare_eq hdc (·.nullable),
          Column.congr_of_bare_eq hdc (·.primaryKey)]
        exact hfits
    · exact .inr ⟨m, f, e, u, v, hm, hfm, he, hnone, himplicit, hulookup, hv, c, hbrought, k, hk,
        hcname, hkname, hfits⟩
  · rintro (hfits | ⟨m', f', e, u', v, hm', hf', he, hnone, himplicit, hu', hv, hfits⟩)
    · exact (hfits.mono hmn hmLaid hnLaid rfl).of_subset hsubset
    · obtain rfl := Option.some.inj (hm.symm.trans hm')
      obtain rfl := Option.some.inj (hfm.symm.trans hf')
      obtain rfl := Except.ok.inj (hulookup.symm.trans hu')
      obtain ⟨g, hg, -, v', hv', hcolumns⟩ :=
        broughtColumns_of_open hr hsteps hopen hm hn he hnone himplicit
      obtain rfl := Except.ok.inj (hv.symm.trans hv')
      obtain ⟨c, hc, hrest⟩ := hfits
      exact ⟨c, hnLaid.mem_columns_iff.2 (.inr ⟨g, hg, hcolumns ▸ hc⟩), hrest⟩

end Run

/-! ## 3. Pairs after a resolution -/

/-- After a resolution that succeeds every pair names a key column of the target.  The pairs of
implicit references and those that start at declared columns hold.  Any other pair holds exactly if
its reference was resolved in this run, if it held once the stale references had been dropped, or if
the run has brought its source again. -/
theorem pairHolds_iff_of_resolve {operations : List Operation}
    (hfresh : ∀ o ∈ operations, o.Fresh)
    (h : ((after operations).resolve separator).result = .ok s)
    (hm : s.get? id.model = some m) (hf : m.references[id.index]? = some f) (hp : p ∈ f.pairs) :
    (∃ t, s.lookup f.target = .ok t ∧ ∃ k ∈ t.keyShape, k.name = p.target) ∧
      (f.isImplicit → s.PairHolds id p) ∧
      ((∃ c ∈ m.declaredColumns, c.name = p.source) → s.PairHolds id p) ∧
      (s.PairHolds id p ↔ (after operations).withoutStale.IsOpen id ∨
        (after operations).withoutStale.PairHolds id p ∨
        Regains separator (after operations).withoutStale s id p) := by
  have hsound := sound_after hfresh
  have hstart := hsound.withoutStale
  have hstale := staleReferences_withoutStale (after operations)
  obtain ⟨hsteps, hopen, -⟩ := steps_of_resolve hsound h
  have hs := hsteps.sound hstart
  have hmem := mem_of_get? hm
  have hfmem := List.mem_of_getElem? hf
  have hafter : s.reference? id = some f := reference?_eq_some_iff.2 ⟨m, hm, hf⟩
  obtain ⟨resolution, hres⟩ :=
    Reference.isResolved_iff.1 (isResolved_of_not_isOpen hopen hmem hfmem)
  obtain ⟨t, ht, hsubset⟩ := exists_lookup_of_steps hstart hsteps hstale hafter hres
  have hchecked := (checked_after hfresh).resolve hsound h m hmem f hfmem resolution hres
  have hfitsOfImplicit : f.isImplicit → p.Fits m f resolution.key := fun himplicit =>
    f.fits_of_implicit (hs.laid m hmem) hfmem hres himplicit hp
  have htarget : ∃ k ∈ resolution.key, k.name = p.target := by
    cases himplicit : f.isImplicit with
    | true =>
      obtain ⟨-, -, k, hk, -, hkname, -⟩ := hfitsOfImplicit himplicit
      exact ⟨k, hk, hkname⟩
    | false =>
      have hpair := (hchecked himplicit).mem_declaredPairs hres hp
      exact (hchecked himplicit).exists_target hpair
  have hholds : p.Fits m f resolution.key → s.PairHolds id p := fun hfits =>
    (pairHolds_iff hm hf ht).2 (hfits.of_subset hsubset)
  refine ⟨?_, fun himplicit => hholds (hfitsOfImplicit himplicit), ?_, ?_⟩
  · obtain ⟨k, hk, hkname⟩ := htarget
    exact ⟨t, ht, k, hsubset k hk, hkname⟩
  · rintro ⟨c, hc, hcname⟩
    cases himplicit : f.isImplicit with
    | true => exact hholds (hfitsOfImplicit himplicit)
    | false =>
      have hpair := (hchecked himplicit).mem_declaredPairs hres hp
      exact hholds ((hchecked himplicit).fits_of_declared (hs.laid m hmem) hpair hc hcname)
  · -- a reference is open when the run begins, or the run keeps it
    rcases hsteps.isOpen_or_reference?_eq hstart hafter with hbegin | hbefore
    · have hholds := pairHolds_of_isOpen hstart hsteps hstale hbegin hm hf hres hp
      exact ⟨fun _ => .inl hbegin, fun _ => hholds⟩
    · have hclosed : ¬(after operations).withoutStale.IsOpen id := by
        rintro ⟨g, hg, hnone⟩
        obtain rfl := Option.some.inj (hbefore.symm.trans hg)
        rw [hnone] at hres
        cases hres
      rw [pairHolds_iff_of_kept hstart hsteps hstale hopen hbefore hres htarget]
      exact ⟨.inr, fun h => h.resolve_left hclosed⟩

/-! ## 4. A person whose home loses its country -/

/-- When the city is replaced by a town, the person's home no longer brings a country's code. -/
def homeReplaced : List Operation :=
  [.register country, .register city, .register person, .resolve "_", .replace town]

theorem fresh_homeReplaced : ∀ o ∈ homeReplaced, o.Fresh := by
  simp only [homeReplaced, List.forall_mem_cons, List.not_mem_nil, false_imp_iff, implies_true,
    and_true]
  exact ⟨Model.fresh_ofFields _ _ (by decide), Model.fresh_ofFields _ _ (by decide),
    Model.fresh_ofFields _ _ (by decide), trivial, Model.fresh_ofFields _ _ (by decide)⟩

def homeOfPerson : ReferenceId :=
  ⟨2, 0⟩

def originOfPerson : ReferenceId :=
  ⟨2, 1⟩

/-- The origin keeps its resolution, and nothing brings the column that it starts at again. -/
theorem pairHolds_iff_homeReplaced :
    ∃ s, ((after homeReplaced).resolve "_").result = .ok s ∧
      s.PairHolds homeOfPerson ⟨"home_name", "name"⟩ ∧
      ¬((after homeReplaced).withoutStale.IsOpen originOfPerson ∨
        (after homeReplaced).withoutStale.PairHolds originOfPerson ⟨"home_country_code", "code"⟩ ∨
        Regains "_" (after homeReplaced).withoutStale s originOfPerson
          ⟨"home_country_code", "code"⟩) := by
  have hresolve : ∃ s m home origin, ((after homeReplaced).resolve "_").result = .ok s ∧
      s.get? homeOfPerson.model = some m ∧ s.get? originOfPerson.model = some m ∧
      m.references[homeOfPerson.index]? = some home ∧
      m.references[originOfPerson.index]? = some origin ∧
      ⟨"home_name", "name"⟩ ∈ home.pairs ∧ ⟨"home_country_code", "code"⟩ ∈ origin.pairs ∧
      home.isImplicit ∧ ∀ c ∈ m.columns, c.name ≠ "home_country_code" :=
    ⟨_, _, _, _, rfl, rfl, rfl, rfl, rfl, by decide, by decide, rfl, by decide⟩
  obtain ⟨s, m, home, origin, hs, hmHome, hmOrigin, hhome, horigin, hhomePair, horiginPair,
    himplicit, hmissing⟩ := hresolve
  obtain ⟨-, hhomeHolds, -⟩ :=
    pairHolds_iff_of_resolve fresh_homeReplaced hs hmHome hhome hhomePair
  obtain ⟨-, -, -, horiginIff⟩ :=
    pairHolds_iff_of_resolve fresh_homeReplaced hs hmOrigin horigin horiginPair
  refine ⟨s, hs, hhomeHolds himplicit, fun hcauses => ?_⟩
  obtain ⟨m', -, -, hm', -, -, c, hc, -, -, hname, -⟩ := horiginIff.2 hcauses
  obtain rfl := Option.some.inj (hmOrigin.symm.trans hm')
  exact hmissing c hc hname

/-- So a successful resolution can leave a pair that starts at a column which is not there. -/
theorem exists_pair_without_source_after_resolve :
    ¬∀ (operations : List Operation) (separator : String) (s : Registry),
      (∀ o ∈ operations, o.Fresh) → ((after operations).resolve separator).result = .ok s →
        ∀ m ∈ s.models, ∀ f ∈ m.references, ∀ p ∈ f.pairs,
          ∃ t, s.lookup f.target = .ok t ∧ p.Fits m f t.keyShape := by
  intro hall
  have hresolve : ∃ s m f, ((after homeReplaced).resolve "_").result = .ok s ∧
      s.get? 2 = some m ∧ m.references[1]? = some f ∧
      ⟨"home_country_code", "code"⟩ ∈ f.pairs ∧ ∀ c ∈ m.columns, c.name ≠ "home_country_code" :=
    ⟨_, _, _, rfl, rfl, rfl, by decide, by decide⟩
  obtain ⟨s, m, f, hs, hm, hf, hp, hmissing⟩ := hresolve
  obtain ⟨t, -, c, hc, -, -, hname, -⟩ := hall homeReplaced "_" s fresh_homeReplaced hs m
    (mem_of_get? hm) f (List.mem_of_getElem? hf) _ hp
  exact hmissing c hc hname

end Registry

end RelSchema
