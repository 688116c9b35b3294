import Mathlib.Data.List.Nodup
import RelSchema.Resolve.Pairing

/-!
# Declared pairs that match a key

The check of declared pairs accepts exactly the pairings of different columns of the owner with the
columns of the key, one for each, whose types and flags agree.
-/

namespace RelSchema

/-! ## 1. Matching pairs -/

/-- The source is a column of the owner that can hold the key column of the target. -/
def Pair.Fits (owner : Model) (f : Reference) (key : PrimaryKey) (p : Pair) : Prop :=
  ∃ c ∈ owner.columns, ∃ k ∈ key, c.name = p.source ∧ k.name = p.target ∧ c.type = k.type ∧
    (k.nullable → c.nullable) ∧ (f.primaryKey → c.primaryKey)

/-- The declared pairs are a one to one assignment of columns of the owner to the key. -/
structure Reference.Matches (owner : Model) (key : PrimaryKey) (f : Reference) : Prop where
  fits : ∀ p ∈ f.declaredPairs, p.Fits owner f key
  nodup_sources : (f.declaredPairs.map (·.source)).Nodup
  targets_perm : (f.declaredPairs.map (·.target)).Perm key.names

theorem find?_eq_some_of_mem {α : Type} {name : α → String} {xs : List α}
    (h : (xs.map name).Nodup) {x : α} (hx : x ∈ xs) :
    xs.find? (fun y => name y == name x) = some x := by
  cases hfind : xs.find? (fun y => name y == name x) with
  | none => exact absurd (List.find?_eq_none.1 hfind x hx) (by simp)
  | some y =>
    have hname : name y = name x := by simpa using List.find?_some hfind
    rw [List.inj_on_of_nodup_map h (List.mem_of_find?_eq_some hfind) hx hname]

namespace Model

theorem column?_eq_some_iff {m : Model} (h : (m.columns.map (·.name)).Nodup) {name : String}
    {c : Column} : m.column? name = some c ↔ c ∈ m.columns ∧ c.name = name := by
  constructor
  · intro hc
    exact ⟨List.mem_of_find?_eq_some hc, by simpa using List.find?_some hc⟩
  · rintro ⟨hc, rfl⟩
    exact find?_eq_some_of_mem h hc

theorem reference?_eq_some_of_mem {m : Model} (h : (m.references.map (·.field)).Nodup)
    {f : Reference} (hf : f ∈ m.references) : m.reference? f.field = some f :=
  find?_eq_some_of_mem h hf

theorem column?_eq_none_iff {m : Model} {name : String} :
    m.column? name = none ↔ ∀ c ∈ m.columns, c.name ≠ name := by
  simp [column?, List.find?_eq_none]

/-- The names of the key are names of columns. -/
theorem nodup_names_keyShape {m : Model} (h : (m.columns.map (·.name)).Nodup) :
    m.keyShape.names.Nodup := by
  have hnames : m.keyShape.names = (m.columns.filter (·.primaryKey)).map (·.name) := by
    rw [PrimaryKey.names, keyShape, List.map_map]
    rfl
  rw [hnames]
  exact h.sublist (List.filter_sublist.map _)

theorem exists_column?_of_mem_keyShape {m : Model} {k : KeyColumn} (hk : k ∈ m.keyShape) :
    (m.column? k.name).isSome := by
  obtain ⟨c, hc, rfl⟩ := List.mem_map.1 hk
  rw [column?, List.find?_isSome]
  exact ⟨c, (List.mem_filter.1 hc).1, beq_self_eq_true c.name⟩

end Model

namespace Reference

variable {owner target : Model} {f : Reference} {key : PrimaryKey}

theorem countP_source_le_one_iff {pairs : List Pair} :
    (∀ p ∈ pairs, pairs.countP (·.source == p.source) ≤ 1) ↔ (pairs.map (·.source)).Nodup := by
  have hcount : ∀ name, (pairs.map (·.source)).count name = pairs.countP (·.source == name) :=
    fun name => by rw [List.count_eq_countP, List.countP_map]; rfl
  rw [List.nodup_iff_count_le_one]
  constructor
  · intro h name
    by_cases hname : name ∈ pairs.map (·.source)
    · obtain ⟨p, hp, rfl⟩ := List.mem_map.1 hname
      rw [hcount]
      exact h p hp
    · rw [List.count_eq_zero.2 hname]
      exact Nat.zero_le 1
  · exact fun h p _ => hcount p.source ▸ h p.source

/-! ## 2. The check of one pair -/

/-- A pair passes when it fits, no earlier pair has its target and no other one its source. -/
theorem pairProblem?_eq_none_iff (howner : (owner.columns.map (·.name)).Nodup)
    (hkey : key.names.Nodup) (htarget : ∀ k ∈ key, (target.column? k.name).isSome)
    {earlier : List Pair} {p : Pair} :
    f.pairProblem? owner target key earlier p = none ↔
      p.Fits owner f key ∧ (∀ q ∈ earlier, q.target ≠ p.target) ∧
        f.declaredPairs.countP (·.source == p.source) ≤ 1 := by
  unfold pairProblem?
  cases hc : owner.column? p.source with
  | none =>
    simp only [reduceCtorEq, false_iff]
    rintro ⟨⟨c, hmem, -, -, hname, -⟩, -⟩
    exact Model.column?_eq_none_iff.1 hc c hmem hname
  | some c =>
    obtain ⟨hcmem, hcname⟩ := (Model.column?_eq_some_iff howner).1 hc
    cases hk : key.find? (·.name == p.target) with
    | none =>
      have hnot : ¬p.Fits owner f key := by
        rintro ⟨-, -, k, hkmem, -, hkname, -⟩
        exact List.find?_eq_none.1 hk k hkmem (by simpa using hkname)
      simp only [hnot, false_and, iff_false]
      split <;> simp
    | some k =>
      have hkmem := List.mem_of_find?_eq_some hk
      have hkname : k.name = p.target := by simpa using List.find?_some hk
      have hpresent : (target.column? p.target).isNone = false := by
        simpa [hkname] using htarget k hkmem
      -- names are unique on both sides, so that there is only this column and this key column
      have hfits : p.Fits owner f key ↔ c.type = k.type ∧ (k.nullable → c.nullable) ∧
          (f.primaryKey → c.primaryKey) := by
        constructor
        · rintro ⟨c', hc', k', hk', hcn, hkn, h⟩
          obtain rfl := List.inj_on_of_nodup_map howner hcmem hc' (hcname.trans hcn.symm)
          obtain rfl := List.inj_on_of_nodup_map hkey hkmem hk' (hkname.trans hkn.symm)
          exact h
        · exact fun h => ⟨c, hcmem, k, hkmem, hcname, hkname, h⟩
      rw [hfits]
      simp only [hpresent, Bool.false_eq_true, if_false]
      by_cases hearlier : earlier.any (·.target == p.target)
      · have hrepeated : ¬∀ q ∈ earlier, q.target ≠ p.target := by simpa using hearlier
        simp [hearlier, hrepeated]
      · have hdistinct : ∀ q ∈ earlier, q.target ≠ p.target := by simpa using hearlier
        by_cases hcount : f.declaredPairs.countP (·.source == p.source) ≤ 1
        · have hcount' : ¬1 < f.declaredPairs.countP (·.source == p.source) := by omega
          rw [and_iff_left (And.intro hdistinct hcount), if_neg hearlier, if_neg hcount']
          -- what is left are the type and the two flags
          by_cases htype : c.type = k.type <;> cases k.nullable <;> cases c.nullable <;>
            cases f.primaryKey <;> cases c.primaryKey <;> simp [htype]
        · have hcount' : 1 < f.declaredPairs.countP (·.source == p.source) := by omega
          simp [hearlier, hcount', hcount]

/-! ## 3. The check of all pairs -/

theorem firstProblem?_cons_eq_none_iff {earlier rest : List Pair} {p : Pair} :
    f.firstProblem? owner target key earlier (p :: rest) = none ↔
      f.pairProblem? owner target key earlier p = none ∧
        f.firstProblem? owner target key (earlier ++ [p]) rest = none := by
  rw [firstProblem?]
  cases f.pairProblem? owner target key earlier p <;> simp

theorem firstProblem?_eq_none_iff (howner : (owner.columns.map (·.name)).Nodup)
    (hkey : key.names.Nodup) (htarget : ∀ k ∈ key, (target.column? k.name).isSome)
    {earlier rest : List Pair} :
    f.firstProblem? owner target key earlier rest = none ↔
      (∀ p ∈ rest, p.Fits owner f key ∧ f.declaredPairs.countP (·.source == p.source) ≤ 1) ∧
        (rest.map (·.target)).Nodup ∧ ∀ q ∈ earlier, ∀ p ∈ rest, q.target ≠ p.target := by
  induction rest generalizing earlier with
  | nil => simp [firstProblem?]
  | cons p rest ih =>
    rw [firstProblem?_cons_eq_none_iff, pairProblem?_eq_none_iff howner hkey htarget, ih]
    simp only [List.mem_cons, List.map_cons, List.nodup_cons, List.mem_append, List.mem_map,
      List.not_mem_nil, or_false, not_exists, not_and, forall_eq_or_imp]
    constructor
    · rintro ⟨⟨hfits, hdistinct, hcount⟩, hrest, hnodup, hlater⟩
      refine ⟨⟨⟨hfits, hcount⟩, hrest⟩, ⟨fun q hq heq => hlater p (.inr rfl) q hq heq.symm, hnodup⟩,
        fun q hq => ⟨hdistinct q hq, fun r hr => hlater q (.inl hq) r hr⟩⟩
    · rintro ⟨⟨⟨hfits, hcount⟩, hrest⟩, ⟨hnew, hnodup⟩, hlater⟩
      refine ⟨⟨hfits, fun q hq => (hlater q hq).1, hcount⟩, hrest, hnodup, ?_⟩
      rintro q (hq | rfl) r hr
      · exact (hlater q hq).2 r hr
      · exact fun heq => hnew r hr heq.symm

theorem firstProblem?_eq_none_iff_fits (howner : (owner.columns.map (·.name)).Nodup)
    (hkey : key.names.Nodup) (htarget : ∀ k ∈ key, (target.column? k.name).isSome) :
    f.firstProblem? owner target key [] f.declaredPairs = none ↔
      (∀ p ∈ f.declaredPairs, p.Fits owner f key) ∧ (f.declaredPairs.map (·.source)).Nodup ∧
        (f.declaredPairs.map (·.target)).Nodup := by
  -- with no earlier pairs, the targets only have to differ from each other
  rw [firstProblem?_eq_none_iff howner hkey htarget, ← countP_source_le_one_iff]
  constructor
  · exact fun h => ⟨fun p hp => (h.1 p hp).1, fun p hp => (h.1 p hp).2, h.2.1⟩
  · exact fun h => ⟨fun p hp => ⟨h.1 p hp, h.2.1 p hp⟩, h.2.2, by simp⟩

theorem pairFor?_isNone_iff {pairs : List Pair} {k : KeyColumn} :
    (pairFor? pairs k).isNone ↔ k.name ∉ pairs.map (·.target) := by
  simp [pairFor?, List.find?_eq_none]

/-- The check accepts exactly the matching pairs. -/
theorem checkPairs_eq_ok_iff (howner : (owner.columns.map (·.name)).Nodup)
    (hkey : key.names.Nodup) (htarget : ∀ k ∈ key, (target.column? k.name).isSome)
    {pairs : List Pair} :
    f.checkPairs owner target key = .ok pairs ↔
      f.Matches owner key ∧ pairs = key.filterMap (pairFor? f.declaredPairs) := by
  have hcovered : (key.filter fun k => (pairFor? f.declaredPairs k).isNone).isEmpty ↔
      ∀ k ∈ key, k.name ∈ f.declaredPairs.map (·.target) := by
    rw [List.isEmpty_iff, List.filter_eq_nil_iff]
    exact forall₂_congr fun k _ => by rw [pairFor?_isNone_iff, not_not]
  have hmatches : f.Matches owner key ↔
      f.firstProblem? owner target key [] f.declaredPairs = none ∧
        ∀ k ∈ key, k.name ∈ f.declaredPairs.map (·.target) := by
    rw [firstProblem?_eq_none_iff_fits howner hkey htarget]
    constructor
    · rintro ⟨hfits, hsources, hperm⟩
      exact ⟨⟨hfits, hsources, hperm.nodup_iff.2 hkey⟩,
        fun k hk => hperm.mem_iff.2 (List.mem_map_of_mem hk)⟩
    · rintro ⟨⟨hfits, hsources, htargets⟩, hall⟩
      refine ⟨hfits, hsources, (List.perm_ext_iff_of_nodup htargets hkey).2 fun name => ?_⟩
      constructor
      · intro hname
        obtain ⟨p, hp, rfl⟩ := List.mem_map.1 hname
        obtain ⟨-, -, k, hk, -, hkname, -⟩ := hfits p hp
        exact hkname ▸ List.mem_map_of_mem hk
      · intro hname
        obtain ⟨k, hk, rfl⟩ := List.mem_map.1 hname
        exact hall k hk
  rw [hmatches, ← hcovered, checkPairs]
  cases f.firstProblem? owner target key [] f.declaredPairs with
  | some problem => simp
  | none =>
    dsimp only
    by_cases hempty : (key.filter fun k => (pairFor? f.declaredPairs k).isNone).isEmpty
    · simp [hempty, eq_comm]
    · simp [hempty]

/-! ## 4. Pairs in the order of the key -/

theorem mem_of_mem_filterMap_pairFor? {pairs : List Pair} {p : Pair}
    (h : p ∈ key.filterMap (pairFor? pairs)) : p ∈ pairs := by
  obtain ⟨k, -, hfind⟩ := List.mem_filterMap.1 h
  exact List.mem_of_find?_eq_some hfind

namespace Matches

/-- The target of every key column has its pair, so that the pairs stand in the order of the key. -/
theorem map_target_filterMap (h : f.Matches owner key) :
    (key.filterMap (pairFor? f.declaredPairs)).map (·.target) = key.names := by
  rw [List.map_filterMap]
  have hat : ∀ k ∈ key, (pairFor? f.declaredPairs k).map (·.target) = some k.name := by
    intro k hk
    have hname : k.name ∈ f.declaredPairs.map (·.target) :=
      h.targets_perm.mem_iff.2 (List.mem_map_of_mem hk)
    cases hfind : pairFor? f.declaredPairs k with
    | none => exact absurd hname (pairFor?_isNone_iff.1 (by simp [hfind]))
    | some p =>
      have htarget : p.target = k.name := by simpa using List.find?_some hfind
      simp [htarget]
  rw [List.filterMap_congr hat]
  exact congrFun List.filterMap_eq_map key

/-- No pair is lost or made up. -/
theorem filterMap_perm (h : f.Matches owner key) (hkey : key.names.Nodup) :
    (key.filterMap (pairFor? f.declaredPairs)).Perm f.declaredPairs := by
  have htargets : (f.declaredPairs.map (·.target)).Nodup := h.targets_perm.nodup_iff.2 hkey
  have hnodup : (key.filterMap (pairFor? f.declaredPairs)).Nodup :=
    List.Nodup.of_map (·.target) (h.map_target_filterMap ▸ hkey)
  refine (List.perm_ext_iff_of_nodup hnodup (List.Nodup.of_map _ htargets)).2 fun p => ?_
  refine ⟨mem_of_mem_filterMap_pairFor?, fun hp => ?_⟩
  obtain ⟨-, -, k, hk, -, hkname, -⟩ := h.fits p hp
  have hfind := find?_eq_some_of_mem htargets hp
  rw [← hkname] at hfind
  exact List.mem_filterMap.2 ⟨k, hk, hfind⟩

end Matches

/-! ## 5. Pairs on an unfinished owner -/

/-- When every pair fits as soon as its source exists, the check fails at most for want of a
source. -/
theorem firstProblem?_eq_none_or (howner : (owner.columns.map (·.name)).Nodup)
    (hkey : key.names.Nodup) (htarget : ∀ k ∈ key, (target.column? k.name).isSome)
    {earlier rest : List Pair}
    (hfits : ∀ p ∈ rest, owner.column? p.source = none ∨ p.Fits owner f key)
    (hcount : ∀ p ∈ rest, f.declaredPairs.countP (·.source == p.source) ≤ 1)
    (hnodup : (rest.map (·.target)).Nodup)
    (hearlier : ∀ q ∈ earlier, ∀ p ∈ rest, q.target ≠ p.target) :
    f.firstProblem? owner target key earlier rest = none ∨
      ∃ p ∈ rest, owner.column? p.source = none ∧
        f.firstProblem? owner target key earlier rest =
          some (.sourceMissing p.source owner.name) := by
  induction rest generalizing earlier with
  | nil => exact .inl rfl
  | cons p rest ih =>
    rw [List.map_cons, List.nodup_cons] at hnodup
    rcases hfits p List.mem_cons_self with hmissing | hp
    · refine .inr ⟨p, List.mem_cons_self, hmissing, ?_⟩
      simp [firstProblem?, pairProblem?, hmissing]
    · have hnone := (pairProblem?_eq_none_iff howner hkey htarget).2
        ⟨hp, fun q hq => hearlier q hq p List.mem_cons_self, hcount p List.mem_cons_self⟩
      have hrest : f.firstProblem? owner target key (earlier ++ [p]) rest = none ∨
          ∃ q ∈ rest, owner.column? q.source = none ∧
            f.firstProblem? owner target key (earlier ++ [p]) rest =
              some (.sourceMissing q.source owner.name) := ih (fun q hq => hfits q (.tail _ hq))
        (fun q hq => hcount q (.tail _ hq)) hnodup.2 (fun q hq r hr => by
          rcases List.mem_append.1 hq with hq | hq
          · exact hearlier q hq r (.tail _ hr)
          · obtain rfl := List.mem_singleton.1 hq
            exact fun heq => hnodup.1 (List.mem_map.2 ⟨r, hr, heq.symm⟩))
      simp only [firstProblem?, hnone]
      exact hrest.imp_right fun ⟨q, hq, h⟩ => ⟨q, .tail _ hq, h⟩

/-- Pairs that cover the key and fit as far as their sources exist are accepted, unless one of their
sources does not exist yet. -/
theorem checkPairs_eq_ok_or (howner : (owner.columns.map (·.name)).Nodup)
    (hkey : key.names.Nodup) (htarget : ∀ k ∈ key, (target.column? k.name).isSome)
    (hfits : ∀ p ∈ f.declaredPairs, owner.column? p.source = none ∨ p.Fits owner f key)
    (hsources : (f.declaredPairs.map (·.source)).Nodup)
    (htargets : (f.declaredPairs.map (·.target)).Perm key.names) :
    f.checkPairs owner target key = .ok (key.filterMap (pairFor? f.declaredPairs)) ∨
      ∃ p ∈ f.declaredPairs, owner.column? p.source = none ∧ f.checkPairs owner target key =
        .error (.invalidPair owner.name f.field (.sourceMissing p.source owner.name)) := by
  have hnone : ∀ q ∈ ([] : List Pair), ∀ p ∈ f.declaredPairs, q.target ≠ p.target := by simp
  rcases firstProblem?_eq_none_or howner hkey htarget hfits (countP_source_le_one_iff.2 hsources)
    (htargets.nodup_iff.2 hkey) hnone with h | ⟨p, hp, hmissing, h⟩
  · have hall := ((firstProblem?_eq_none_iff_fits howner hkey htarget).1 h).1
    exact .inl ((checkPairs_eq_ok_iff howner hkey htarget).2 ⟨⟨hall, hsources, htargets⟩, rfl⟩)
  · exact .inr ⟨p, hp, hmissing, by simp only [checkPairs, h]⟩

/-! ## 6. The check as a whole -/

theorem error_of_checkPairs {e : Error} (h : f.checkPairs owner target key = .error e) :
    ∃ problem, e = .invalidPair owner.name f.field problem := by
  unfold checkPairs at h
  split at h
  · exact ⟨_, (Except.error.inj h).symm⟩
  · dsimp only at h
    split at h
    · cases h
    · exact ⟨_, (Except.error.inj h).symm⟩

theorem pairFor?_eq_some_iff {pairs : List Pair} (h : (pairs.map (·.target)).Nodup)
    {k : KeyColumn} {p : Pair} : pairFor? pairs k = some p ↔ p ∈ pairs ∧ p.target = k.name := by
  constructor
  · intro hfind
    exact ⟨List.mem_of_find?_eq_some hfind, by simpa using List.find?_some hfind⟩
  · rintro ⟨hp, hname⟩
    rw [pairFor?, ← hname]
    exact find?_eq_some_of_mem h hp

/-- Which pair covers a key column does not depend on the order of the pairs. -/
theorem pairFor?_eq_of_perm {pairs reordered : List Pair} (hperm : reordered.Perm pairs)
    (h : (pairs.map (·.target)).Nodup) (k : KeyColumn) :
    pairFor? reordered k = pairFor? pairs k := by
  have hreordered : (reordered.map (·.target)).Nodup := (hperm.map _).nodup_iff.2 h
  ext p
  rw [pairFor?_eq_some_iff h, pairFor?_eq_some_iff hreordered, hperm.mem_iff]

theorem Matches.reorder (h : f.Matches owner key) {reordered : List Pair}
    (hperm : reordered.Perm f.declaredPairs) :
    ({ f with declaredPairs := reordered } : Reference).Matches owner key where
  fits p hp := h.fits p (hperm.mem_iff.1 hp)
  nodup_sources := (hperm.map _).nodup_iff.2 h.nodup_sources
  targets_perm := (hperm.map _).trans h.targets_perm

/-- Against the key of the target, the check accepts a reference exactly when its pairs match that
key one to one.  It gives back all the declared pairs in the order of the key, in whatever order
they were declared.  A reference that it does not accept is refused as an invalid pair of its
owner. -/
theorem accepts_iff_matches (howner : (owner.columns.map (·.name)).Nodup)
    (htarget : (target.columns.map (·.name)).Nodup) (hkey : target.key = .ok key) :
    ((∃ pairs, f.checkPairs owner target key = .ok pairs) ↔ f.Matches owner key) ∧
    (∀ pairs, f.checkPairs owner target key = .ok pairs →
      pairs.Perm f.declaredPairs ∧ pairs.map (·.target) = key.names ∧
        ∀ reordered : List Pair, reordered.Perm f.declaredPairs →
          ({ f with declaredPairs := reordered } : Reference).checkPairs owner target key =
            .ok pairs) ∧
    ∀ e, f.checkPairs owner target key = .error e →
      ∃ problem, e = .invalidPair owner.name f.field problem := by
  obtain ⟨rfl, -⟩ := Model.key_eq_ok_iff.1 hkey
  have hnames := Model.nodup_names_keyShape htarget
  have hpresent : ∀ k ∈ target.keyShape, (target.column? k.name).isSome := fun _ hk =>
    Model.exists_column?_of_mem_keyShape hk
  refine ⟨⟨?_, fun h => ⟨_, (checkPairs_eq_ok_iff howner hnames hpresent).2 ⟨h, rfl⟩⟩⟩, ?_,
    fun e h => error_of_checkPairs h⟩
  · rintro ⟨pairs, h⟩
    exact ((checkPairs_eq_ok_iff howner hnames hpresent).1 h).1
  · intro pairs h
    obtain ⟨hmatches, rfl⟩ := (checkPairs_eq_ok_iff howner hnames hpresent).1 h
    refine ⟨hmatches.filterMap_perm hnames, hmatches.map_target_filterMap, fun reordered hperm => ?_⟩
    rw [checkPairs_eq_ok_iff howner hnames hpresent]
    refine ⟨hmatches.reorder hperm, ?_⟩
    have htargets : (f.declaredPairs.map (·.target)).Nodup :=
      hmatches.targets_perm.nodup_iff.2 hnames
    exact List.filterMap_congr fun k _ => (pairFor?_eq_of_perm hperm htargets k).symm

/-- A parcel has a number within its district, and a deed names the two the other way round. -/
def parcel : Model where
  name := "Parcel"
  columns :=
    [{ name := "district", type := .text, primaryKey := true },
      { name := "area", type := .real },
      { name := "number", type := .integer, primaryKey := true, nullable := true }]

def deed : Model where
  name := "Deed"
  columns :=
    [{ name := "plot", type := .integer, primaryKey := true, nullable := true },
      { name := "region", type := .text, primaryKey := true, nullable := true }]

def deedParcel : Reference where
  field := "parcel"
  target := "Parcel"
  primaryKey := true
  declaredPairs := [⟨"plot", "number"⟩, ⟨"region", "district"⟩]

theorem accepts_iff_matches_deed :
    (deed.columns.map (·.name)).Nodup ∧ (parcel.columns.map (·.name)).Nodup ∧
      parcel.key = .ok [⟨"district", .text, false⟩, ⟨"number", .integer, true⟩] ∧
      deedParcel.Matches deed [⟨"district", .text, false⟩, ⟨"number", .integer, true⟩] ∧
      ∀ reordered : List Pair, reordered.Perm deedParcel.declaredPairs →
        ({ deedParcel with declaredPairs := reordered } : Reference).checkPairs deed parcel
          [⟨"district", .text, false⟩, ⟨"number", .integer, true⟩] =
            .ok [⟨"region", "district"⟩, ⟨"plot", "number"⟩] := by
  have howner : (deed.columns.map (·.name)).Nodup := by decide
  have htarget : (parcel.columns.map (·.name)).Nodup := by decide
  have hkey : parcel.key = .ok [⟨"district", .text, false⟩, ⟨"number", .integer, true⟩] := rfl
  have hcheck : deedParcel.checkPairs deed parcel
      [⟨"district", .text, false⟩, ⟨"number", .integer, true⟩] =
        .ok [⟨"region", "district"⟩, ⟨"plot", "number"⟩] := rfl
  obtain ⟨haccepts, hpairs, -⟩ := accepts_iff_matches (f := deedParcel) howner htarget hkey
  exact ⟨howner, htarget, hkey, haccepts.1 ⟨_, hcheck⟩, (hpairs _ hcheck).2.2⟩

end Reference

end RelSchema
