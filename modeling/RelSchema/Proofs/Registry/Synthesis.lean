import RelSchema.Proofs.Registry.ColumnLayout

/-!
# Synthesis and its undoing

Names are looked at before anything is added, and what was looked at is all that could go wrong.
The columns of a reference then stand together, at the place where the reference was declared, and
removing them by the field of the reference gives back the model as it was.
-/

namespace RelSchema

namespace Model

variable {m added : Model} {f : Reference} {separator : String} {key : PrimaryKey}

/-! ## 1. Names -/

theorem nodup_map_sourceName (h : key.names.Nodup) (f : Reference) (separator : String) :
    (key.map (f.sourceName separator)).Nodup := by
  have hmap : key.map (f.sourceName separator) =
      key.names.map fun name => f.field ++ separator ++ name := by
    rw [PrimaryKey.names, List.map_map]
    rfl
  rw [hmap]
  exact h.map fun name name' heq => by simpa using heq

/-- No column is refused once none of the names is taken. -/
theorem exists_addSynthesized (hnodup : key.names.Nodup)
    (hfree : ∀ k ∈ key, f.sourceName separator k ∉ m.names) :
    ∃ added, m.addSynthesized (f.sourceColumns separator key) = .ok added ∧
      m.synthesize f separator key = .ok added := by
  have hsynthesize := synthesize_eq_ok_iff.2 ⟨nodup_map_sourceName hnodup f separator, hfree, rfl⟩
  refine ⟨_, ?_, hsynthesize⟩
  have hnone : key.find? (fun k => m.isNameTaken (f.sourceName separator k)) = none := by
    simpa [List.find?_eq_none, isNameTaken] using hfree
  rw [synthesize, hnone] at hsynthesize
  exact hsynthesize

/-- Synthesis fails at the first name that is taken, and for no other reason. -/
theorem synthesize_eq_error_iff (hnodup : key.names.Nodup) {e : Error} :
    m.synthesize f separator key = .error e ↔
      ∃ before k after, key = before ++ k :: after ∧
        (∀ b ∈ before, f.sourceName separator b ∉ m.names) ∧ f.sourceName separator k ∈ m.names ∧
        e = .duplicateColumn m.name (f.sourceName separator k) := by
  cases hfind : key.find? fun k => m.isNameTaken (f.sourceName separator k) with
  | none =>
    have hfree : ∀ k ∈ key, f.sourceName separator k ∉ m.names := by
      simpa [List.find?_eq_none, isNameTaken] using hfind
    obtain ⟨added, -, hsynthesize⟩ := exists_addSynthesized hnodup hfree
    rw [hsynthesize]
    simp only [reduceCtorEq, false_iff]
    rintro ⟨before, k, after, rfl, -, htaken, -⟩
    exact hfree k (by simp) htaken
  | some k =>
    have herror : m.synthesize f separator key =
        .error (.duplicateColumn m.name (f.sourceName separator k)) := by rw [synthesize, hfind]
    rw [herror, Except.error.injEq]
    constructor
    · rintro rfl
      obtain ⟨htaken, before, after, hkey, hfree⟩ := List.find?_eq_some_iff_append.1 hfind
      exact ⟨before, k, after, hkey, by simpa [isNameTaken] using hfree,
        by simpa [isNameTaken] using htaken, rfl⟩
    · rintro ⟨before, k', after, hkey, hfree, htaken, rfl⟩
      -- a search that starts at the front stops at the same column
      have hfirst : key.find? (fun k => m.isNameTaken (f.sourceName separator k)) = some k' :=
        List.find?_eq_some_iff_append.2 ⟨by simpa [isNameTaken] using htaken, before, after, hkey,
          by simpa [isNameTaken] using hfree⟩
      rw [Option.some.inj (hfind.symm.trans hfirst)]

/-! ## 2. Places -/

/-- The columns of a model and those with new ones among them: the new ones stand between what is
due to the declarations on either side. -/
structure Inserts (m added : Model) (new : List Column) (before after : List Declaration) :
    Prop where
  columns_eq : m.columns = before.flatMap m.columnsDue ++ after.flatMap m.columnsDue
  added_eq : added.columns = before.flatMap m.columnsDue ++ new ++ after.flatMap m.columnsDue

section Around

variable {before after : List Declaration}

/-- No other declaration has the field of a reference. -/
theorem Laid.field_ne_of_declarations (h : m.Laid)
    (hsplit : m.declarations = before ++ .reference f :: after) {r : Reference}
    (hr : .reference r ∈ before ++ after) : r.field ≠ f.field := by
  have hreferences : m.references = referencesOf before ++ f :: referencesOf after := by
    rw [← referencesOf_declarations, hsplit, referencesOf_append]
    rfl
  have hmem : r ∈ referencesOf before ++ referencesOf after := by
    rw [← referencesOf_append]
    exact List.mem_filterMap.2 ⟨_, hr, rfl⟩
  have hnodup := h.nodup_fields
  rw [hreferences, List.map_append, List.map_cons, List.nodup_middle, List.nodup_cons,
    ← List.map_append] at hnodup
  exact fun heq => hnodup.1 (heq ▸ List.mem_map_of_mem hmem)

theorem Laid.columns_around (h : m.Laid) (hopen : f.resolution = none)
    (hsplit : m.declarations = before ++ .reference f :: after)
    (hs : m.synthesize f separator key = .ok added) :
    m.columns = before.flatMap Declaration.columns ++ after.flatMap Declaration.columns ∧
      added.columns = before.flatMap Declaration.columns ++ f.columnsFor separator key ++
        after.flatMap Declaration.columns := by
  have hempty := Reference.broughtColumns_of_unresolved hopen
  have hf : f ∈ m.references := reference_mem_declarations.1 (hsplit ▸ by simp)
  -- all other declarations have what they had
  have hothers : ∀ d ∈ before ++ after,
      d.columnsWith f.field (f.columnsFor separator key) = d.columns := by
    intro d hd
    cases d with
    | column c => rfl
    | reference r => exact if_neg (h.field_ne_of_declarations hsplit hd)
  constructor
  · conv_lhs => rw [h.columns_eq, hsplit, List.flatMap_append, List.flatMap_cons]
    rw [Declaration.columns, hempty, List.nil_append]
  · rw [h.columns_of_synthesize hf hempty hs, hsplit, List.flatMap_append, List.flatMap_cons,
      List.flatMap_congr fun d hd => hothers d (List.mem_append_left _ hd),
      List.flatMap_congr fun d hd => hothers d (List.mem_append_right _ hd),
      Declaration.columnsWith, if_pos rfl, List.append_assoc]

theorem Laid.flatMap_columnsDue (h : m.Laid) {ds : List Declaration}
    (hds : ∀ d ∈ ds, d ∈ m.declarations) :
    (ds.map Declaration.handedIn).flatMap m.columnsDue = ds.flatMap Declaration.columns := by
  rw [List.flatMap_map]
  exact List.flatMap_congr fun d hd => h.columnsDue_handedIn (hds d hd)

/-- The columns of a reference join the model at the place of its declaration. -/
theorem Laid.inserts (h : m.Laid) (hf : f ∈ m.references) (hopen : f.resolution = none)
    (hcalls : m.bare.DeclaredBy (before ++ .reference f.handedIn :: after))
    (hs : m.synthesize f separator key = .ok added) :
    m.Inserts added (f.columnsFor separator key) before after := by
  obtain ⟨before', rest, hsplit, rfl, hrest⟩ := List.map_eq_append_iff.1 hcalls.map_handedIn_of_bare
  obtain ⟨d, after', rfl, hd, rfl⟩ := List.map_eq_cons_iff.1 hrest
  -- what was handed in as this reference is this reference
  obtain rfl : d = .reference f := by
    cases d with
    | column c => cases hd
    | reference g =>
      have hg : g ∈ m.references := reference_mem_declarations.1 (hsplit ▸ by simp)
      have hhanded : g.handedIn = f.handedIn := Declaration.reference.inj hd
      have hfield : g.field = f.field :=
        (congrArg Reference.field hhanded : g.handedIn.field = f.handedIn.field)
      rw [h.reference_inj hg hf hfield]
  obtain ⟨hcolumns, hadded⟩ := h.columns_around hopen hsplit hs
  refine ⟨?_, ?_⟩
  · rw [h.flatMap_columnsDue fun d hd => hsplit ▸ by simp [hd],
      h.flatMap_columnsDue fun d hd => hsplit ▸ by simp [hd], hcolumns]
  · rw [h.flatMap_columnsDue fun d hd => hsplit ▸ by simp [hd],
      h.flatMap_columnsDue fun d hd => hsplit ▸ by simp [hd], hadded]

end Around

theorem exists_declaredBy_around {calls : List Declaration} (hf : f ∈ m.references)
    (hcalls : m.bare.DeclaredBy calls) :
    ∃ before after, m.bare.DeclaredBy (before ++ .reference f.handedIn :: after) := by
  obtain ⟨before, after, hsplit⟩ := List.append_of_mem (reference_mem_declarations.2 hf)
  have hhanded := hcalls.map_handedIn_of_bare
  rw [hsplit, List.map_append, List.map_cons] at hhanded
  exact ⟨_, _, hhanded ▸ hcalls⟩

/-! ## 3. Undoing -/

/-- Removing what synthesis has added leaves what was there. -/
theorem Laid.removeSynthesized_of_synthesize (h : m.Laid) (hf : f ∈ m.references)
    (hopen : f.resolution = none) (hs : m.synthesize f separator key = .ok added) :
    added.synthesizedCount f.field = key.length ∧ added.removeSynthesized f.field = m := by
  obtain ⟨before, after, hsplit⟩ := List.append_of_mem (reference_mem_declarations.2 hf)
  obtain ⟨hcolumns, hadded⟩ := h.columns_around hopen hsplit hs
  -- the mark of the field is on the new columns and on no others
  have hnew : ∀ c ∈ f.columnsFor separator key, c.isMarkedBy f.field := fun c hc => by
    rw [Column.isMarkedBy, synthesizedBy_of_mem_columnsFor hc, beq_self_eq_true]
  have hold : ∀ c ∈ m.columns, c.isMarkedBy f.field = false := by
    have hnone := h.filter_isMarkedBy hf
    rw [Reference.broughtColumns_of_unresolved hopen, List.filter_eq_nil_iff] at hnone
    exact fun c hc => Bool.not_eq_true _ ▸ hnone c hc
  rw [hcolumns] at hold
  have hbefore := fun c hc => hold c (List.mem_append_left _ hc)
  have hafter := fun c hc => hold c (List.mem_append_right _ hc)
  constructor
  · rw [synthesizedCount, hadded, List.countP_append, List.countP_append,
      List.countP_eq_zero.2 fun c hc => by simp [hbefore c hc], List.countP_eq_length.2 hnew,
      List.countP_eq_zero.2 fun c hc => by simp [hafter c hc], Reference.columnsFor,
      List.length_map, Nat.zero_add, Nat.add_zero]
  · have hleft : added.columns.filter (!·.isMarkedBy f.field) = m.columns := by
      rw [hadded, hcolumns, List.filter_append, List.filter_append,
        List.filter_eq_self.2 fun c hc => by simp [hbefore c hc],
        List.filter_eq_nil_iff.2 fun c hc => by simp [hnew c hc],
        List.filter_eq_self.2 fun c hc => by simp [hafter c hc], List.append_nil]
    have hrest : added = { m with columns := added.columns } := by
      obtain ⟨-, -, rfl⟩ := synthesize_eq_ok_iff.1 hs
      rfl
    rw [removeSynthesized, hleft, hrest]

end Model

/-! ## 4. Runs -/

namespace Registry

/-- The second registry comes about while the first one is resolved: resolutions have been dropped
and references settled, some or none of them so far. -/
def Underway : Registry → Registry → Prop :=
  Relation.ReflTransGen fun r s =>
    (∃ id, s = r.drop id) ∨ ∃ separator id, Step separator r id s

variable {r s : Registry}

theorem Steps.underway {separator : String} (h : Steps separator r s) : r.Underway s := by
  induction h with
  | refl => exact .refl
  | tail _ hstep ih => exact ih.tail (.inr ⟨separator, hstep⟩)

theorem Underway.sound (h : r.Underway s) (hr : r.Sound) : s.Sound := by
  induction h with
  | refl => exact hr
  | tail _ hstep ih =>
    rcases hstep with ⟨id, rfl⟩ | ⟨separator, id, hstep⟩
    · exact ih.drop id
    · exact hstep.sound ih

theorem Underway.map_bare_eq (h : r.Underway s) :
    s.models.map Model.bare = r.models.map Model.bare := by
  induction h with
  | refl => rfl
  | tail _ hstep ih =>
    rcases hstep with ⟨id, rfl⟩ | ⟨separator, id, hstep⟩
    · exact (map_drop bare_of_drop _ id).trans ih
    · exact hstep.map_bare_eq.trans ih

/-- A run does not touch what the models declare. -/
theorem standing?_of_underway {operations : List Operation} (hfresh : ∀ o ∈ operations, o.Fresh)
    (h : (after operations).Underway r) {m : Model} (hm : m ∈ r.models) :
    standing? operations m.name = some m.bare := by
  have hdeclared : r.declared? m.name = (after operations).declared? m.name := by
    rw [declared?, declared?, h.map_bare_eq]
  rw [← declared?_after_eq_standing? hfresh, ← hdeclared,
    (h.sound (sound_after hfresh)).declared?_eq_some_iff]
  exact ⟨m, hm, rfl, rfl⟩

/-- In every registry that a history leads to, and at every point of a run on it: synthesis for an
unresolved reference fails if and only if one of the names is taken, and says which one is the
first.  Otherwise the columns are added at the place where the reference was declared, and removing
them by its field gives back the model. -/
theorem synthesize_of_underway {operations : List Operation} (hfresh : ∀ o ∈ operations, o.Fresh)
    (h : (after operations).Underway r) {m : Model} (hm : m ∈ r.models) {f : Reference}
    (hf : f ∈ m.references) (hopen : f.resolution = none) {key : PrimaryKey}
    (hnodup : key.names.Nodup) (separator : String) :
    ((∃ e, m.synthesize f separator key = .error e) ↔
      ∃ k ∈ key, f.sourceName separator k ∈ m.names) ∧
    (∀ e, m.synthesize f separator key = .error e ↔
      ∃ before k after, key = before ++ k :: after ∧
        (∀ b ∈ before, f.sourceName separator b ∉ m.names) ∧ f.sourceName separator k ∈ m.names ∧
        e = .duplicateColumn m.name (f.sourceName separator k)) ∧
    ((∀ k ∈ key, f.sourceName separator k ∉ m.names) →
      ∃ added, m.addSynthesized (f.sourceColumns separator key) = .ok added ∧
        m.synthesize f separator key = .ok added ∧
        (∃ declared, standing? operations m.name = some declared ∧
          (∃ before after, declared.DeclaredBy (before ++ .reference f.handedIn :: after)) ∧
          ∀ before after, declared.DeclaredBy (before ++ .reference f.handedIn :: after) →
            m.Inserts added (f.columnsFor separator key) before after) ∧
        added.synthesizedCount f.field = key.length ∧ added.removeSynthesized f.field = m) := by
  have hlaid := (h.sound (sound_after hfresh)).laid m hm
  refine ⟨⟨?_, ?_⟩, fun e => Model.synthesize_eq_error_iff hnodup, fun hfree => ?_⟩
  · rintro ⟨e, he⟩
    obtain ⟨before, k, after, rfl, -, htaken, -⟩ := (Model.synthesize_eq_error_iff hnodup).1 he
    exact ⟨k, by simp, htaken⟩
  · rintro ⟨k, hk, htaken⟩
    cases hs : m.synthesize f separator key with
    | error e => exact ⟨e, rfl⟩
    | ok added => exact absurd htaken ((Model.synthesize_eq_ok_iff.1 hs).2.1 k hk)
  · obtain ⟨added, hadd, hs⟩ := Model.exists_addSynthesized hnodup hfree
    have hstands := standing?_of_underway hfresh h hm
    obtain ⟨calls, hcalls⟩ := (fresh_of_standing? hfresh hstands).exists_calls
    exact ⟨added, hadd, hs,
      ⟨m.bare, hstands, Model.exists_declaredBy_around hf hcalls,
        fun before after hsplit => hlaid.inserts hf hopen hsplit hs⟩,
      hlaid.removeSynthesized_of_synthesize hf hopen hs⟩

/-- A flight and the cities that it goes to. -/
def flightAndCities : List Operation :=
  [.register flight,
    .register (Model.ofFields "City"
      [.column { name := "name", type := .text, primaryKey := true }])]

theorem fresh_flightAndCities : ∀ o ∈ flightAndCities, o.Fresh := by
  simp only [flightAndCities, List.forall_mem_cons, List.not_mem_nil, false_imp_iff, implies_true,
    and_true]
  exact ⟨Model.fresh_ofFields _ _ (by decide), Model.fresh_ofFields _ _ (by decide)⟩

/-- The origin has been resolved when the columns of the destination are added. -/
theorem removeSynthesized_flightAndCities :
    ∃ r m f added, (after flightAndCities).Underway r ∧ r.get? 0 = some m ∧
      m.references[1]? = some f ∧
      m.columns.map (·.name) = ["number", "origin_name", "departure"] ∧
      m.synthesize f "_" [⟨"name", .text, false⟩] = .ok added ∧
      added.columns.map (·.name) = ["number", "origin_name", "destination_name", "departure"] ∧
      added.removeSynthesized f.field = m := by
  have hpass : ∃ r m f added, (pass "_" (after flightAndCities) [⟨0, 0⟩]).result = .ok (r, []) ∧
      r.get? 0 = some m ∧ m.references[1]? = some f ∧ f.resolution = none ∧
      m.columns.map (·.name) = ["number", "origin_name", "departure"] ∧
      m.synthesize f "_" [⟨"name", .text, false⟩] = .ok added ∧
      added.columns.map (·.name) = ["number", "origin_name", "destination_name", "departure"] :=
    ⟨_, _, _, _, rfl, rfl, rfl, rfl, by decide, rfl, by decide⟩
  obtain ⟨r, m, f, added, hpass, hm, hf, hopen, hcolumns, hs, hadded⟩ := hpass
  have horigin : (after flightAndCities).IsOpen ⟨0, 0⟩ := ⟨_, rfl, rfl⟩
  have hsteps := (steps_of_pass (by simpa using horigin) (List.nodup_singleton _) hpass).1
  have hnodup : PrimaryKey.names [⟨"name", .text, false⟩] |>.Nodup := by decide
  obtain ⟨-, -, hok⟩ := synthesize_of_underway fresh_flightAndCities hsteps.underway
    (mem_of_get? hm) (List.mem_of_getElem? hf) hopen hnodup "_"
  obtain ⟨added', -, hs', -, -, hundone⟩ := hok (Model.synthesize_eq_ok_iff.1 hs).2.1
  obtain rfl := Except.ok.inj (hs.symm.trans hs')
  exact ⟨r, m, f, added, hsteps.underway, hm, hf, hcolumns, hs, hadded, hundone⟩

end Registry

end RelSchema
