import RelSchema.Proofs.Model.Retention
import RelSchema.Proofs.Registry.ColumnLayout
import RelSchema.Proofs.Registry.WellFormed

/-!
# Added columns in a registry

Columns are added to a model before it is handed in, and a clone of a synthesized column still has
its mark.  A resolution takes such a column away when it drops the reference of the model that the
mark names, whoever has synthesized the column.  All other added columns stay, and they stay in
order unless they are arranged.
-/

namespace RelSchema

/-! ## 1. Models built from columns of any origin -/

/-- A model that was made under a name and has since been given a table name, columns of any origin
and fresh references. -/
inductive Model.Built : Model → Prop
  | new (name : String) : Model.Built { name := name }
  | named {m : Model} (h : m.Built) (table : String) :
      Model.Built { m with tableName := some table }
  | addColumn {m added : Model} {c : Column} (h : m.Built) (hadd : m.addColumn c = .ok added) :
      added.Built
  | addReference {m added : Model} {f : Reference} (h : m.Built) (hf : f.Fresh)
      (hadd : m.addReference f = .ok added) : added.Built

/-- A model is handed in that was built in this way. -/
def Operation.Built : Operation → Prop
  | .register m => m.Built
  | .replace m => m.Built
  | .resolve _ => True

theorem Model.built_ofFields (name : String) (fields : List Declaration)
    (h : ∀ f, .reference f ∈ fields → f.Fresh) : (Model.ofFields name fields).Built := by
  refine List.foldlRecOn (motive := Model.Built) fields _ (.new name) fun m hm d hd => ?_
  cases hadd : m.declare d with
  | error e => exact hm
  | ok added =>
    cases d with
    | column c => exact hm.addColumn hadd
    | reference f => exact hm.addReference (h f hd) hadd

namespace Model.Built

variable {m : Model}

theorem nodup_names (h : m.Built) : m.names.Nodup := by
  induction h with
  | new name => exact List.nodup_nil
  | named _ table ih => exact ih
  | addColumn _ hadd ih => exact nodup_names_declare (d := .column _) hadd ih
  | addReference _ _ hadd ih => exact nodup_names_declare (d := .reference _) hadd ih

theorem resolution_eq_none (h : m.Built) : ∀ f ∈ m.references, f.resolution = none := by
  induction h with
  | new name => simp
  | named _ table ih => exact ih
  | addColumn _ hadd ih =>
    obtain ⟨-, rfl⟩ := addColumn_eq_ok_iff.1 hadd
    exact ih
  | addReference _ hf hadd ih =>
    obtain ⟨-, rfl⟩ := addReference_eq_ok_iff.1 hadd
    intro g hg
    rcases List.mem_append.1 hg with hg | hg
    · exact ih g hg
    · obtain rfl := List.mem_singleton.1 hg
      exact hf.1

theorem id_eq_none (h : m.Built) : m.id = none := by
  induction h with
  | new name => rfl
  | named _ table ih => exact ih
  | addColumn _ hadd ih =>
    obtain ⟨-, rfl⟩ := addColumn_eq_ok_iff.1 hadd
    exact ih
  | addReference _ _ hadd ih =>
    obtain ⟨-, rfl⟩ := addReference_eq_ok_iff.1 hadd
    exact ih

/-- An added column is flagged as it was declared. -/
theorem map_bare_columns (h : m.Built) : m.columns.map Column.bare = m.columns := by
  induction h with
  | new name => rfl
  | named _ table ih => exact ih
  | addColumn _ hadd ih =>
    obtain ⟨-, rfl⟩ := addColumn_eq_ok_iff.1 hadd
    exact List.map_append.trans (congrArg (· ++ _) ih)
  | addReference _ _ hadd ih =>
    obtain ⟨-, rfl⟩ := addReference_eq_ok_iff.1 hadd
    exact ih

theorem stripped_eq (h : m.Built) (id : Option ModelId) :
    ({ m with id := id } : Model).stripped = m := by
  have hreferences : m.references.map Reference.bare = m.references := by
    refine (List.map_congr_left fun f hf => ?_).trans (List.map_id _)
    rw [Reference.bare, ← h.resolution_eq_none f hf, id_eq]
  rw [stripped]
  dsimp only
  rw [h.map_bare_columns, hreferences, ← h.id_eq_none]

/-- Handed in, the model has all that was added to it. -/
theorem keepsAllBut (h : m.Built) (id : Option ModelId) {lost : String → Prop}
    (hnone : ∀ field, ¬lost field) : ({ m with id := id } : Model).KeepsAllBut lost m := by
  refine ⟨m.columns, ?_, .refl _, fun c hc => iff_of_true hc fun field _ => hnone field⟩
  have hretains : ({ m with id := id } : Model).Retains ({ m with id := id } : Model).stripped :=
    .of_open h.resolution_eq_none
  rwa [h.stripped_eq id] at hretains

end Model.Built

namespace Registry

variable {separator : String} {r s t : Registry} {id : ReferenceId} {i : ModelId} {n : Model}

/-! ## 2. One resolution -/

/-- The reference of the field is resolved in `r` but no longer in `s`. -/
def Drops (r s : Registry) (i : ModelId) (field : String) : Prop :=
  ∃ index f, r.reference? ⟨i, index⟩ = some f ∧ f.field = field ∧ f.isResolved ∧ s.IsOpen ⟨i, index⟩

theorem isOpen_drop_iff {f : Reference} (hf : r.reference? id = some f) (id' : ReferenceId) :
    (r.drop id).IsOpen id' ↔ id' = id ∨ r.IsOpen id' := by
  unfold IsOpen
  rw [reference?_drop]
  by_cases hid : id' = id
  · subst hid
    simp [hf, Reference.bare]
  · simp [hid]

/-- Another reference is dropped. -/
theorem drops_drop_iff {f : Reference} {field : String} (hbefore : r.reference? id = some f)
    (hf : t.reference? id = some f) (hres : f.isResolved) :
    r.Drops (t.drop id) i field ↔ r.Drops t i field ∨ id.model = i ∧ field = f.field := by
  constructor
  · rintro ⟨index, g, hg, hfield, hgres, hopen⟩
    rcases (isOpen_drop_iff hf _).1 hopen with rfl | hopen
    · obtain rfl := Option.some.inj (hg.symm.trans hbefore)
      exact .inr ⟨rfl, hfield.symm⟩
    · exact .inl ⟨index, g, hg, hfield, hgres, hopen⟩
  · rintro (⟨index, g, hg, hfield, hgres, hopen⟩ | ⟨rfl, hfield⟩)
    · exact ⟨index, g, hg, hfield, hgres, (isOpen_drop_iff hf _).2 (.inr hopen)⟩
    · exact ⟨id.index, f, hbefore, hfield.symm, hres, (isOpen_drop_iff hf _).2 (.inl rfl)⟩

/-- From `r` to `t` references have lost their resolutions, and models the added columns with the
marks of these references. -/
structure Thinned (r t : Registry) : Prop where
  nodup_fields : t.NodupFields
  reference?_eq : ∀ id f, t.reference? id = some f → f.isResolved → r.reference? id = some f
  keeps : ∀ i n, t.get? i = some n → ∃ m, r.get? i = some m ∧ m.name = n.name ∧
    ∀ lost declared, m.KeepsAllBut lost declared →
      n.KeepsAllBut (fun field => lost field ∨ r.Drops t i field) declared

namespace Thinned

theorem refl (hr : r.NodupFields) : r.Thinned r := by
  refine ⟨hr, fun _ _ hf _ => hf, fun i n hn => ⟨n, hn, rfl, fun lost declared hkeeps => ?_⟩⟩
  refine hkeeps.congr fun field => or_iff_left ?_
  rintro ⟨index, f, hf, -, hres, g, hg, hopen⟩
  obtain rfl := Option.some.inj (hf.symm.trans hg)
  rw [Reference.isResolved, hopen] at hres
  cases hres

theorem drop {f : Reference} (h : r.Thinned t) (hf : t.reference? id = some f)
    (hres : f.isResolved) : r.Thinned (t.drop id) := by
  have hbefore := h.reference?_eq id f hf hres
  obtain ⟨owner, howner, hindex⟩ := reference?_eq_some_iff.1 hf
  refine ⟨h.nodup_fields.drop id, fun id' g hg hres' => ?_, fun i n hn => ?_⟩
  · rw [reference?_drop] at hg
    split at hg
    · obtain ⟨g', -, rfl⟩ := Option.map_eq_some_iff.1 hg
      simp [Reference.isResolved, Reference.bare] at hres'
    · exact h.reference?_eq id' g hg hres'
  · rw [drop_eq_modify hf, get?_modify] at hn
    by_cases hi : id.model = i
    · subst hi
      rw [if_pos rfl, howner, Option.map_some, Option.some.injEq] at hn
      obtain ⟨m, hm, hname, hkeeps⟩ := h.keeps id.model owner howner
      subst hn
      refine ⟨m, hm, hname, fun lost declared hdeclared => ?_⟩
      have hfields : (owner.references.map (·.field)).Nodup :=
        (List.nodup_append.1 (h.nodup_fields owner (mem_of_get? howner))).2.1
      refine ((hkeeps lost declared hdeclared).drop hfields hindex).congr fun field => ?_
      rw [drops_drop_iff hbefore hf hres, or_assoc]
      simp
    · rw [if_neg hi] at hn
      obtain ⟨m, hm, hname, hkeeps⟩ := h.keeps i n hn
      refine ⟨m, hm, hname, fun lost declared hdeclared => ?_⟩
      refine (hkeeps lost declared hdeclared).congr fun field => ?_
      rw [drops_drop_iff hbefore hf hres]
      simp [hi]

end Thinned

theorem thinned_withoutStale (hr : r.NodupFields) : r.Thinned r.withoutStale :=
  withoutStale_induction (fun _ _ _ hf hres h => h.drop hf hres) (.refl hr)

/-- Resolving a reference leaves all that was added. -/
theorem Step.keepsAllBut (hr : r.NodupFields) (h : Step separator r id s) (hn : s.get? i = some n) :
    ∃ m, r.get? i = some m ∧ m.name = n.name ∧
      ∀ lost declared, m.KeepsAllBut lost declared → n.KeepsAllBut lost declared := by
  obtain @⟨owner, target, settled, f, resolution, howner, hf, hopen, -, -, -, hsettle⟩ := h
  rw [get?_modify] at hn
  by_cases hi : id.model = i
  · subst hi
    rw [if_pos rfl, howner, Option.map_some, Option.some.injEq] at hn
    subst hn
    have hname : owner.name = settled.name :=
      (Model.name_eq_of_bare_eq (f.bare_of_settle hsettle)).symm
    have hfields : (owner.references.map (·.field)).Nodup :=
      (List.nodup_append.1 (hr owner (mem_of_get? howner))).2.1
    refine ⟨owner, howner, hname, fun lost declared hdeclared => ?_⟩
    obtain ⟨kept, hretains, hrest⟩ := hdeclared
    refine ⟨kept, ?_, hrest⟩
    cases himplicit : f.isImplicit with
    | true =>
      obtain ⟨hsynthesize, hpairs⟩ := (f.settle_eq_ok_iff_of_implicit himplicit).1 hsettle
      have hresolution : resolution =
          ⟨resolution.target, resolution.key, f.sourcePairs separator resolution.key⟩ := by
        rw [← hpairs]
      rw [hresolution]
      exact hretains.setResolution_of_synthesize hfields hf hopen himplicit hsynthesize _
    | false =>
      obtain ⟨-, rfl⟩ := (f.settle_eq_ok_iff_of_explicit himplicit).1 hsettle
      exact hretains.setResolution_of_explicit hfields hf himplicit _
  · rw [if_neg hi] at hn
    exact ⟨n, hn, rfl, fun _ _ hkeeps => hkeeps⟩

theorem Steps.keepsAllBut (hr : r.NodupFields) (h : Steps separator r s) (hn : s.get? i = some n) :
    ∃ m, r.get? i = some m ∧ m.name = n.name ∧
      ∀ lost declared, m.KeepsAllBut lost declared → n.KeepsAllBut lost declared := by
  induction h generalizing n with
  | refl => exact ⟨n, hn, rfl, fun _ _ hkeeps => hkeeps⟩
  | tail hsteps hstep ih =>
    obtain ⟨m, hm, hname, hlast⟩ := hstep.choose_spec.keepsAllBut (hr.steps hsteps) hn
    obtain ⟨m', hm', hname', hfirst⟩ := ih hm
    exact ⟨m', hm', hname'.trans hname, fun lost declared hkeeps =>
      hlast lost declared (hfirst lost declared hkeeps)⟩

/-- A resolution loses the added columns that have the mark of a reference which it drops. -/
theorem keepsAllBut_of_resolve (hr : r.NodupFields) (h : (r.resolve separator).result = .ok s)
    (hn : s.get? i = some n) :
    ∃ m, r.get? i = some m ∧ m.name = n.name ∧ ∀ lost declared, m.KeepsAllBut lost declared →
      n.KeepsAllBut (fun field => lost field ∨ r.Drops r.withoutStale i field) declared := by
  have hthinned := thinned_withoutStale hr
  obtain ⟨hsteps, -, -⟩ := steps_of_resolveAll (resolveAll_of_resolve h)
  obtain ⟨m, hm, hname, hthen⟩ := hsteps.keepsAllBut hthinned.nodup_fields hn
  obtain ⟨m', hm', hname', hfirst⟩ := hthinned.keeps i m hm
  exact ⟨m', hm', hname'.trans hname, fun lost declared hkeeps =>
    hthen _ declared (hfirst lost declared hkeeps)⟩

end Registry

/-! ## 3. Histories -/

theorem standing?_append_singleton (operations : List Operation) (operation : Operation)
    (name : String) :
    standing? (operations ++ [operation]) name =
      operation.standing name (standing? operations name) := by
  rw [standing?, List.foldl_append]
  rfl

theorem Operation.isSome_standing_iff (operation : Operation) (name : String)
    (current : Option Model) :
    (operation.standing name current).isSome ↔
      current.isSome ∨ ∃ m, operation = .register m ∧ m.name = name := by
  cases operation with
  | register m => by_cases hname : m.name = name <;> cases current <;> simp [standing, hname]
  | replace m => by_cases hname : m.name = name <;> cases current <;> simp [standing, hname]
  | resolve separator => simp [standing]

namespace Registry

variable {operations : List Operation} {separator : String} {r s : Registry} {name field : String}

theorem contains_perform_iff (r : Registry) (operation : Operation) (name : String) :
    (r.perform operation).contains name ↔
      r.contains name ∨ ∃ m, operation = .register m ∧ m.name = name := by
  cases operation with
  | register m =>
    cases hcontains : r.contains m.name with
    | true =>
      rw [perform_register_of_contains hcontains]
      refine (or_iff_left_of_imp ?_).symm
      rintro ⟨_, ⟨⟩, rfl⟩
      exact hcontains
    | false => simp [perform_register hcontains, contains]
  | replace m =>
    have hnames : (r.perform (.replace m)).models.map (·.name) = r.models.map (·.name) := by
      cases hid : r.idOf m.name with
      | none => rw [perform_replace_of_not_contains (idOf_eq_none_iff.1 hid)]
      | some id =>
        obtain ⟨hlt, hname, -⟩ := List.findIdx?_eq_some_iff_getElem.1 hid
        rw [perform_replace hid]
        exact map_modify (List.getElem?_eq_getElem hlt) (beq_iff_eq.1 hname).symm
    rw [contains_congr hnames]
    simp
  | resolve separator =>
    have hnames : (r.perform (.resolve separator)).models.map (·.name) = r.models.map (·.name) := by
      cases h : (r.resolve separator).result with
      | error e => simp only [perform, h]
      | ok s =>
        have hsteps := (steps_of_resolveAll (resolveAll_of_resolve h)).1
        simp only [perform, h]
        exact map_name_eq_of_map_bare_eq (hsteps.map_bare_eq.trans (map_bare_withoutStale r))
    rw [contains_congr hnames]
    simp

/-- A name is in use as long as a declaration stands for it. -/
theorem contains_after_iff (operations : List Operation) (name : String) :
    (after operations).contains name ↔ (standing? operations name).isSome := by
  induction operations using List.reverseRecOn with
  | nil => simp [after, contains, standing?]
  | append_singleton operations operation ih =>
    rw [after_append_singleton, contains_perform_iff, ih, standing?_append_singleton,
      operation.isSome_standing_iff]

/-- A successful resolution after the operations drops the reference of the field. -/
def DroppedBy (operations : List Operation) (separator name field : String) : Prop :=
  ∃ s i m, ((after operations).resolve separator).result = .ok s ∧
    (after operations).get? i = some m ∧ m.name = name ∧
    (after operations).Drops (after operations).withoutStale i field

/-- Since the model of the name was handed in, a resolution has dropped its reference of the
field. -/
def Lost (operations : List Operation) (name field : String) : Prop :=
  ∃ earlier separator later, operations = earlier ++ .resolve separator :: later ∧
    DroppedBy earlier separator name field ∧ ∀ m, .replace m ∈ later → m.name ≠ name

theorem lost_append_singleton_iff {operation : Operation} :
    Lost (operations ++ [operation]) name field ↔
      (Lost operations name field ∧ ∀ m, operation = .replace m → m.name ≠ name) ∨
        ∃ separator, operation = .resolve separator ∧ DroppedBy operations separator name field := by
  constructor
  · rintro ⟨earlier, separator, later, heq, hdropped, hkept⟩
    rcases List.eq_nil_or_concat later with rfl | ⟨later, last, rfl⟩
    · obtain ⟨rfl, hlast⟩ := List.append_inj' heq rfl
      exact .inr ⟨separator, List.singleton_inj.1 hlast, hdropped⟩
    · rw [List.concat_eq_append, ← List.cons_append, ← List.append_assoc] at heq
      obtain ⟨rfl, hlast⟩ := List.append_inj' heq rfl
      obtain rfl := List.singleton_inj.1 hlast
      refine .inl ⟨⟨earlier, separator, later, rfl, hdropped, fun m hm => hkept m ?_⟩, ?_⟩
      · simp [hm]
      · rintro m rfl
        exact hkept m (by simp)
  · rintro (⟨⟨earlier, separator, later, rfl, hdropped, hkept⟩, hlast⟩ | ⟨separator, rfl, hdropped⟩)
    · refine ⟨earlier, separator, later ++ [operation], by simp, hdropped, fun m hm => ?_⟩
      rcases List.mem_append.1 hm with hm | hm
      · exact hkept m hm
      · exact hlast m (List.mem_singleton.1 hm).symm
    · exact ⟨operations, separator, [], rfl, hdropped, by simp⟩

theorem Lost.isSome_standing? (h : Lost operations name field) :
    (standing? operations name).isSome := by
  obtain ⟨earlier, separator, later, rfl, ⟨_, i, m, -, hm, rfl, -⟩, -⟩ := h
  have hearlier : (standing? earlier m.name).isSome :=
    (contains_after_iff earlier m.name).1 (contains_iff.2 ⟨m, mem_of_get? hm, rfl⟩)
  rw [standing?, List.foldl_append]
  exact List.foldlRecOn (motive := fun current : Option Model => current.isSome) _ _ hearlier
    fun _ hcurrent _ _ => (Operation.isSome_standing_iff _ _ _).2 (.inl hcurrent)

/-! ## 4. What is left of added columns -/

theorem wellFormed_after (hbuilt : ∀ o ∈ operations, o.Built) : (after operations).WellFormed :=
  List.foldlRecOn (motive := fun r : Registry => r.WellFormed) operations Registry.perform .empty
    fun _ hr o ho => hr.perform <| by
      have hown := hbuilt o ho
      cases o with
      | register m => exact Model.Built.nodup_names hown
      | replace m => exact Model.Built.nodup_names hown
      | resolve separator => trivial

/-- The model keeps what was added to the declaration that stands for its name, up to the columns
with the marks of references that have been dropped since. -/
def Accounted (operations : List Operation) (m : Model) : Prop :=
  ∃ declared, standing? operations m.name = some declared ∧ declared.Built ∧
    m.KeepsAllBut (Lost operations m.name) declared

namespace Accounted

variable {operation : Operation} {m given : Model}

/-- An operation that is not about the model changes nothing for it. -/
theorem append (h : Accounted operations m)
    (hstanding : ∀ current : Model, operation.standing m.name (some current) = some current)
    (hlost : ∀ field, Lost (operations ++ [operation]) m.name field ↔
      Lost operations m.name field) : Accounted (operations ++ [operation]) m := by
  obtain ⟨declared, hstands, hdeclared, hkeeps⟩ := h
  refine ⟨declared, ?_, hdeclared, hkeeps.congr hlost⟩
  rw [standing?_append_singleton, hstands, hstanding]

theorem of_given (hgiven : given.Built) (id : Option ModelId)
    (hstands : standing? operations given.name = some given)
    (hlost : ∀ field, ¬Lost operations given.name field) :
    Accounted operations { given with id := id } :=
  ⟨given, hstands, hgiven, hgiven.keepsAllBut id hlost⟩

theorem register (h : ∀ m ∈ (after operations).models, Accounted operations m)
    (hgiven : given.Built) :
    ∀ m ∈ ((after operations).perform (.register given)).models,
      Accounted (operations ++ [.register given]) m := by
  have hlost : ∀ name field, Lost (operations ++ [.register given]) name field ↔
      Lost operations name field := fun name field => by simp [lost_append_singleton_iff]
  have hold : ∀ m ∈ (after operations).models, Accounted (operations ++ [.register given]) m :=
    fun m hm => (h m hm).append (fun current => by simp [Operation.standing]) (hlost m.name)
  cases hcontains : (after operations).contains given.name with
  | true =>
    rw [perform_register_of_contains hcontains]
    exact hold
  | false =>
    rw [perform_register hcontains]
    intro m hm
    rcases List.mem_append.1 hm with hm | hm
    · exact hold m hm
    · obtain rfl := List.mem_singleton.1 hm
      have hnone : ¬(standing? operations given.name).isSome := by
        rw [← contains_after_iff, hcontains]
        exact Bool.false_ne_true
      refine .of_given hgiven _ ?_ fun field hfield =>
        hnone ((hlost given.name field).1 hfield).isSome_standing?
      rw [standing?_append_singleton, Option.not_isSome_iff_eq_none.1 hnone]
      simp [Operation.standing]

theorem replace (h : ∀ m ∈ (after operations).models, Accounted operations m)
    (hr : (after operations).WellFormed) (hgiven : given.Built) :
    ∀ m ∈ ((after operations).perform (.replace given)).models,
      Accounted (operations ++ [.replace given]) m := by
  have hold : ∀ m ∈ (after operations).models, m.name ≠ given.name →
      Accounted (operations ++ [.replace given]) m := by
    intro m hm hne
    refine (h m hm).append (fun current => if_neg (Ne.symm hne)) fun field => ?_
    rw [lost_append_singleton_iff]
    simp [Ne.symm hne]
  cases hid : (after operations).idOf given.name with
  | none =>
    have hcontains := idOf_eq_none_iff.1 hid
    rw [perform_replace_of_not_contains hcontains]
    refine fun m hm => hold m hm fun hname => ?_
    rw [contains_iff.2 ⟨m, hm, hname⟩] at hcontains
    cases hcontains
  | some id =>
    rw [perform_replace hid]
    intro m hm
    rcases (mem_replace_iff hr.nodup_names hid).1 hm with rfl | ⟨hm, hne⟩
    · obtain ⟨old, hold, hname⟩ := (idOf_eq_some_iff hr.nodup_names).1 hid
      obtain ⟨current, hcurrent⟩ := Option.isSome_iff_exists.1
        ((contains_after_iff operations given.name).1
          (contains_iff.2 ⟨old, mem_of_get? hold, hname⟩))
      refine .of_given hgiven _ ?_ fun field hfield => ?_
      · rw [standing?_append_singleton, hcurrent]
        simp [Operation.standing]
      · rw [lost_append_singleton_iff] at hfield
        simp at hfield
    · exact hold m hm hne

theorem resolve (h : ∀ m ∈ (after operations).models, Accounted operations m)
    (hr : (after operations).WellFormed) :
    ∀ m ∈ ((after operations).perform (.resolve separator)).models,
      Accounted (operations ++ [.resolve separator]) m := by
  cases hresolve : ((after operations).resolve separator).result with
  | error e =>
    simp only [perform, hresolve]
    refine fun m hm => (h m hm).append (fun _ => rfl) fun field => ?_
    rw [lost_append_singleton_iff]
    simp [DroppedBy, hresolve]
  | ok s =>
    simp only [perform, hresolve]
    intro n hn
    obtain ⟨i, hi⟩ := exists_get?_of_mem hn
    obtain ⟨m, hm, hname, hkeeps⟩ := keepsAllBut_of_resolve hr.nodup_fields hresolve hi
    obtain ⟨declared, hstands, hdeclared, hbefore⟩ := h m (mem_of_get? hm)
    refine ⟨declared, ?_, hdeclared, (hkeeps _ declared hbefore).congr fun field => ?_⟩
    · rw [standing?_append_singleton, ← hname, hstands]
      rfl
    · rw [lost_append_singleton_iff, hname]
      refine or_congr (by simp) ⟨?_, ?_⟩
      · rintro ⟨other, heq, _, j, m', -, hm', hname', hdrops⟩
        have hsame : i = j := Option.some.inj <|
          ((idOf_eq_some_iff hr.nodup_names).2 ⟨m, hm, hname⟩).symm.trans
            ((idOf_eq_some_iff hr.nodup_names).2 ⟨m', hm', hname'⟩)
        exact hsame ▸ hdrops
      · exact fun hdrops => ⟨separator, rfl, s, i, m, hresolve, hm, hname, hdrops⟩

end Accounted

/-- In every state of a registry its models are accounted for. -/
theorem accounted_after (hbuilt : ∀ o ∈ operations, o.Built) :
    ∀ m ∈ (after operations).models, Accounted operations m := by
  induction operations using List.reverseRecOn with
  | nil => exact fun _ hm => absurd hm List.not_mem_nil
  | append_singleton operations operation ih =>
    have hbefore : ∀ o ∈ operations, o.Built := fun o ho => hbuilt o (List.mem_append_left _ ho)
    have hgiven : operation.Built :=
      hbuilt operation (List.mem_append_right _ (List.mem_singleton_self _))
    have hr := wellFormed_after hbefore
    rw [after_append_singleton]
    cases operation with
    | register given => exact .register (ih hbefore) hgiven
    | replace given => exact .replace (ih hbefore) hr hgiven
    | resolve separator => exact .resolve (ih hbefore) hr

end Registry

/-- The column has the name of the other one, and its type, nullability and key flag. -/
def Column.StandsFor (d c : Column) : Prop :=
  d.name = c.name ∧ d.type = c.type ∧ d.nullable = c.nullable ∧ d.primaryKey = c.primaryKey

/-! ## 5. Present and in order -/

namespace Model

variable {m added : Model} {kept : List Column} {lost : String → Prop}

theorem Built.nodup_columns (h : added.Built) : added.columns.Nodup :=
  List.Nodup.of_map (·.name) (List.nodup_append.1 h.nodup_names).1

/-- What has no mark is not lost. -/
theorem Built.declaredColumns_eq (h : added.Built) (hsub : kept.Sublist added.columns)
    (hkept : ∀ c ∈ added.columns, c ∈ kept ↔ ∀ field, c.isMarkedBy field → ¬lost field) :
    kept.filter (!·.isSynthesized) = added.declaredColumns := by
  have hnodup := h.nodup_columns.filter (!·.isSynthesized)
  refine (hnodup.perm_iff_eq_of_sublist (hsub.filter _) (.refl _)).1 ?_
  refine (List.perm_ext_iff_of_nodup ((hsub.filter _).nodup hnodup) hnodup).2 fun c => ?_
  rw [List.mem_filter, List.mem_filter]
  refine ⟨fun ⟨hc, hplain⟩ => ⟨hsub.subset hc, hplain⟩, fun ⟨hc, hplain⟩ => ⟨?_, hplain⟩⟩
  refine (hkept c hc).2 fun field hmark => ?_
  rw [Column.isSynthesized_of_isMarkedBy hmark] at hplain
  cases hplain

/-- The name of an added column belongs to that column or to one that a reference has brought. -/
theorem Retains.exists_standsFor_iff (h : m.Retains { added with columns := kept })
    (hadded : added.Built) (hsub : kept.Sublist added.columns) {c : Column}
    (hc : c ∈ added.columns) :
    (∃ d ∈ m.columns, d.StandsFor c) ↔
      c ∈ kept ∨ ∃ f ∈ m.references, ∃ d ∈ f.broughtColumns, d.StandsFor c := by
  constructor
  · rintro ⟨d, hd, hsame⟩
    have hbare : d.bare ∈ m.stripped.columns := List.mem_map_of_mem hd
    rcases h.mem_columns_iff.1 hbare with hleft | ⟨f, hf, hbrought⟩
    · have heq : d.bare = c := List.inj_on_of_nodup_map (List.nodup_append.1 hadded.nodup_names).1
        (hsub.subset hleft) hc hsame.1
      exact .inl (heq ▸ hleft)
    · exact .inr ⟨f, hf, d.bare, hbrought, hsame⟩
  · intro hpresent
    obtain ⟨d, hd, hsame⟩ : ∃ d ∈ m.stripped.columns, d.StandsFor c := by
      rcases hpresent with hleft | ⟨f, hf, d, hd, hsame⟩
      · exact ⟨c, h.mem_columns_iff.2 (.inl hleft), rfl, rfl, rfl, rfl⟩
      · exact ⟨d, h.mem_columns_iff.2 (.inr ⟨f, hf, hd⟩), hsame⟩
    obtain ⟨own, hown, rfl⟩ := List.mem_map.1 hd
    exact ⟨own, hown, hsame⟩

end Model

namespace Registry

variable {operations : List Operation} {separator : String} {s : Registry} {m : Model}

/-- After a successful resolution the columns added to a model without a mark are there in their
order.  Of all columns added to it those are kept whose mark does not name a reference that has been
dropped since the model was handed in; a column that is not kept can only be stood for by one that a
reference has brought.  The kept columns are in the order in which they were added, unless the model
has an implicit reference and arranging them moves them. -/
theorem kept_of_resolve (hbuilt : ∀ o ∈ operations, o.Built)
    (h : ((after operations).resolve separator).result = .ok s) (hm : m ∈ s.models) :
    ∃ added, standing? operations m.name = some added ∧
      m.declaredColumns.map Column.bare = added.declaredColumns ∧
      ∃ kept, kept.Sublist added.columns ∧
        (∀ c ∈ added.columns, c ∈ kept ↔ ∀ field, c.isMarkedBy field →
          ¬Lost (operations ++ [.resolve separator]) m.name field) ∧
        (∀ c ∈ added.columns, (∃ d ∈ m.columns, d.StandsFor c) ↔
          c ∈ kept ∨ ∃ f ∈ m.references, ∃ d ∈ f.broughtColumns, d.StandsFor c) ∧
        (kept.Sublist (m.columns.map Column.bare) ↔
          ((∃ f ∈ added.references, f.isImplicit) →
            (Model.arrange { added with columns := kept }).columns = kept)) := by
  have hall : ∀ o ∈ operations ++ [.resolve separator], o.Built := by
    simpa [or_imp, forall_and, Operation.Built] using hbuilt
  have hafter : after (operations ++ [.resolve separator]) = s := by
    rw [after_append_singleton]
    simp only [perform, h]
  rw [← hafter] at hm
  have hsame : standing? (operations ++ [.resolve separator]) m.name = standing? operations m.name :=
    standing?_append_singleton _ _ _
  obtain ⟨added, hstands, hadded, kept, hretains, hsub, hkept⟩ := accounted_after hall m hm
  have hnames := (wellFormed_after hall).nodup_fields m hm
  obtain ⟨-, hclosed, -⟩ := steps_of_resolveAll (resolveAll_of_resolve h)
  have hresolved : ∀ f ∈ m.references, f.isResolved := fun f hf =>
    isResolved_of_not_isOpen hclosed (hafter ▸ hm) hf
  have hreferences : (∃ f ∈ m.references, f.isImplicit) ↔ ∃ f ∈ added.references, f.isImplicit := by
    have hsame : m.references.map Reference.bare = added.references := hretains.references_eq
    simp [← hsame, Reference.bare, Reference.isImplicit]
  refine ⟨added, hsame ▸ hstands, ?_, kept, hsub, hkept,
    fun c hc => hretains.exists_standsFor_iff hadded hsub hc, ?_⟩
  · exact hretains.declaredColumns_eq.trans (hadded.declaredColumns_eq hsub hkept)
  · rw [← hreferences]
    exact hretains.sublist_iff hnames hresolved

/-- The column of the country, cloned from the city abroad under another name. -/
def nation : Column :=
  { name := "nation", type := .text, foreignKey := true, synthesizedBy := some "country",
    declaredForeignKey := true }

/-- A tourist has the column and a reference of the field that has synthesized it abroad. -/
def tourist : Model :=
  Model.ofFields "Tourist" [
    .column { name := "id", type := .integer, primaryKey := true },
    .column nation,
    .reference { field := "country", target := "Country" }]

/-- The country gets another key, so that the reference of the tourist becomes stale. -/
def countryRenumbered : List Operation :=
  [.register country, .register tourist, .resolve "_",
    .replace (Model.ofFields "Country"
      [.column { name := "number", type := .integer, primaryKey := true }])]

theorem built_countryRenumbered : ∀ o ∈ countryRenumbered, o.Built := by
  simp only [countryRenumbered, List.forall_mem_cons, List.not_mem_nil, false_imp_iff,
    implies_true, and_true]
  refine ⟨Model.built_ofFields _ _ ?_, Model.built_ofFields _ _ ?_, trivial,
    Model.built_ofFields _ _ ?_⟩
  · simp
  · simp [Reference.Fresh]
  · simp

theorem obtainable_nation : nation.Obtainable := by
  have hcode : (⟨"country_code", .text, false, true, true, some "country", true⟩ : Column) ∈
      cityAbroad.columns := by decide
  exact .changed (.cloned obtainable_cityAbroad hcode) rfl rfl

theorem isPublic_countryRenumbered : ∀ o ∈ countryRenumbered, o.Public := by
  have htourist : tourist.Obtainable := by
    refine Model.obtainable_ofFields _ _ fun d hd => ?_
    simp only [List.mem_cons, List.not_mem_nil, or_false] at hd
    obtain rfl | rfl | rfl := hd
    · exact .fresh (by decide)
    · exact obtainable_nation
    · exact .fresh (by decide)
  simp only [countryRenumbered, List.forall_mem_cons, List.not_mem_nil, false_imp_iff,
    implies_true, and_true]
  exact ⟨obtainable_country, htourist, trivial,
    Model.Fresh.obtainable (Model.fresh_ofFields _ _ (by decide))⟩

/-- The tourist loses the nation with the resolution of a reference that has not brought it. -/
theorem lost_nation :
    ∃ s, ((after countryRenumbered).resolve "_").result = .ok s ∧
      Lost (countryRenumbered ++ [.resolve "_"]) "Tourist" "country" := by
  have hresolve : ∃ s, ((after countryRenumbered).resolve "_").result = .ok s ∧
      ∃ m ∈ s.models, m.name = "Tourist" ∧ m.columns.map (·.name) = ["id", "country_number"] :=
    ⟨_, rfl, by decide⟩
  obtain ⟨s, hs, m, hm, hname, hcolumns⟩ := hresolve
  obtain ⟨added, hstands, -, kept, -, hkept, hpresent, -⟩ :=
    kept_of_resolve built_countryRenumbered hs hm
  rw [hname] at hstands hkept
  obtain rfl : tourist = added := Option.some.inj hstands
  have hadded : nation ∈ tourist.columns := by decide
  refine ⟨s, hs, by_contra fun hnot => ?_⟩
  have hmem : nation ∈ kept := by
    refine (hkept nation hadded).2 fun field hmark => ?_
    have hmarked : nation.isMarkedBy "country" := by decide
    rwa [Column.field_eq_of_isMarkedBy hmark hmarked]
  obtain ⟨d, hd, hsame⟩ := (hpresent nation hadded).2 (.inl hmem)
  have hlisted : d.name ∈ m.columns.map (·.name) := List.mem_map_of_mem hd
  simp [hcolumns, hsame.1, nation] at hlisted

/-- So a resolution can take away a column that was added. -/
theorem exists_lost_column_after_resolve :
    ¬∀ (operations : List Operation) (separator : String) (s : Registry),
      (∀ o ∈ operations, o.Built ∧ o.Public) →
      ((after operations).resolve separator).result = .ok s → ∀ m ∈ s.models, ∀ added,
        standing? operations m.name = some added →
          (∀ c ∈ added.columns, ∃ d ∈ m.columns, d.StandsFor c) ∧
            (added.columns.map (·.name)).Sublist (m.columns.map (·.name)) := by
  intro hall
  have hresolve : ∃ s, ((after countryRenumbered).resolve "_").result = .ok s ∧
      ∃ m ∈ s.models, m.name = "Tourist" ∧ ∀ d ∈ m.columns, d.name ≠ "nation" :=
    ⟨_, rfl, by decide⟩
  obtain ⟨s, hs, m, hm, hname, hnone⟩ := hresolve
  have hdomain : ∀ o ∈ countryRenumbered, o.Built ∧ o.Public := fun o ho =>
    ⟨built_countryRenumbered o ho, isPublic_countryRenumbered o ho⟩
  have hstands : standing? countryRenumbered m.name = some tourist := by
    rw [hname]
    rfl
  obtain ⟨hpresent, -⟩ := hall countryRenumbered "_" s hdomain hs m hm tourist hstands
  obtain ⟨d, hd, hsame⟩ := hpresent nation (by decide)
  exact hnone d hd hsame.1

end Registry

end RelSchema
