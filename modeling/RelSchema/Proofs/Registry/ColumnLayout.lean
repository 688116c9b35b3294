import RelSchema.Proofs.Model.Declaring
import RelSchema.Proofs.Registry.History
import RelSchema.Proofs.Resolve.Pairing

/-!
# Columns by declaration

In every state of a registry the columns of a model are those that its declarations ask for, one
declaration after the other: a column asks for itself, an implicit reference that is resolved for
one column per pair, and any other reference for nothing.  The order in which references were
resolved, dropped and resolved again does not show.
-/

namespace RelSchema

namespace Model

/-! ## 1. What declarations ask for -/

/-- The columns that a declaration asks for, as long as the references of the model are resolved as
they are. -/
def columnsDue (m : Model) : Declaration → List Column
  | .column c =>
      [{ c with
        -- a column that is handed in unflagged is flagged while a resolved reference uses it
        foreignKey := c.foreignKey || m.references.any (·.usesSource c.name)
        declaredForeignKey := c.foreignKey }]
  | .reference f =>
      match (m.reference? f.field).bind (·.resolution) with
      | none => []
      | some resolution =>
          if f.isImplicit then
            (resolution.key.zip resolution.pairs).map fun (k, p) =>
              { name := p.source
                type := k.type
                nullable := k.nullable
                primaryKey := f.primaryKey
                foreignKey := true
                synthesizedBy := some f.field
                declaredForeignKey := true }
          else []

/-- The model stands for the declarations: it has the columns that they ask for and the references
among them, and a pair for each key column that an implicit reference was resolved against. -/
structure LaidBy (m : Model) (calls : List Declaration) : Prop where
  columns_eq : m.columns = calls.flatMap m.columnsDue
  references_eq : m.references.map Reference.handedIn = referencesOf calls
  targets_eq : ∀ f ∈ m.references, ∀ resolution, f.resolution = some resolution → f.isImplicit →
    resolution.pairs.map (·.target) = resolution.key.names

variable {m declared : Model} {calls : List Declaration}

/-- What stands at a declaration is what it asked for when it was handed in. -/
theorem Laid.columnsDue_handedIn (h : m.Laid) {d : Declaration} (hd : d ∈ m.declarations) :
    m.columnsDue d.handedIn = d.columns := by
  cases d with
  | column c =>
    have hdeclared := column_mem_declarations.1 hd
    obtain ⟨hc, hnot⟩ := List.mem_filter.1 hdeclared
    have hflag := h.foreignKey_eq c hc
    rw [Bool.not_eq_true'] at hnot
    rw [isForeignKey, hnot, Bool.or_false] at hflag
    show [_] = [c]
    rw [Column.handedIn, ← hflag]
  | reference r =>
    have hr := reference_mem_declarations.1 hd
    have hfind : m.reference? r.handedIn.field = some r :=
      reference?_eq_some_of_mem h.nodup_fields hr
    show columnsDue m (.reference r.handedIn) = r.broughtColumns
    rw [columnsDue, hfind, Option.bind_some, Reference.broughtColumns]
    rfl

/-- A model that is laid out stands for the calls that declared it. -/
theorem Laid.laidBy (h : m.Laid) (hbare : m.bare = declared) (hcalls : declared.DeclaredBy calls) :
    m.LaidBy calls := by
  have hhanded : m.declarations.map .handedIn = calls := (hbare ▸ hcalls).map_handedIn_of_bare
  refine ⟨?_, ?_, fun f hf resolution hres himplicit => ?_⟩
  · rw [h.columns_eq, ← hhanded, List.flatMap_map]
    exact List.flatMap_congr fun d hd => (h.columnsDue_handedIn hd).symm
  · rw [← hhanded, ← referencesOf_declarations, referencesOf, referencesOf, List.map_filterMap,
      List.filterMap_map]
    exact List.filterMap_congr fun d _ => by cases d <;> rfl
  · obtain ⟨separator, hpairs⟩ := h.pairs_eq f hf resolution hres himplicit
    rw [hpairs, Reference.sourcePairs, List.map_map]
    rfl

end Model

/-! ## 2. The standing declaration -/

/-- The declaration that stands for the name after an operation: the first one that is registered,
until another one replaces it. -/
def Operation.standing (name : String) (current : Option Model) : Operation → Option Model
  | .register m => if m.name = name then current.or (some m) else current
  | .replace m => if m.name = name then current.map fun _ => m else current
  | .resolve _ => current

theorem Operation.Fresh.standing {operation : Operation} (h : operation.Fresh) {name : String}
    {current : Option Model} (hcurrent : ∀ m, current = some m → m.Fresh) {m : Model}
    (hm : operation.standing name current = some m) : m.Fresh := by
  cases operation with
  | register n =>
    simp only [Operation.standing] at hm
    split at hm
    · rcases Option.or_eq_some_iff.1 hm with hm | ⟨-, hm⟩
      · exact hcurrent m hm
      · exact Option.some.inj hm ▸ h
    · exact hcurrent m hm
  | replace n =>
    simp only [Operation.standing] at hm
    split at hm
    · obtain ⟨-, -, rfl⟩ := Option.map_eq_some_iff.1 hm
      exact h
    · exact hcurrent m hm
  | resolve _ => exact hcurrent m hm

/-- The declaration that stands for the name at the end. -/
def standing? (operations : List Operation) (name : String) : Option Model :=
  operations.foldl (Operation.standing name) none

namespace Registry

variable {r : Registry} {m : Model} {operations : List Operation}

theorem Sound.declared?_eq_some_iff (hr : r.Sound) {name : String} :
    r.declared? name = some m ↔ ∃ n ∈ r.models, n.name = name ∧ n.bare = m := by
  simp only [Registry.declared?_eq_some_iff, lookup_eq_ok_iff hr.nodup_names, and_assoc]

theorem perform_replace {id : ModelId} (hid : r.idOf m.name = some id) :
    r.perform (.replace m) = r.modify id fun _ => { m with id := some id } := by
  simp only [perform, replace_eq_ok_iff.2 ⟨hid, rfl⟩]

theorem perform_replace_of_not_contains (h : r.contains m.name = false) :
    r.perform (.replace m) = r := by
  simp [perform, replace, idOf_eq_none_iff.2 h]

/-- The new declaration takes the place of the old one, and the others stay. -/
theorem mem_replace_iff (hr : (r.models.map (·.name)).Nodup) {id : ModelId}
    (hid : r.idOf m.name = some id) {n : Model} :
    n ∈ (r.modify id fun _ => { m with id := some id }).models ↔
      n = { m with id := some id } ∨ n ∈ r.models ∧ n.name ≠ m.name := by
  obtain ⟨old, hold, hname⟩ := (idOf_eq_some_iff hr).1 hid
  constructor
  · intro hn
    obtain ⟨i, hi⟩ := exists_get?_of_mem hn
    rw [get?_modify] at hi
    by_cases heq : id = i
    · rw [if_pos heq, ← heq, hold, Option.map_some, Option.some.injEq] at hi
      exact .inl hi.symm
    · rw [if_neg heq] at hi
      refine .inr ⟨mem_of_get? hi, fun hsame => heq ?_⟩
      have hat : r.idOf m.name = some i := (idOf_eq_some_iff hr).2 ⟨n, hi, hsame⟩
      exact Option.some.inj (hid.symm.trans hat)
  · rintro (rfl | ⟨hn, hne⟩)
    · have hat : (r.modify id fun _ => { m with id := some id }).get? id =
          some { m with id := some id } := by
        rw [get?_modify, if_pos rfl, hold, Option.map_some]
      exact mem_of_get? hat
    · obtain ⟨i, hi⟩ := exists_get?_of_mem hn
      have hother : id ≠ i := by
        rintro rfl
        exact hne (Option.some.inj (hold.symm.trans hi) ▸ hname)
      have hat : (r.modify id fun _ => { m with id := some id }).get? i = some n := by
        rw [get?_modify, if_neg hother, hi]
      exact mem_of_get? hat

theorem declared?_replace (hr : r.Sound) (hm : m.Fresh) (name : String) :
    (r.perform (.replace m)).declared? name =
      Operation.standing name (r.declared? name) (.replace m) := by
  have hfresh : (Operation.replace m).Fresh := hm
  have hs := hr.perform hfresh
  -- what is handed in fresh is its own declaration, wherever it is put
  have hbare : ∀ id, ({ m with id := id } : Model).bare = m := fun _ => hm.bare_eq
  rw [Operation.standing]
  cases hcontains : r.contains m.name with
  | false =>
    -- there is nothing to replace
    rw [perform_replace_of_not_contains hcontains]
    by_cases hname : m.name = name
    · have hnone : r.declared? name = none := by
        refine Option.eq_none_iff_forall_ne_some.2 fun d hd => ?_
        obtain ⟨n, hn, hsame, -⟩ := hr.declared?_eq_some_iff.1 hd
        exact List.any_eq_false.1 hcontains n hn (by simp [hsame, hname])
      rw [if_pos hname, hnone, Option.map_none]
    · rw [if_neg hname]
  | true =>
    obtain ⟨id, hid⟩ := Option.ne_none_iff_exists'.1 fun hnone : r.idOf m.name = none => by
      simp [idOf_eq_none_iff.1 hnone] at hcontains
    rw [perform_replace hid] at hs ⊢
    by_cases hname : m.name = name
    · obtain ⟨d, hd⟩ := Option.isSome_iff_exists.1 (isSome_declared?_of_contains hcontains)
      rw [if_pos hname, ← hname, hd, Option.map_some, hs.declared?_eq_some_iff]
      exact ⟨_, (mem_replace_iff hr.nodup_names hid).2 (.inl rfl), rfl, hbare _⟩
    · rw [if_neg hname]
      ext d
      rw [hs.declared?_eq_some_iff, hr.declared?_eq_some_iff]
      constructor
      · rintro ⟨n, hn, hsame, rfl⟩
        rcases (mem_replace_iff hr.nodup_names hid).1 hn with rfl | ⟨hn, -⟩
        · exact absurd hsame hname
        · exact ⟨n, hn, hsame, rfl⟩
      · rintro ⟨n, hn, rfl, rfl⟩
        exact ⟨n, (mem_replace_iff hr.nodup_names hid).2 (.inr ⟨hn, Ne.symm hname⟩), rfl, rfl⟩

/-- What stands for a name is what the registry has for it. -/
theorem declared?_perform_eq_standing {operation : Operation} (hr : r.Sound)
    (hfresh : operation.Fresh) (name : String) :
    (r.perform operation).declared? name = operation.standing name (r.declared? name) := by
  cases operation with
  | register m =>
    have hadditive : (Operation.register m).Additive defaultSeparator := trivial
    rw [declared?_perform hr hfresh hadditive, Operation.declaration?, Operation.standing]
    by_cases hname : m.name = name
    · rw [if_pos hname, if_pos hname]
    · rw [if_neg hname, if_neg hname, Option.or_none]
  | replace m => exact declared?_replace hr hfresh name
  | resolve separator =>
    have hadditive : (Operation.resolve separator).Additive separator := rfl
    rw [declared?_perform hr hfresh hadditive]
    exact Option.or_none

theorem declared?_foldl_perform_eq_standing (hr : r.Sound) (hfresh : ∀ o ∈ operations, o.Fresh)
    (name : String) :
    (operations.foldl perform r).declared? name =
      operations.foldl (Operation.standing name) (r.declared? name) := by
  induction operations generalizing r with
  | nil => rfl
  | cons o operations ih =>
    have ho := hfresh o List.mem_cons_self
    rw [List.foldl_cons, ih (hr.perform ho) fun o' ho' => hfresh o' (.tail _ ho'),
      declared?_perform_eq_standing hr ho, List.foldl_cons]

theorem declared?_after_eq_standing? (hfresh : ∀ o ∈ operations, o.Fresh) (name : String) :
    (after operations).declared? name = standing? operations name :=
  declared?_foldl_perform_eq_standing Sound.empty hfresh name

theorem fresh_of_standing? (hfresh : ∀ o ∈ operations, o.Fresh) {name : String}
    (h : standing? operations name = some m) : m.Fresh :=
  List.foldlRecOn (motive := fun current => ∀ m, current = some m → m.Fresh) operations _
    (by simp) (fun _ hcurrent o ho _ hm => (hfresh o ho).standing hcurrent hm) m h

/-! ## 3. The columns of a model -/

/-- In every state of a registry each of its models stands for the calls that made the declaration
which stands for its name. -/
theorem laidBy_of_mem_after (hfresh : ∀ o ∈ operations, o.Fresh)
    (hm : m ∈ (after operations).models) :
    ∃ declared, standing? operations m.name = some declared ∧
      (∃ calls, declared.DeclaredBy calls) ∧
      ∀ calls, declared.DeclaredBy calls → m.LaidBy calls := by
  have hr := sound_after hfresh
  have hstands : standing? operations m.name = some m.bare := by
    rw [← declared?_after_eq_standing? hfresh, hr.declared?_eq_some_iff]
    exact ⟨m, hm, rfl, rfl⟩
  exact ⟨m.bare, hstands, (fresh_of_standing? hfresh hstands).exists_calls,
    fun calls hcalls => (hr.laid m hm).laidBy rfl hcalls⟩

/-- A flight goes from one city to another. -/
def flightFields : List Declaration :=
  [.column { name := "number", type := .text, primaryKey := true },
    .reference { field := "origin", target := "City" },
    .reference { field := "destination", target := "City" },
    .column { name := "departure", type := .integer }]

def flight : Model :=
  Model.ofFields "Flight" flightFields

/-- The first run fails, and the second key of cities takes the place of the first. -/
def citiesNumbered : List Operation :=
  [.register flight, .resolve "_",
    .register (Model.ofFields "City"
      [.column { name := "name", type := .text, primaryKey := true }]), .resolve "_",
    .replace (Model.ofFields "City"
      [.column { name := "id", type := .integer, primaryKey := true }]), .resolve "."]

theorem fresh_citiesNumbered : ∀ operation ∈ citiesNumbered, operation.Fresh := by
  simp only [citiesNumbered, List.forall_mem_cons, List.not_mem_nil, false_imp_iff, implies_true,
    and_true]
  exact ⟨Model.fresh_ofFields _ _ (by decide), trivial, Model.fresh_ofFields _ _ (by decide),
    trivial, Model.fresh_ofFields _ _ (by decide), trivial⟩

theorem declaredBy_flight : flight.DeclaredBy flightFields :=
  Model.declaredBy_ofFields (by decide) (by decide)

theorem laidBy_flight :
    ∃ m ∈ (after citiesNumbered).models, m.name = "Flight" ∧
      m.columns.map (·.name) = ["number", "origin.id", "destination.id", "departure"] ∧
      m.LaidBy flightFields := by
  have hget : ∃ m, (after citiesNumbered).get? 0 = some m ∧ m.name = "Flight" ∧
      m.columns.map (·.name) = ["number", "origin.id", "destination.id", "departure"] :=
    ⟨_, rfl, rfl, rfl⟩
  obtain ⟨m, hm, hname, hcolumns⟩ := hget
  have hmem := mem_of_get? hm
  obtain ⟨declared, hstands, -, hlaid⟩ := laidBy_of_mem_after fresh_citiesNumbered hmem
  rw [hname] at hstands
  obtain rfl : flight = declared := Option.some.inj hstands
  exact ⟨m, hmem, hname, hcolumns, hlaid _ declaredBy_flight⟩

end Registry

end RelSchema
