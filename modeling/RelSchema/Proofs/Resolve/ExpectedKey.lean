import Mathlib.Data.Set.Card
import RelSchema.Proofs.Resolve.KeyGraph

/-!
# Keys by declaration

The key that a model has in the end can be said without resolving anything: its declared key columns
are merged, at their places, with what its implicit key references take over from the keys of their
targets.  When key references close no cycle this has one solution, and it is found in as many
rounds as there are models.
-/

namespace RelSchema

/-! ## 1. Merged keys -/

/-- The key column that holds one of the target's. -/
def Reference.inherited (f : Reference) (separator : String) (k : KeyColumn) : KeyColumn :=
  ⟨f.sourceName separator k, k.type, k.nullable⟩

/-- What a declaration adds to the key of its model when the keys of all models are given. -/
def Declaration.keyPart (separator : String) (keys : String → PrimaryKey) :
    Declaration → PrimaryKey
  | .column c => if c.primaryKey then [KeyColumn.ofColumn c] else []
  | .reference f =>
      if f.primaryKey && f.isImplicit then (keys f.target).map (f.inherited separator) else []

namespace Model

variable {m n : Model} {separator : String} {keys keys' : String → PrimaryKey}

def mergedKey (m : Model) (separator : String) (keys : String → PrimaryKey) : PrimaryKey :=
  m.declarations.flatMap (Declaration.keyPart separator keys)

/-- The names of all columns that implicit references take over. -/
def sourceNames (m : Model) (separator : String) (keys : String → PrimaryKey) : List String :=
  m.references.flatMap fun f =>
    if f.isImplicit then (keys f.target).map (f.sourceName separator) else []

/-- A merged key depends on the keys of the models that key references name. -/
theorem mergedKey_congr
    (h : ∀ f ∈ m.references, f.primaryKey → keys f.target = keys' f.target) :
    m.mergedKey separator keys = m.mergedKey separator keys' := by
  apply List.flatMap_congr
  intro d hd
  cases d with
  | column c => rfl
  | reference f =>
    show (if _ then _ else _) = if _ then _ else _
    cases hkey : f.primaryKey with
    | false => rfl
    | true => rw [h f (reference_mem_declarations.1 hd) hkey]

theorem mergedKey_eq_of_bare_eq (h : m.bare = n.bare) (separator : String)
    (keys : String → PrimaryKey) : m.mergedKey separator keys = n.mergedKey separator keys := by
  refine flatMap_eq_of_map_eq (map_bare_declarations_eq h) ?_
  rintro (c | f) - (d | g) - heq
  · exact Column.congr_of_bare_eq (Declaration.column.inj heq)
      (fun c => Declaration.keyPart separator keys (.column c))
  · cases heq
  · cases heq
  · exact Reference.congr_of_bare_eq (Declaration.reference.inj heq)
      (fun f => Declaration.keyPart separator keys (.reference f))

theorem sourceNames_eq_of_bare_eq (h : m.bare = n.bare) (separator : String)
    (keys : String → PrimaryKey) : m.sourceNames separator keys = n.sourceNames separator keys :=
  flatMap_eq_of_map_eq (map_bare_references_eq h) fun f _ g _ hfg =>
    Reference.congr_of_bare_eq hfg fun f =>
      if f.isImplicit then (keys f.target).map (f.sourceName separator) else []

/-- A laid out model has the merged key once its implicit key references have brought all that they
take over. -/
theorem Laid.keyShape_eq_mergedKey (h : m.Laid)
    (hbrought : ∀ f ∈ m.references, f.primaryKey → f.isImplicit →
      f.broughtColumns = f.columnsFor separator (keys f.target)) :
    m.keyShape = m.mergedKey separator keys := by
  rw [h.keyShape_eq, mergedKey]
  apply List.flatMap_congr
  intro d hd
  cases d with
  | column c =>
    cases hkey : c.primaryKey <;>
      simp [Declaration.key, Declaration.columns, Declaration.keyPart, hkey]
  | reference f =>
    have hf := reference_mem_declarations.1 hd
    show _ = if _ then _ else _
    cases hkey : f.primaryKey with
    | false => simp [Declaration.key_reference_of_not_primaryKey hkey]
    | true =>
      rw [Declaration.key_reference_of_primaryKey hkey]
      cases himplicit : f.isImplicit with
      | false => simp [Reference.broughtColumns_of_explicit himplicit]
      | true =>
        rw [hbrought f hf hkey himplicit, Reference.columnsFor, List.map_map]
        rfl

theorem flatMap_columns_perm (ds : List Declaration) :
    (ds.flatMap Declaration.columns).Perm
      (columnsOf ds ++ (referencesOf ds).flatMap Reference.broughtColumns) := by
  induction ds with
  | nil => exact .nil
  | cons d ds ih =>
    rw [List.flatMap_cons]
    cases d with
    | column c => exact ih.cons c
    | reference f =>
      show (f.broughtColumns ++ ds.flatMap Declaration.columns).Perm
        (columnsOf ds ++ (f.broughtColumns ++ (referencesOf ds).flatMap Reference.broughtColumns))
      exact (ih.append_left _).trans (List.perm_append_comm_assoc _ _ _)

/-- Once all implicit references have brought their columns, the names in use are the declared ones
and those of the columns that are taken over. -/
theorem names_perm (hcolumns : m.columns = m.declarations.flatMap Declaration.columns)
    (hbrought : ∀ f ∈ m.references, f.isImplicit →
      f.broughtColumns = f.columnsFor separator (keys f.target)) :
    m.names.Perm (m.bare.names ++ m.sourceNames separator keys) := by
  have hperm := flatMap_columns_perm m.declarations
  rw [← hcolumns, columnsOf_declarations, referencesOf_declarations] at hperm
  have hsources : (m.references.flatMap Reference.broughtColumns).map (·.name) =
      m.sourceNames separator keys := by
    rw [List.map_flatMap]
    apply List.flatMap_congr
    intro f hf
    cases himplicit : f.isImplicit with
    | false => simp [Reference.broughtColumns_of_explicit himplicit]
    | true =>
      rw [if_pos rfl, hbrought f hf himplicit, Reference.columnsFor, List.map_map]
      rfl
  have hbare : m.bare.names = m.declaredColumns.map (·.name) ++ m.references.map (·.field) := by
    rw [names, bare, List.map_map, List.map_map]
    rfl
  have hnames := (hperm.map (·.name)).append_right (m.references.map (·.field))
  rw [List.map_append, hsources, List.append_assoc] at hnames
  rw [hbare, List.append_assoc]
  exact hnames.trans (List.perm_append_comm.append_left _)

end Model

namespace Registry

open Relation (TransGen ReflTransGen)

variable {r : Registry} {separator name : String}

/-! ## 2. Expected keys -/

/-- The key of the model of the name, followed along key references down to a depth. -/
def keyWithin (r : Registry) (separator : String) : (depth : Nat) → String → PrimaryKey
  | 0, _ => []
  | depth + 1, name =>
    match r.models.find? (·.name == name) with
    | none => []
    | some m => m.mergedKey separator (r.keyWithin separator depth)

/-- No way along key references passes more models than there are. -/
def expectedKey (r : Registry) (separator : String) : String → PrimaryKey :=
  r.keyWithin separator r.size

/-- The models on which the key of the name depends, its own among them. -/
def below (r : Registry) (name : String) : Set String :=
  {other | ReflTransGen r.KeyEdge name other ∧ r.contains other}

theorem finite_below (r : Registry) (name : String) : (r.below name).Finite :=
  r.finite_names.subset fun _ h => contains_iff.1 h.2

theorem ncard_below_le_size (r : Registry) (name : String) : (r.below name).ncard ≤ r.size := by
  have hsubset : r.below name ⊆ ((r.models.map (·.name)).toFinset : Set String) := by
    intro other hother
    obtain ⟨m, hm, rfl⟩ := contains_iff.1 hother.2
    simpa using ⟨m, hm, rfl⟩
  calc (r.below name).ncard
      ≤ ((r.models.map (·.name)).toFinset : Set String).ncard :=
        Set.ncard_le_ncard hsubset (Finset.finite_toSet _)
    _ = (r.models.map (·.name)).toFinset.card := Set.ncard_coe_finset _
    _ ≤ (r.models.map (·.name)).length := List.toFinset_card_le _
    _ = r.size := List.length_map _

/-- Without cycles, less is below the target of a key reference than below its owner. -/
theorem ncard_below_lt (hacyclic : r.KeyAcyclic) {a b : String} (hab : r.KeyEdge a b) :
    (r.below b).ncard < (r.below a).ncard := by
  have hown : a ∈ r.below a := by
    obtain ⟨m, hm, hname, -⟩ := hab
    exact ⟨.refl, contains_iff.2 ⟨m, hm, hname⟩⟩
  have hsubset : r.below b ⊆ r.below a := fun c hc => ⟨.head hab hc.1, hc.2⟩
  -- the owner is below itself, and below the target only if there is a cycle
  have hstrict : ¬r.below a ⊆ r.below b := fun hback =>
    hacyclic a (.head' hab (hback hown).1)
  exact Set.ncard_lt_ncard ⟨hsubset, hstrict⟩ (r.finite_below a)

theorem find?_eq_some_of_mem_models (hnames : (r.models.map (·.name)).Nodup) {m : Model}
    (hm : m ∈ r.models) : r.models.find? (·.name == m.name) = some m :=
  find?_eq_some_of_mem hnames hm

/-- Going deeper than there are models below a name changes nothing. -/
theorem keyWithin_succ (hacyclic : r.KeyAcyclic) {depth : Nat}
    (hdepth : (r.below name).ncard ≤ depth) :
    r.keyWithin separator depth name = r.keyWithin separator (depth + 1) name := by
  induction depth generalizing name with
  | zero =>
    -- nothing is below a name, not even itself, only when no model has it
    have hempty := (Set.ncard_eq_zero (r.finite_below name)).1 (Nat.le_zero.1 hdepth)
    have hnone : r.models.find? (·.name == name) = none := by
      apply List.find?_eq_none.2
      intro m hm hname
      have hmem : name ∈ r.below name := ⟨.refl, contains_iff.2 ⟨m, hm, by simpa using hname⟩⟩
      rw [hempty] at hmem
      exact hmem
    simp [keyWithin, hnone]
  | succ depth ih =>
    rw [keyWithin, keyWithin]
    cases hfind : r.models.find? (·.name == name) with
    | none => rfl
    | some m =>
      apply Model.mergedKey_congr
      intro f hf hkey
      have hm := List.mem_of_find?_eq_some hfind
      have hname : m.name = name := by simpa using List.find?_some hfind
      have hlt := ncard_below_lt hacyclic ⟨m, hm, hname, f, hf, hkey, rfl⟩
      exact ih (by omega)

/-- The expected keys solve the equations by which they are defined. -/
theorem expectedKey_eq (hnames : (r.models.map (·.name)).Nodup) (hacyclic : r.KeyAcyclic)
    {m : Model} (hm : m ∈ r.models) :
    r.expectedKey separator m.name = m.mergedKey separator (r.expectedKey separator) := by
  rw [expectedKey, keyWithin_succ hacyclic (r.ncard_below_le_size m.name), keyWithin,
    find?_eq_some_of_mem_models hnames hm]

/-- Nothing else solves them, as far as keys are grounded. -/
theorem Grounded.eq_expectedKey (hnames : (r.models.map (·.name)).Nodup)
    (hacyclic : r.KeyAcyclic) {keys : String → PrimaryKey}
    (hkeys : ∀ m ∈ r.models, keys m.name = m.mergedKey separator keys) (h : r.Grounded name) :
    keys name = r.expectedKey separator name := by
  induction h with
  | @intro m hm _ ih =>
    rw [hkeys m hm, expectedKey_eq hnames hacyclic hm]
    exact Model.mergedKey_congr ih

end Registry

end RelSchema
