import RelSchema.Proofs.Model.Settlement

/-!
# Growth of a model

A model grows to another when both were declared alike and the second keeps the resolutions of the
first, up to the ids of targets.  A key that no open reference can add to stays the same while the
model grows, which is why a reference may rely on a final key.
-/

namespace RelSchema

/-! ## 1. Lists that agree under a projection -/

section Lists

variable {α β γ : Type} {project : α → β}

theorem flatMap_eq_of_map_eq {xs ys : List α} (hmap : xs.map project = ys.map project)
    {f g : α → List γ} (h : ∀ x ∈ xs, ∀ y ∈ ys, project x = project y → f x = g y) :
    xs.flatMap f = ys.flatMap g := by
  induction xs generalizing ys with
  | nil =>
    rw [List.map_eq_nil_iff.1 hmap.symm]
    rfl
  | cons x xs ih =>
    -- the projections of the other list start alike, so that it is not empty
    obtain ⟨y, ys, rfl⟩ : ∃ y ys', ys = y :: ys' :=
      List.exists_cons_of_ne_nil (by rintro rfl; simp at hmap)
    obtain ⟨hxy, htail⟩ := List.cons.inj hmap
    rw [List.flatMap_cons, List.flatMap_cons, h x List.mem_cons_self y List.mem_cons_self hxy,
      ih htail fun x' hx' y' hy' => h x' (.tail _ hx') y' (.tail _ hy')]

theorem map_eq_of_map_eq {xs ys : List α} (hmap : xs.map project = ys.map project)
    {f g : α → γ} (h : ∀ x ∈ xs, ∀ y ∈ ys, project x = project y → f x = g y) :
    xs.map f = ys.map g := by
  rw [← List.flatMap_pure_eq_map, ← List.flatMap_pure_eq_map]
  exact flatMap_eq_of_map_eq hmap fun x hx y hy hxy => congrArg (fun z => [z]) (h x hx y hy hxy)

theorem length_flatMap_le_of_map_eq {xs ys : List α} (hmap : xs.map project = ys.map project)
    {f g : α → List γ}
    (h : ∀ x ∈ xs, ∀ y ∈ ys, project x = project y → (f x).length ≤ (g y).length) :
    (xs.flatMap f).length ≤ (ys.flatMap g).length := by
  induction xs generalizing ys with
  | nil => simp
  | cons x xs ih =>
    obtain ⟨y, ys, rfl⟩ : ∃ y ys', ys = y :: ys' :=
      List.exists_cons_of_ne_nil (by rintro rfl; simp at hmap)
    obtain ⟨hxy, htail⟩ := List.cons.inj hmap
    have hhead := h x List.mem_cons_self y List.mem_cons_self hxy
    have hrest := ih htail fun x' hx' y' hy' => h x' (.tail _ hx') y' (.tail _ hy')
    rw [List.flatMap_cons, List.flatMap_cons, List.length_append, List.length_append]
    omega

theorem length_flatMap_lt_of_map_eq {xs ys : List α} (hmap : xs.map project = ys.map project)
    {f g : α → List γ}
    (h : ∀ x ∈ xs, ∀ y ∈ ys, project x = project y → (f x).length ≤ (g y).length)
    (hlt : ∃ x ∈ xs, ∀ y ∈ ys, project x = project y → (f x).length < (g y).length) :
    (xs.flatMap f).length < (ys.flatMap g).length := by
  induction xs generalizing ys with
  | nil => simp at hlt
  | cons x xs ih =>
    obtain ⟨y, ys, rfl⟩ : ∃ y ys', ys = y :: ys' :=
      List.exists_cons_of_ne_nil (by rintro rfl; simp at hmap)
    obtain ⟨hxy, htail⟩ := List.cons.inj hmap
    have hhead := h x List.mem_cons_self y List.mem_cons_self hxy
    have hle : ∀ x' ∈ xs, ∀ y' ∈ ys, project x' = project y' → (f x').length ≤ (g y').length :=
      fun x' hx' y' hy' => h x' (.tail _ hx') y' (.tail _ hy')
    rw [List.flatMap_cons, List.flatMap_cons, List.length_append, List.length_append]
    obtain ⟨x', hx', hlt'⟩ := hlt
    -- the strict place is the head, or it is in the tail
    rcases List.mem_cons.1 hx' with rfl | hx'
    · have hrest := length_flatMap_le_of_map_eq htail hle
      have hfirst := hlt' y List.mem_cons_self hxy
      omega
    · have hrest := ih htail hle ⟨x', hx', fun y' hy' => hlt' y' (.tail _ hy')⟩
      omega

end Lists

/-! ## 2. What a reference brings -/

namespace Reference

/-- The resolution without the id of its target. -/
def shape (r : Reference) : Option (PrimaryKey × List Pair) :=
  r.resolution.map fun resolution => (resolution.key, resolution.pairs)

/-- Which columns a reference uses depends on the shape of its resolution. -/
theorem usesSource_eq_shape (r : Reference) (name : String) :
    r.usesSource name = r.shape.any fun shape => shape.2.any (·.source == name) := by
  unfold usesSource isResolved pairs shape
  cases r.resolution <;> simp

theorem isResolved_eq_isSome_shape (r : Reference) : r.isResolved = r.shape.isSome := by
  simp [isResolved, shape]

theorem isResolved_iff {r : Reference} :
    r.isResolved ↔ ∃ resolution, r.resolution = some resolution :=
  Option.isSome_iff_exists

theorem isResolved_eq_false_iff {r : Reference} : r.isResolved = false ↔ r.resolution = none := by
  simp [isResolved]

/-- Whatever does not look at the resolution is the same for references declared alike. -/
theorem congr_of_bare_eq {α : Type} {r s : Reference} (h : r.bare = s.bare) (g : Reference → α)
    (hg : ∀ r : Reference, g r.bare = g r := by intro; rfl) : g r = g s := by
  rw [← hg r, h, hg s]

theorem broughtColumns_eq_shape (r : Reference) :
    r.broughtColumns =
      match r.shape with
      | none => []
      | some (key, pairs) =>
          if r.bare.isImplicit then
            (key.zip pairs).map fun (k, p) => r.bare.broughtColumn k p
          else [] := by
  unfold broughtColumns shape
  cases r.resolution <;> rfl

/-- The columns that a reference brings depend on its declaration and on the shape of its
resolution. -/
theorem broughtColumns_congr {r s : Reference} (hbare : r.bare = s.bare)
    (hshape : r.shape = s.shape) : r.broughtColumns = s.broughtColumns := by
  rw [broughtColumns_eq_shape, broughtColumns_eq_shape s, hbare, hshape]

end Reference

theorem Column.congr_of_bare_eq {α : Type} {c d : Column} (h : c.bare = d.bare) (g : Column → α)
    (hg : ∀ c : Column, g c.bare = g c := by intro; rfl) : g c = g d := by
  rw [← hg c, h, hg d]

/-- The key columns that stand at a declaration. -/
def Declaration.key (d : Declaration) : PrimaryKey :=
  (d.columns.filter (·.primaryKey)).map KeyColumn.ofColumn

namespace Declaration

theorem key_reference_of_not_primaryKey {r : Reference} (h : r.primaryKey = false) :
    (Declaration.reference r).key = [] := by
  rw [key, columns, List.map_eq_nil_iff, List.filter_eq_nil_iff]
  intro c hc
  obtain ⟨k, p, rfl⟩ := Reference.eq_broughtColumn_of_mem hc
  simp [Reference.broughtColumn, h]

theorem key_reference_of_primaryKey {r : Reference} (h : r.primaryKey) :
    (Declaration.reference r).key = r.broughtColumns.map KeyColumn.ofColumn := by
  rw [key, columns, List.filter_eq_self.2]
  intro c hc
  obtain ⟨k, p, rfl⟩ := Reference.eq_broughtColumn_of_mem hc
  exact h

theorem key_column_congr {c d : Column} (h : c.bare = d.bare) :
    (Declaration.column c).key = (Declaration.column d).key := by
  have hkey : c.primaryKey = d.primaryKey := Column.congr_of_bare_eq h (·.primaryKey)
  have hof : KeyColumn.ofColumn c = KeyColumn.ofColumn d :=
    Column.congr_of_bare_eq h (KeyColumn.ofColumn ·)
  simp only [key, columns, List.filter_cons, List.filter_nil, hkey]
  split <;> simp [hof]

theorem key_reference_congr {r s : Reference} (hbare : r.bare = s.bare)
    (hshape : r.shape = s.shape) :
    (Declaration.reference r).key = (Declaration.reference s).key := by
  simp only [key, columns, Reference.broughtColumns_congr hbare hshape]

end Declaration

namespace Model

/-! ## 3. Models declared alike -/

theorem Laid.keyShape_eq {m : Model} (h : m.Laid) :
    m.keyShape = m.declarations.flatMap Declaration.key := by
  rw [keyShape, h.columns_eq, List.filter_flatMap, List.map_flatMap]
  rfl

section Alike

variable {m n : Model}

theorem name_eq_of_bare_eq (h : m.bare = n.bare) : m.name = n.name :=
  (congrArg Model.name h : m.bare.name = n.bare.name)

theorem map_bare_references_eq (h : m.bare = n.bare) :
    m.references.map Reference.bare = n.references.map Reference.bare :=
  (congrArg Model.references h : m.bare.references = n.bare.references)

theorem map_bare_declarations_eq (h : m.bare = n.bare) :
    m.declarations.map Declaration.bare = n.declarations.map Declaration.bare := by
  rw [← declarations_bare, h, declarations_bare]

theorem exists_declaredColumn_of_bare_eq (h : m.bare = n.bare) {c : Column}
    (hc : c ∈ m.declaredColumns) : ∃ d ∈ n.declaredColumns, d.bare = c.bare := by
  have hmap : m.declaredColumns.map Column.bare = n.declaredColumns.map Column.bare :=
    (congrArg Model.columns h : m.bare.columns = n.bare.columns)
  exact List.mem_map.1 (hmap ▸ List.mem_map_of_mem hc)

theorem exists_reference_of_bare_eq (h : m.bare = n.bare) {f : Reference}
    (hf : f ∈ m.references) : ∃ g ∈ n.references, g.bare = f.bare := by
  have hmem : f.bare ∈ n.references.map Reference.bare :=
    map_bare_references_eq h ▸ List.mem_map_of_mem hf
  exact List.mem_map.1 hmem

theorem exists_reference?_of_bare_eq (h : m.bare = n.bare) {index : Nat} {f : Reference}
    (hf : m.references[index]? = some f) :
    ∃ g, n.references[index]? = some g ∧ g.bare = f.bare := by
  have hat : (n.references.map Reference.bare)[index]? = some f.bare := by
    rw [← map_bare_references_eq h, List.getElem?_map, hf, Option.map_some]
  rw [List.getElem?_map, Option.map_eq_some_iff] at hat
  exact hat

/-- In models declared alike the references of one field are declared alike. -/
theorem bare_eq_of_field_eq (h : m.bare = n.bare) (hn : n.Laid) {f g : Reference}
    (hf : f ∈ m.references) (hg : g ∈ n.references) (hfield : f.field = g.field) :
    f.bare = g.bare := by
  obtain ⟨g', hg', hbare⟩ := exists_reference_of_bare_eq h hf
  have hfield' : g'.field = g.field :=
    (Reference.congr_of_bare_eq hbare (·.field)).trans hfield
  rw [← hbare, hn.reference_inj hg' hg hfield']

/-- Two models declared alike have the same key when what they have resolved of it is the same. -/
theorem keyShape_eq_of_bare_eq (hm : m.Laid) (hn : n.Laid) (h : m.bare = n.bare)
    (hshape : ∀ f ∈ m.references, ∀ g ∈ n.references, f.bare = g.bare → f.primaryKey →
      f.isImplicit → f.shape = g.shape) : m.keyShape = n.keyShape := by
  rw [hm.keyShape_eq, hn.keyShape_eq]
  refine flatMap_eq_of_map_eq (map_bare_declarations_eq h) ?_
  -- a column cannot be declared like a reference, which leaves two cases of four
  rintro (c | f) hd (d | g) hd' heq
  · exact Declaration.key_column_congr (Declaration.column.inj heq)
  · cases heq
  · cases heq
  · have hbare : f.bare = g.bare := Declaration.reference.inj heq
    have hf := reference_mem_declarations.1 hd
    have hg := reference_mem_declarations.1 hd'
    have hkey : f.primaryKey = g.primaryKey := Reference.congr_of_bare_eq hbare (·.primaryKey)
    have himplicit : f.isImplicit = g.isImplicit :=
      Reference.congr_of_bare_eq hbare (·.isImplicit)
    -- only implicit key references bring columns to the key
    cases hpk : f.primaryKey with
    | false =>
      rw [Declaration.key_reference_of_not_primaryKey hpk,
        Declaration.key_reference_of_not_primaryKey (hkey ▸ hpk)]
    | true =>
      cases himp : f.isImplicit with
      | true => exact Declaration.key_reference_congr hbare (hshape f hf g hg hbare hpk himp)
      | false =>
        simp only [Declaration.key, Declaration.columns,
          Reference.broughtColumns_of_explicit himp,
          Reference.broughtColumns_of_explicit (himplicit ▸ himp)]

/-- Models declared alike that have resolved all references alike have the same columns, with the
same flags and in the same order. -/
theorem columns_eq_of_bare_eq (hm : m.Laid) (hn : n.Laid) (h : m.bare = n.bare)
    (hshape : ∀ f ∈ m.references, ∀ g ∈ n.references, f.bare = g.bare → f.shape = g.shape) :
    m.columns = n.columns := by
  -- the flag of a declared column looks at all references, not just at one declaration
  have huses : ∀ name, m.references.any (·.usesSource name) =
      n.references.any (·.usesSource name) := by
    intro name
    have hmap := map_eq_of_map_eq (f := fun f => f.usesSource name)
      (g := fun g => g.usesSource name) (map_bare_references_eq h) fun f hf g hg hbare => by
        rw [Reference.usesSource_eq_shape, hshape f hf g hg hbare, ← Reference.usesSource_eq_shape]
    have hany := congrArg (fun flags => flags.any fun flag => flag) hmap
    simpa only [List.any_map, Function.comp_def] using hany
  rw [hm.columns_eq, hn.columns_eq]
  refine flatMap_eq_of_map_eq (map_bare_declarations_eq h) ?_
  rintro (c | f) hd (d | g) hd' heq
  · have hbare : c.bare = d.bare := Declaration.column.inj heq
    have hc := hm.mem_columns_iff.2 (.inl (column_mem_declarations.1 hd))
    have hd := hn.mem_columns_iff.2 (.inl (column_mem_declarations.1 hd'))
    have hname : c.name = d.name := Column.congr_of_bare_eq hbare (·.name)
    have hflag : c.foreignKey = d.foreignKey := by
      rw [hm.foreignKey_eq c hc, hn.foreignKey_eq d hd, isForeignKey, isForeignKey, hname, huses,
        Column.congr_of_bare_eq hbare (·.declaredForeignKey),
        Column.congr_of_bare_eq hbare (·.isSynthesized)]
    have hcd : c = d := by
      have hrestore : ∀ x : Column, x = { x.bare with foreignKey := x.foreignKey } := fun _ => rfl
      rw [hrestore c, hbare, hflag, ← hrestore d]
    rw [Declaration.columns, Declaration.columns, hcd]
  · cases heq
  · cases heq
  · have hbare : f.bare = g.bare := Declaration.reference.inj heq
    exact Reference.broughtColumns_congr hbare (hshape f (reference_mem_declarations.1 hd) g
      (reference_mem_declarations.1 hd') hbare)

end Alike

/-! ## 4. Growth -/

structure GrowsTo (m n : Model) : Prop where
  bare_eq : m.bare = n.bare
  shape_eq : ∀ f ∈ m.references, ∀ g ∈ n.references, f.field = g.field → f.isResolved →
    f.shape = g.shape

/-- Whether an implicit reference will still add to the key. -/
def awaitsKeyColumns (m : Model) : Bool :=
  m.references.any fun f => f.primaryKey && f.isImplicit && !f.isResolved

theorem awaitsKeyColumns_eq_false_of_isKeyFinal {m : Model} (h : m.isKeyFinal) :
    m.awaitsKeyColumns = false := by
  simp only [isKeyFinal, List.all_filter, List.all_eq_true] at h
  apply List.any_eq_false.2
  intro f hf
  have hat := h f hf
  cases hkey : f.primaryKey <;> cases hres : f.isResolved <;> simp_all

theorem isKeyFinal_iff {m : Model} :
    m.isKeyFinal ↔ ∀ f ∈ m.references, f.primaryKey → f.isResolved := by
  simp only [isKeyFinal, List.all_eq_true, List.mem_filter]
  exact ⟨fun h f hf hkey => h f ⟨hf, hkey⟩, fun h f hf => h f hf.1 hf.2⟩

namespace GrowsTo

variable {m n : Model}

theorem refl (h : m.Laid) : m.GrowsTo m :=
  ⟨rfl, fun _ hf _ hg hfield _ => by rw [h.reference_inj hf hg hfield]⟩

theorem isResolved_of_field_eq (h : m.GrowsTo n) {f g : Reference} (hf : f ∈ m.references)
    (hg : g ∈ n.references) (hfield : f.field = g.field) (hres : f.isResolved) : g.isResolved := by
  rw [Reference.isResolved_eq_isSome_shape, ← h.shape_eq f hf g hg hfield hres,
    ← Reference.isResolved_eq_isSome_shape]
  exact hres

theorem trans {p : Model} (h : m.GrowsTo n) (h' : n.GrowsTo p) : m.GrowsTo p where
  bare_eq := h.bare_eq.trans h'.bare_eq
  shape_eq f hf g hg hfield hres := by
    obtain ⟨f', hf', hbare⟩ := exists_reference_of_bare_eq h.bare_eq hf
    have hfield' : f.field = f'.field := Reference.congr_of_bare_eq hbare.symm (·.field)
    have hres' := h.isResolved_of_field_eq hf hf' hfield' hres
    rw [h.shape_eq f hf f' hf' hfield' hres]
    exact h'.shape_eq f' hf' g hg (hfield'.symm.trans hfield) hres'

theorem isKeyFinal (h : m.GrowsTo n) (hfinal : m.isKeyFinal) : n.isKeyFinal := by
  rw [isKeyFinal_iff] at hfinal ⊢
  intro g hg hkey
  obtain ⟨f, hf, hbare⟩ := exists_reference_of_bare_eq h.bare_eq.symm hg
  refine h.isResolved_of_field_eq hf hg (Reference.congr_of_bare_eq hbare (·.field)) ?_
  exact hfinal f hf (by rw [Reference.congr_of_bare_eq hbare (·.primaryKey)]; exact hkey)

/-- A key that waits for no columns is the same from then on. -/
theorem keyShape_eq (h : m.GrowsTo n) (hm : m.Laid) (hn : n.Laid)
    (hfinal : m.awaitsKeyColumns = false) : m.keyShape = n.keyShape := by
  apply keyShape_eq_of_bare_eq hm hn h.bare_eq
  intro f hf g hg hbare hkey himplicit
  have hnot := List.any_eq_false.1 hfinal f hf
  have hres : f.isResolved := by simpa [hkey, himplicit] using hnot
  exact h.shape_eq f hf g hg (Reference.congr_of_bare_eq hbare (·.field)) hres

/-- A key that waits for columns is longer once every implicit reference has brought some. -/
theorem length_keyShape_lt (h : m.GrowsTo n) (hm : m.Laid) (hn : n.Laid)
    (hopen : m.awaitsKeyColumns)
    (hbrought : ∀ g ∈ n.references, g.isImplicit → g.broughtColumns ≠ []) :
    m.keyShape.length < n.keyShape.length := by
  obtain ⟨f, hf, hwaits⟩ := List.any_eq_true.1 hopen
  simp only [Bool.and_eq_true, Bool.not_eq_true', Reference.isResolved_eq_false_iff] at hwaits
  obtain ⟨⟨hkey, himplicit⟩, hunresolved⟩ := hwaits
  rw [hm.keyShape_eq, hn.keyShape_eq]
  -- no declaration gives less to the key than before, and the one of the waiting reference more
  refine length_flatMap_lt_of_map_eq (map_bare_declarations_eq h.bare_eq) ?_
    ⟨.reference f, reference_mem_declarations.2 hf, ?_⟩
  · rintro (c | r) hd (d | s) hd' heq
    · exact Nat.le_of_eq (congrArg List.length
        (Declaration.key_column_congr (Declaration.column.inj heq)))
    · cases heq
    · cases heq
    · have hbare : r.bare = s.bare := Declaration.reference.inj heq
      cases hres : r.isResolved with
      | true =>
        exact Nat.le_of_eq (congrArg List.length (Declaration.key_reference_congr hbare
          (h.shape_eq r (reference_mem_declarations.1 hd) s (reference_mem_declarations.1 hd')
            (Reference.congr_of_bare_eq hbare (·.field)) hres)))
      | false =>
        simp [Declaration.key, Declaration.columns, Reference.broughtColumns_of_unresolved
          (Reference.isResolved_eq_false_iff.1 hres)]
  · rintro (d | g) hd' heq
    · cases heq
    · have hbare : f.bare = g.bare := Declaration.reference.inj heq
      have hne := hbrought g (reference_mem_declarations.1 hd')
        (by rw [← Reference.congr_of_bare_eq hbare (·.isImplicit)]; exact himplicit)
      rw [Declaration.key_reference_of_primaryKey hkey,
        Reference.broughtColumns_of_unresolved hunresolved,
        Declaration.key_reference_of_primaryKey
          (by rw [← Reference.congr_of_bare_eq hbare (·.primaryKey)]; exact hkey)]
      simpa using List.length_pos_iff.2 hne

/-- No column is lost, and none changes more than its flag. -/
theorem exists_column (h : m.GrowsTo n) (hm : m.Laid) (hn : n.Laid) {c : Column}
    (hc : c ∈ m.columns) : ∃ d ∈ n.columns, d.bare = c.bare := by
  rcases hm.mem_columns_iff.1 hc with hc | ⟨f, hf, hc⟩
  · obtain ⟨d, hd, hbare⟩ := exists_declaredColumn_of_bare_eq h.bare_eq hc
    exact ⟨d, hn.mem_columns_iff.2 (.inl hd), hbare⟩
  · obtain ⟨g, hg, hbare⟩ := exists_reference_of_bare_eq h.bare_eq hf
    have hres : f.isResolved := by
      cases hres : f.isResolved
      · simp [Reference.broughtColumns_of_unresolved
          (Reference.isResolved_eq_false_iff.1 hres)] at hc
      · rfl
    have hshape := h.shape_eq f hf g hg (Reference.congr_of_bare_eq hbare.symm (·.field)) hres
    rw [Reference.broughtColumns_congr hbare.symm hshape] at hc
    exact ⟨c, hn.mem_columns_iff.2 (.inr ⟨g, hg, hc⟩), rfl⟩

/-- No key column is lost. -/
theorem mem_keyShape (h : m.GrowsTo n) (hm : m.Laid) (hn : n.Laid) {k : KeyColumn}
    (hk : k ∈ m.keyShape) : k ∈ n.keyShape := by
  obtain ⟨c, hc, rfl⟩ := List.mem_map.1 hk
  obtain ⟨hc, hkey⟩ := List.mem_filter.1 hc
  obtain ⟨d, hd, hdc⟩ := h.exists_column hm hn hc
  have hdkey : d.primaryKey := by
    rw [Column.congr_of_bare_eq hdc (·.primaryKey)]
    exact hkey
  exact List.mem_map.2 ⟨d, List.mem_filter.2 ⟨hd, hdkey⟩,
    Column.congr_of_bare_eq hdc (KeyColumn.ofColumn ·)⟩

end GrowsTo

end Model

end RelSchema
