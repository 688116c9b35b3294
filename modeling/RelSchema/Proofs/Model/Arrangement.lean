import Mathlib.Data.List.Perm.Basic
import RelSchema.Model.Layout

/-!
# Arranging loses no column

Every column stands at its own declaration, at the reference that has marked it, or among the
strays.  As long as the fields of the references differ, it stands at one place only, so that
arranging the columns of a model does no more than put them in another order.
-/

namespace RelSchema

theorem Column.field_eq_of_isMarkedBy {c : Column} {field field' : String}
    (h : c.isMarkedBy field) (h' : c.isMarkedBy field') : field = field' := by
  simp only [Column.isMarkedBy, beq_iff_eq] at h h'
  exact Option.some.inj (h.symm.trans h')

namespace Model

/-- What either of two tests accepts is accepted by one or by the other, when no element passes
both. -/
theorem filter_or_perm {α : Type} {p q : α → Bool} {xs : List α}
    (h : ∀ x ∈ xs, p x → q x = false) :
    (xs.filter fun x => p x || q x).Perm (xs.filter p ++ xs.filter q) := by
  have hfirst : ((xs.filter fun x => p x || q x).filter p) = xs.filter p := by
    rw [List.filter_filter]
    refine List.filter_congr fun x _ => ?_
    cases p x <;> rfl
  have hsecond : ((xs.filter fun x => p x || q x).filter fun x => !p x) = xs.filter q := by
    rw [List.filter_filter]
    refine List.filter_congr fun x hx => ?_
    cases hp : p x
    · simp
    · simp [h x hx hp]
  have hsplit := List.filter_append_perm p (xs.filter fun x => p x || q x)
  rw [hfirst, hsecond] at hsplit
  exact hsplit.symm

/-- A column with the mark of one of the references stands at that reference. -/
theorem flatMap_filter_isMarkedBy_perm {references : List Reference}
    (h : (references.map (·.field)).Nodup) (columns : List Column) :
    (references.flatMap fun r => columns.filter (·.isMarkedBy r.field)).Perm
      (columns.filter fun c => references.any fun r => c.isMarkedBy r.field) := by
  induction references with
  | nil => simp
  | cons r references ih =>
    rw [List.map_cons, List.nodup_cons] at h
    -- no column has the mark of this reference and that of a later one
    have hdisjoint : ∀ c ∈ columns, c.isMarkedBy r.field →
        (references.any fun f => c.isMarkedBy f.field) = false := by
      intro c _ hc
      rw [List.any_eq_false]
      intro f hf hmark
      exact h.1 (Column.field_eq_of_isMarkedBy hc hmark ▸ List.mem_map_of_mem hf)
    rw [List.flatMap_cons]
    exact ((ih h.2).append_left _).trans (filter_or_perm hdisjoint).symm

theorem flatMap_columnsAt_perm (m : Model) (ds : List Declaration) :
    (ds.flatMap m.columnsAt).Perm
      (columnsOf ds ++ (referencesOf ds).flatMap fun r =>
        m.columns.filter (·.isMarkedBy r.field)) := by
  induction ds with
  | nil => exact .refl _
  | cons d ds ih =>
    rw [List.flatMap_cons]
    cases d with
    | column c => exact ih.cons c
    | reference r =>
      -- the marked columns move behind the declared ones that are still to come
      refine (ih.append_left _).trans ?_
      rw [← List.append_assoc]
      refine (List.perm_append_comm.append_right _).trans ?_
      rw [List.append_assoc]
      exact .refl _

theorem arrange_columns_perm {m : Model} (h : (m.references.map (·.field)).Nodup) :
    m.arrange.columns.Perm m.columns := by
  have hat := m.flatMap_columnsAt_perm m.declarations
  rw [columnsOf_declarations, referencesOf_declarations] at hat
  have hsynthesized :
      ((m.columns.filter fun c => m.references.any fun r => c.isMarkedBy r.field) ++
        m.strayColumns).Perm (m.columns.filter (·.isSynthesized)) := by
    have hsplit := List.filter_append_perm
      (fun c => m.references.any fun r => c.isMarkedBy r.field)
      (m.columns.filter (·.isSynthesized))
    rw [List.filter_filter, List.filter_filter] at hsplit
    refine (List.Perm.of_eq ?_).trans hsplit
    congr 1
    · -- only synthesized columns are marked
      refine List.filter_congr fun c _ => ?_
      cases hmark : m.references.any fun r => c.isMarkedBy r.field
      · rfl
      · obtain ⟨r, -, hr⟩ := List.any_eq_true.1 hmark
        rw [Column.isSynthesized_of_isMarkedBy hr]
        rfl
    · exact List.filter_congr fun c _ => Bool.and_comm _ _
  show (m.declarations.flatMap m.columnsAt ++ m.strayColumns).Perm m.columns
  refine (hat.append_right _).trans ?_
  rw [List.append_assoc]
  -- declared columns in front, all others behind them
  refine ((((flatMap_filter_isMarkedBy_perm h m.columns).append_right _).trans
    hsynthesized).append_left _).trans ?_
  simpa [declaredColumns] using List.filter_append_perm (!·.isSynthesized) m.columns

/-- Arranging changes no name. -/
theorem names_arrange_perm {m : Model} (h : (m.references.map (·.field)).Nodup) :
    m.arrange.names.Perm m.names :=
  ((arrange_columns_perm h).map _).append_right _

end Model

end RelSchema
