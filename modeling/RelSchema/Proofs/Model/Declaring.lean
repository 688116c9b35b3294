import Mathlib.Data.List.Induction
import Mathlib.Data.List.TakeWhile
import RelSchema.Proofs.Model.Settlement

/-!
# Models and the calls that declared them

A model does not keep the order in which its columns and references were declared, only how many
columns stood in front of each reference.  That is enough: read back, the declarations are those
that were handed in, one after the other.
-/

namespace RelSchema

/-! ## 1. Declarations in turn -/

/-- The model was made by declaring fresh fields in turn.  A declaration that is refused leaves the
model as it was and does not count. -/
inductive Model.DeclaredBy : Model → List Declaration → Prop
  | new (name : String) : Model.DeclaredBy { name := name } []
  | named {m : Model} {calls : List Declaration} (h : m.DeclaredBy calls) (table : String) :
      Model.DeclaredBy { m with tableName := some table } calls
  | declare {m added : Model} {calls : List Declaration} {d : Declaration}
      (h : m.DeclaredBy calls) (hd : d.Fresh) (hadd : m.declare d = .ok added) :
      added.DeclaredBy (calls ++ [d])

/-- The column as it was handed in, before it joined a model. -/
def Column.handedIn (c : Column) : Column :=
  { c with foreignKey := c.declaredForeignKey, declaredForeignKey := false }

/-- The reference as it was handed in, before it had a place and before it was resolved. -/
def Reference.handedIn (r : Reference) : Reference :=
  { r with place := 0, resolution := none }

def Declaration.handedIn : Declaration → Declaration :=
  Declaration.map Column.handedIn Reference.handedIn

namespace Model

theorem DeclaredBy.fresh {m : Model} {calls : List Declaration} (h : m.DeclaredBy calls) :
    m.Fresh := by
  induction h with
  | new name => exact .new name
  | named _ table ih => exact ih.named table
  | declare _ hd hadd ih => exact ih.declare hd hadd

theorem Fresh.exists_calls {m : Model} (h : m.Fresh) : ∃ calls, m.DeclaredBy calls := by
  induction h with
  | new name => exact ⟨[], .new name⟩
  | named _ table ih =>
    obtain ⟨calls, h⟩ := ih
    exact ⟨calls, h.named table⟩
  | @declare m added d _ hd hadd ih =>
    obtain ⟨calls, h⟩ := ih
    exact ⟨calls ++ [d], h.declare hd hadd⟩

/-! ## 2. One more declaration -/

theorem takeWhile_append_singleton (references : List Reference) {r : Reference} {index : Nat}
    (hr : index < r.place) :
    (references ++ [r]).takeWhile (·.place ≤ index) = references.takeWhile (·.place ≤ index) ∧
      (references ++ [r]).dropWhile (·.place ≤ index) =
        references.dropWhile (·.place ≤ index) ++ [r] := by
  have hnot : ¬r.place ≤ index := Nat.not_le.2 hr
  induction references with
  | nil => simp [hnot]
  | cons f references ih =>
    by_cases hf : f.place ≤ index
    · simp [hf, ih.1, ih.2]
    · simp [hf]

/-- A column that is declared last stands behind everything else. -/
theorem weave_append_column {index : Nat} {columns : List Column} {references : List Reference}
    (hplace : ∀ r ∈ references, r.place ≤ index + columns.length) (c : Column) :
    weave index (columns ++ [c]) references = weave index columns references ++ [.column c] := by
  induction columns generalizing index references with
  | nil =>
    have hall : ∀ r ∈ references, decide (r.place ≤ index) = true := fun r hr =>
      decide_eq_true (hplace r hr)
    rw [List.nil_append, weave, weave, List.takeWhile_eq_self_iff.2 hall,
      List.dropWhile_eq_nil_iff.2 hall]
    rfl
  | cons d columns ih =>
    have hrest : ∀ r ∈ references.dropWhile (·.place ≤ index),
        r.place ≤ index + 1 + columns.length := by
      intro r hr
      have hle := hplace r ((List.dropWhile_sublist _).subset hr)
      rw [List.length_cons] at hle
      omega
    rw [List.cons_append, weave, weave, ih hrest, List.append_assoc]
    rfl

/-- So does a reference that is declared last. -/
theorem weave_append_reference {index : Nat} {columns : List Column}
    {references : List Reference} {r : Reference} (hr : r.place = index + columns.length) :
    weave index columns (references ++ [r]) = weave index columns references ++ [.reference r] := by
  induction columns generalizing index references with
  | nil => simp [weave]
  | cons d columns ih =>
    -- the new reference stands behind this column, so that it is not taken in front of it
    rw [List.length_cons] at hr
    have hlater : index < r.place := by omega
    obtain ⟨htake, hdrop⟩ := takeWhile_append_singleton references hlater
    rw [weave, weave, htake, hdrop, ih (by omega), List.append_assoc]
    rfl

theorem declaredColumns_addColumn {m added : Model} {c : Column} (hc : c.synthesizedBy = none)
    (h : m.addColumn c = .ok added) : added.declaredColumns = m.declaredColumns ++ [joined c] := by
  rw [(addColumn_eq_ok_iff.1 h).2]
  simp [declaredColumns, joined, Column.isSynthesized, hc]

theorem references_addColumn {m added : Model} {c : Column} (h : m.addColumn c = .ok added) :
    added.references = m.references := by
  rw [(addColumn_eq_ok_iff.1 h).2]

namespace DeclaredBy

variable {m : Model} {calls : List Declaration}

/-- No reference stands behind columns that are not there. -/
theorem place_le (h : m.DeclaredBy calls) :
    ∀ r ∈ m.references, r.place ≤ m.declaredColumns.length := by
  induction h with
  | new name => simp
  | named _ table ih => exact ih
  | @declare m added calls d _ hd hadd ih =>
    cases d with
    | column c =>
      rw [declaredColumns_addColumn hd.1 hadd, references_addColumn hadd, List.length_append]
      exact fun r hr => Nat.le_add_right_of_le (ih r hr)
    | reference f =>
      obtain ⟨-, rfl⟩ := addReference_eq_ok_iff.1 hadd
      intro r hr
      rcases List.mem_append.1 hr with hr | hr
      · exact ih r hr
      · obtain rfl := List.mem_singleton.1 hr
        exact Nat.le_refl _

/-- Declared in turn, the fields are read back in turn. -/
theorem map_handedIn (h : m.DeclaredBy calls) : m.declarations.map .handedIn = calls := by
  induction h with
  | new name => rfl
  | named _ table ih => exact ih
  | @declare m added calls d hm hd hadd ih =>
    -- the last declaration goes behind the others, and handing in undoes what joining has done
    cases d with
    | column c =>
      obtain ⟨hmark, hflag⟩ := hd
      have hjoined : (Declaration.column (joined c)).handedIn = .column c := by
        cases c
        simp_all [Declaration.handedIn, Declaration.map, joined, Column.handedIn]
      have hplace : ∀ r ∈ m.references, r.place ≤ 0 + m.declaredColumns.length := by
        simpa using hm.place_le
      rw [declarations, declaredColumns_addColumn hmark hadd, references_addColumn hadd,
        weave_append_column hplace, List.map_append, List.map_singleton, hjoined]
      exact congrArg (· ++ [.column c]) ih
    | reference f =>
      obtain ⟨hopen, hzero⟩ := hd
      obtain ⟨-, rfl⟩ := addReference_eq_ok_iff.1 hadd
      have hgiven : (Declaration.reference
          { f with place := m.declaredColumns.length }).handedIn = .reference f := by
        cases f
        simp_all [Declaration.handedIn, Declaration.map, Reference.handedIn]
      show (weave 0 m.declaredColumns (m.references ++ [_])).map _ = _
      rw [weave_append_reference (Nat.zero_add _).symm, List.map_append, List.map_singleton,
        hgiven]
      exact congrArg (· ++ [.reference f]) ih

/-- Resolutions do not show once the declarations are taken back to what was handed in. -/
theorem map_handedIn_of_bare (h : m.bare.DeclaredBy calls) :
    m.declarations.map .handedIn = calls := by
  rw [← h.map_handedIn, declarations_bare, List.map_map]
  exact List.map_congr_left fun d _ => by cases d <;> rfl

theorem names_perm (h : m.DeclaredBy calls) : m.names.Perm (calls.map Declaration.name) := by
  induction h with
  | new name => exact .refl _
  | named _ table ih => exact ih
  | declare _ _ hadd ih =>
    rw [List.map_append]
    exact (names_declare hadd).trans ((ih.cons _).trans (List.perm_append_singleton _ _).symm)

end DeclaredBy

/-! ## 3. Declarations without refusal -/

theorem exists_declare_of_notMem {m : Model} {d : Declaration} (h : d.name ∉ m.names) :
    ∃ added, m.declare d = .ok added := by
  cases d with
  | column c => exact ⟨_, addColumn_eq_ok_iff.2 ⟨h, rfl⟩⟩
  | reference f => exact ⟨_, addReference_eq_ok_iff.2 ⟨h, rfl⟩⟩

/-- Fields whose names differ are all declared. -/
theorem declaredBy_ofFields {name : String} {fields : List Declaration}
    (hfresh : ∀ d ∈ fields, d.Fresh) (hnames : (fields.map Declaration.name).Nodup) :
    (ofFields name fields).DeclaredBy fields := by
  induction fields using List.reverseRecOn with
  | nil => exact .new name
  | append_singleton fields d ih =>
    rw [List.map_append, List.nodup_append] at hnames
    have hbefore := ih (fun d' hd' => hfresh d' (List.mem_append_left _ hd')) hnames.1
    have hnew : d.name ∉ (ofFields name fields).names := fun hmem =>
      hnames.2.2 _ (hbefore.names_perm.mem_iff.1 hmem) _ (List.mem_singleton_self _) rfl
    obtain ⟨added, hadd⟩ := exists_declare_of_notMem hnew
    have hlast : ofFields name (fields ++ [d]) = added := by
      unfold ofFields at hadd
      rw [ofFields, List.foldl_append, List.foldl_cons, List.foldl_nil, hadd]
    rw [hlast]
    exact hbefore.declare (hfresh d (List.mem_append_right _ (List.mem_singleton_self d))) hadd

end Model

end RelSchema
