import RelSchema.Assembly

/-!
# How assembly fails

Unresolved references are reported by the check in front of assembly and by nothing else: whatever
the tables, the constraints or the verification find wrong is reported in another way.
-/

namespace RelSchema

/-! ## 1. Failures of composed computations -/

/-- Every error of the computation is of one sort. -/
def FailsOnlyWith {ε α : Type} (sort : ε → Prop) (x : Except ε α) : Prop :=
  ∀ e, x = .error e → sort e

namespace FailsOnlyWith

variable {ε α β : Type} {sort : ε → Prop}

theorem ok (a : α) : FailsOnlyWith sort (.ok a : Except ε α) := by
  intro e he
  cases he

theorem error {e : ε} (h : sort e) : FailsOnlyWith sort (.error e : Except ε α) := by
  rintro e' ⟨⟩
  exact h

theorem bind {x : Except ε α} {f : α → Except ε β} (hx : FailsOnlyWith sort x)
    (hf : ∀ a, FailsOnlyWith sort (f a)) : FailsOnlyWith sort (x >>= f) := by
  cases x with
  | error e => exact error (hx e rfl)
  | ok a => exact hf a

theorem foldlM {f : β → α → Except ε β} (h : ∀ b a, FailsOnlyWith sort (f b a)) (xs : List α)
    (start : β) : FailsOnlyWith sort (xs.foldlM f start) := by
  induction xs generalizing start with
  | nil => exact ok start
  | cons x xs ih =>
    rw [List.foldlM_cons]
    exact bind (h start x) ih

theorem mapM {f : α → Except ε β} (h : ∀ a, FailsOnlyWith sort (f a)) (xs : List α) :
    FailsOnlyWith sort (xs.mapM f) := by
  induction xs with
  | nil => exact ok []
  | cons x xs ih =>
    rw [List.mapM_cons]
    exact bind (h x) fun y => bind ih fun ys => ok (y :: ys)

theorem forM {f : α → Except ε PUnit} (h : ∀ a, FailsOnlyWith sort (f a)) (xs : List α) :
    FailsOnlyWith sort (xs.forM f) := by
  induction xs with
  | nil => exact ok PUnit.unit
  | cons x xs ih =>
    show FailsOnlyWith sort (f x >>= fun _ => xs.forM f)
    exact bind (h x) fun _ => ih

end FailsOnlyWith

/-! ## 2. Failures of assembly -/

/-- Whether the failure says that references are unresolved. -/
def Failure.saysUnresolved : Failure → Bool
  | .error e => e.kind == .unresolved
  | .fault _ => false

abbrev SettledFailure (e : Failure) : Prop :=
  e.saysUnresolved = false

namespace Storage

variable {s : Schema} {t : Table}

theorem failsOnlyWith_require (condition : Bool) (defect : Defect) :
    FailsOnlyWith SettledFailure
      (if condition then .ok () else .error (.error (.adHoc defect.message)) :
        Except Failure Unit) := by
  split
  · exact .ok ()
  · exact .error rfl

theorem Table.failsOnlyWith_verifyKey (t : Table) : FailsOnlyWith SettledFailure t.verifyKey := by
  unfold Table.verifyKey
  split
  · exact .error rfl
  · refine .forM (fun id => ?_) _
    cases t.column id with
    | error f => exact .error rfl
    | ok c => exact failsOnlyWith_require _ _

theorem Table.failsOnlyWith_verifyNames (t : Table) :
    FailsOnlyWith SettledFailure t.verifyNames := by
  unfold Table.verifyNames
  split
  · exact .error rfl
  · exact .ok ()

namespace Schema

theorem failsOnlyWith_verifyTarget (s : Schema) (t : Table) (c : Constraint) :
    FailsOnlyWith SettledFailure (s.verifyTarget t c) := by
  unfold verifyTarget
  cases s.table c.target with
  | error f => exact .error rfl
  | ok target =>
    dsimp only
    split
    · exact .forM (fun pair => failsOnlyWith_require _ _) _
    · exact .error rfl

theorem failsOnlyWith_verifyPair (s : Schema) (t : Table) (c : Constraint) (pair : ColumnPair) :
    FailsOnlyWith SettledFailure (s.verifyPair t c pair) := by
  unfold verifyPair
  cases s.column pair.source with
  | error f => exact .error rfl
  | ok source =>
    cases s.column pair.target with
    | error f => exact .error rfl
    | ok target => exact failsOnlyWith_require _ _

theorem failsOnlyWith_verify (s : Schema) : FailsOnlyWith SettledFailure s.verify := by
  unfold verify
  refine .bind (.forM Table.failsOnlyWith_verifyKey _) fun _ => ?_
  refine .bind (.forM Table.failsOnlyWith_verifyNames _) fun _ => ?_
  refine .bind (.forM (fun t => .forM (fun c => s.failsOnlyWith_verifyTarget t c) _) _) fun _ => ?_
  exact .forM (fun t => .forM (fun c => .forM (fun pair => s.failsOnlyWith_verifyPair t c pair) _)
    _) _

end Schema

end Storage

namespace Registry

open Storage (Table Schema)

theorem failsOnlyWith_addTable (o : BuildOptions) (tables : List Table) (m : Model) :
    FailsOnlyWith SettledFailure (addTable o tables m) := by
  unfold addTable
  dsimp only
  split
  · exact .error rfl
  · split
    · exact .error rfl
    · exact .ok _

theorem failsOnlyWith_columnId (t : Table) (name : String) :
    FailsOnlyWith SettledFailure (t.columnId name) := by
  unfold Table.columnId
  split
  · exact .ok _
  · exact .error rfl

theorem failsOnlyWith_columnPair (source target : Table) (p : Pair) :
    FailsOnlyWith SettledFailure (columnPair source target p) := by
  unfold columnPair
  cases hsource : source.columnId p.source with
  | error e => exact .error (failsOnlyWith_columnId source p.source e hsource)
  | ok sourceId =>
    cases htarget : target.columnId p.target with
    | error e => exact .error (failsOnlyWith_columnId target p.target e htarget)
    | ok targetId => exact .ok _

theorem failsOnlyWith_constraint (tables : List Table) (t : Table) (f : Reference) :
    FailsOnlyWith SettledFailure (constraint tables t f) := by
  unfold constraint
  cases f.resolution with
  | none => exact .error rfl
  | some resolution =>
    dsimp only
    cases tables[resolution.target]? with
    | none => exact .error rfl
    | some target =>
      dsimp only
      have hmapM := FailsOnlyWith.mapM (failsOnlyWith_columnPair t target) resolution.pairs
      cases hpairs : resolution.pairs.mapM (columnPair t target) with
      | error e => exact .error (hmapM e hpairs)
      | ok pairs => exact .ok _

theorem failsOnlyWith_addConstraints (tables : List Table) (t : Table) (m : Model) :
    FailsOnlyWith SettledFailure (addConstraints tables t m) := by
  unfold addConstraints
  have hmapM := FailsOnlyWith.mapM (failsOnlyWith_constraint tables t) m.references
  cases hconstraints : m.references.mapM (constraint tables t) with
  | error e => exact .error (hmapM e hconstraints)
  | ok constraints => exact .ok _

theorem failsOnlyWith_toSchema (r : Registry) (o : BuildOptions) :
    FailsOnlyWith SettledFailure (r.toSchema o) := by
  unfold toSchema
  refine .bind (.foldlM (failsOnlyWith_addTable o) _ _) fun bare => ?_
  refine .bind (.mapM ?_ _) fun full => ?_
  · rintro ⟨t, m⟩
    exact failsOnlyWith_addConstraints bare t m
  dsimp only
  split
  · exact .bind (Schema.failsOnlyWith_verify _) fun _ => .ok _
  · exact .ok _

/-- Behind the check in front, assembly is nothing but making the schema. -/
theorem result_assemble {r : Registry} (hr : r.hasForeignTarget = false) (o : BuildOptions) :
    (r.assemble o).result =
      if r.unsettled.isEmpty then r.toSchema o else .error (.error (.unresolved r.unsettled)) := by
  unfold assemble
  rw [if_neg (by simp [hr])]
  by_cases hempty : r.unsettled.isEmpty
  · rw [if_pos hempty, if_pos hempty, Logged.result_bind, Logged.result_ofExcept]
    cases r.toSchema o <;> rfl
  · rw [if_neg hempty, if_neg hempty, Logged.result_fail]

/-- Assembly fails with unresolved references exactly when some reference is unresolved or stale. -/
theorem assemble_eq_unresolved_iff {r : Registry} (hr : r.hasForeignTarget = false)
    (o : BuildOptions) {names : List String} :
    (r.assemble o).result = .error (.error (.unresolved names)) ↔
      r.unsettled ≠ [] ∧ names = r.unsettled := by
  rw [result_assemble hr]
  by_cases hempty : r.unsettled = []
  · rw [if_pos (by simp [hempty])]
    refine iff_of_false (fun h => ?_) fun h => h.1 hempty
    -- past the check in front no failure is of this sort
    have hsettled := r.failsOnlyWith_toSchema o _ h
    simp [SettledFailure, Failure.saysUnresolved, Error.kind] at hsettled
  · rw [if_neg (by simpa using hempty), and_iff_right hempty]
    simp [eq_comm]

end Registry

end RelSchema
