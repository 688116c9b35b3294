import RelSchema.Proofs.Assembly.Constraints
import RelSchema.Proofs.Assembly.Failures
import RelSchema.Proofs.Resolve.Confluence
import RelSchema.Proofs.Resolve.Positions

/-!
# Builds

As long as no model is replaced, a resolution that succeeds makes the whole build succeed, unless
two models get one table name.  The build then has the table of every registered model.
-/

namespace RelSchema

open Storage (Table TableId Schema)

/-! ## 1. Assembly of a finished registry -/

/-- The first model, in the order of the list, whose table name an earlier model has. -/
def BuildOptions.FirstTaken (o : BuildOptions) (models : List Model) (m : Model) : Prop :=
  ∃ before rest, models = before ++ m :: rest ∧ (before.map o.tableName).Nodup ∧
    o.tableName m ∈ before.map o.tableName

namespace Registry

variable {o : BuildOptions} {r : Registry} {s : Schema} {m : Model}

namespace Finished

/-- There is nothing for the check in front of assembly to find. -/
theorem result_assemble (hr : r.Finished) (o : BuildOptions) :
    (r.assemble o).result = r.toSchema o := by
  have hsettled : r.unsettled = [] := by
    refine List.flatMap_eq_nil_iff.2 fun m hm => ?_
    rw [List.map_eq_nil_iff, List.filter_eq_nil_iff]
    intro f hf
    obtain ⟨resolution, hres⟩ := Reference.isResolved_iff.1 (hr.isResolved m hm f hf)
    have hstale := (hr.coherent.settled m hm f hf resolution hres).isStale_eq_false
      hr.coherent.sound hm hf
    simp [hr.isResolved m hm f hf, hstale]
  rw [Registry.result_assemble hr.coherent.sound.hasForeignTarget_eq_false,
    if_pos (by simp [hsettled])]

theorem toSchema_eq_ok (hr : r.Finished) (hs : r.Represents o s)
    (hnodup : (r.models.map o.tableName).Nodup) : r.toSchema o = .ok s :=
  toSchema_eq_ok_iff.2 ⟨hnodup, hr.keyShape_ne_nil, hs, fun _ => sound_of_represents hr hs⟩

theorem toSchema_of_firstTaken (hr : r.Finished) (hm : o.FirstTaken r.models m) :
    r.toSchema o = .error (.error (.duplicateTable m.name (o.tableName m))) := by
  obtain ⟨before, rest, hmodels, hnodup, htaken⟩ := hm
  refine toSchema_of_taken hmodels hnodup (fun n hn => hr.keyShape_ne_nil n ?_) htaken
  rw [hmodels]
  exact List.mem_append_left _ hn

/-- Verification never finds anything. -/
theorem toSchema_verify (hr : r.Finished) (o : BuildOptions) (verify : Bool) :
    r.toSchema { o with verify := verify } = r.toSchema o := by
  rcases nodup_map_or_exists_repeated o.tableName r.models with
    hnodup | ⟨before, m, rest, hmodels, hnodup, htaken⟩
  · obtain ⟨s, hs⟩ := exists_represents hr o
    have hs' : r.Represents { o with verify := verify } s := ⟨hs.length_eq, hs.table_eq⟩
    rw [hr.toSchema_eq_ok hs hnodup, hr.toSchema_eq_ok hs' hnodup]
  · have hm : o.FirstTaken r.models m := ⟨before, rest, hmodels, hnodup, htaken⟩
    have hm' : ({ o with verify := verify } : BuildOptions).FirstTaken r.models m := hm
    rw [hr.toSchema_of_firstTaken hm]
    exact hr.toSchema_of_firstTaken hm'

end Finished

end Registry

/-! ## 2. Tables by model name -/

/-- The build has one table for every registered name, and none for any other. -/
structure Build.FindsTables (b : Build) : Prop where
  exists_table : ∀ name, b.registry.contains name → ∃ t ∈ b.schema.tables,
    b.tableOf name = .ok t ∧ ∀ u ∈ b.schema.tables, u.model = name ↔ u = t
  unknown : ∀ name, b.registry.contains name = false →
    b.tableOf name = .error (.error (.unknownModel name))

namespace Registry

variable {o : BuildOptions} {r : Registry} {s : Schema}

theorem Represents.findsTables (hs : r.Represents o s) (hr : r.Sound) :
    (⟨r, s⟩ : Build).FindsTables := by
  refine ⟨fun name hname => ?_, fun name hname => ?_⟩
  · obtain ⟨m, hm, hmname⟩ := List.any_eq_true.1 hname
    obtain rfl : m.name = name := by simpa using hmname
    obtain ⟨id, hid⟩ := exists_get?_of_mem hm
    have hidOf : r.idOf m.name = some id := (idOf_eq_some_iff hr.nodup_names).2 ⟨m, hid, rfl⟩
    obtain ⟨constraints, ht⟩ := hs.exists_table hid
    have hget := Schema.table_eq_ok_iff.1 ht
    refine ⟨_, List.mem_of_getElem? hget, ?_, fun u hu => ⟨fun hmodel => ?_, fun heq => heq ▸ rfl⟩⟩
    · simp only [Build.tableOf, Build.tableId, hidOf, ht, Except.mapError]
    · -- the tables of two models of one name stand at one place
      obtain ⟨id', hid'⟩ := List.getElem?_of_mem hu
      obtain ⟨m', constraints', hm', -, rfl⟩ := hs.exists_model hid'
      have hidOf' : r.idOf m.name = some id' :=
        (idOf_eq_some_iff hr.nodup_names).2 ⟨m', hm', hmodel⟩
      obtain rfl := Option.some.inj (hidOf.symm.trans hidOf')
      exact Option.some.inj (hid'.symm.trans hget)
  · have hidOf : r.idOf name = none := idOf_eq_none_iff.2 hname
    simp only [Build.tableOf, Build.tableId, hidOf]

end Registry

/-! ## 3. Builds -/

namespace Registry

variable {operations : List Operation} {o : BuildOptions} {r : Registry}

theorem result_build {start : Registry} (h : (start.resolve o.separator).result = .ok r) :
    (start.build o).result = (r.assemble o).result.map fun s => ⟨r, s⟩ := by
  unfold build
  rw [Logged.result_bind_ok h, Logged.result_bind]
  cases (r.assemble o).result <;> rfl

/-- After a resolution that succeeds only table names can make the build fail. -/
theorem build_of_resolve (hfresh : ∀ operation ∈ operations, operation.Fresh)
    (haccumulates : ∀ operation ∈ operations, operation.Accumulates)
    (h : ((after operations).resolve o.separator).result = .ok r) :
    r.Positioned ∧
      (∀ verify, ((after operations).build { o with verify := verify }).result =
        ((after operations).build o).result) ∧
      ((r.models.map o.tableName).Nodup → ∃ s, ((after operations).build o).result = .ok ⟨r, s⟩ ∧
        s.Numbered ∧ s.Sound ∧ (⟨r, s⟩ : Build).FindsTables) ∧
      (¬(r.models.map o.tableName).Nodup → ∃ m, o.FirstTaken r.models m ∧
        ((after operations).build o).result =
          .error (.error (.duplicateTable m.name (o.tableName m)))) := by
  have hcoherent := coherent_after_of_accumulates hfresh haccumulates
  have hr := hcoherent.finished h
  have hbuild : ∀ verify, ((after operations).build { o with verify := verify }).result =
      (r.toSchema o).map fun s => ⟨r, s⟩ := by
    intro verify
    have hresolve : ((after operations).resolve
        ({ o with verify := verify } : BuildOptions).separator).result = .ok r := h
    rw [result_build hresolve, hr.result_assemble, hr.toSchema_verify]
  refine ⟨(positioned_after operations).congr (map_id_of_resolve h),
    fun verify => (hbuild verify).trans (hbuild o.verify).symm, fun hnodup => ?_,
    fun hrepeated => ?_⟩
  · obtain ⟨s, hs⟩ := exists_represents hr o
    refine ⟨s, ?_, hs.numbered, sound_of_represents hr hs, hs.findsTables hr.coherent.sound⟩
    rw [hbuild o.verify, hr.toSchema_eq_ok hs hnodup]
    rfl
  · obtain ⟨before, m, rest, htaken⟩ :=
      (nodup_map_or_exists_repeated o.tableName r.models).resolve_left hrepeated
    have hm : o.FirstTaken r.models m := ⟨before, rest, htaken⟩
    refine ⟨m, hm, ?_⟩
    rw [hbuild o.verify, hr.toSchema_of_firstTaken hm]
    rfl

def prefixed : BuildOptions where
  tablePrefix := some "app_"

/-- The build of models of which the last is registered after a first resolution. -/
theorem build_of_resolve_inBatches :
    ∃ r s, ((after inBatches).build prefixed).result = .ok ⟨r, s⟩ ∧ s.Sound ∧
      (⟨r, s⟩ : Build).FindsTables := by
  have hresolve : ∃ r, ((after inBatches).resolve prefixed.separator).result = .ok r ∧
      (r.models.map prefixed.tableName).Nodup := ⟨_, rfl, by decide⟩
  obtain ⟨r, hr, hnodup⟩ := hresolve
  have haccumulates : ∀ operation ∈ inBatches, operation.Accumulates := by
    simp [inBatches, Operation.Accumulates]
  obtain ⟨-, -, hsucceeds, -⟩ := build_of_resolve fresh_inBatches haccumulates hr
  obtain ⟨s, hbuild, -, hsound, htables⟩ := hsucceeds hnodup
  exact ⟨r, s, hbuild, hsound, htables⟩

end Registry

end RelSchema
