import Mathlib.Data.String.Basic
import RelSchema.Assembly

/-!
# Names of tables

Assembly compares the names of tables with each other and mentions them in messages.  Everything
else is looked up by position or by column name, so that another naming that keeps different names
different gives the same tables under other names, and fails where the first one fails.
-/

namespace RelSchema

/-! ## 1. Computations side by side -/

/-- Both computations succeed, the second one with the image of what the first one gives, or both
fail in like ways. -/
inductive Carried {ε α β : Type} (alike : ε → ε → Prop) (image : α → β) :
    Except ε α → Except ε β → Prop
  | ok (a : α) : Carried alike image (.ok a) (.ok (image a))
  | error {e e' : ε} (h : alike e e') : Carried alike image (.error e) (.error e')

namespace Carried

variable {ε α β γ δ : Type} {alike : ε → ε → Prop} {image : α → β} {next : γ → δ}

theorem bind {x : Except ε α} {y : Except ε β} {f : α → Except ε γ} {g : β → Except ε δ}
    (hxy : Carried alike image x y) (hfg : ∀ a, Carried alike next (f a) (g (image a))) :
    Carried alike next (x >>= f) (y >>= g) := by
  cases hxy with
  | ok a => exact hfg a
  | error h => exact .error h

theorem foldlM {f : α → γ → Except ε α} {g : β → γ → Except ε β}
    (hfg : ∀ a c, Carried alike image (f a c) (g (image a) c)) (cs : List γ) (start : α) :
    Carried alike image (cs.foldlM f start) (cs.foldlM g (image start)) := by
  induction cs generalizing start with
  | nil => exact .ok start
  | cons c cs ih =>
    rw [List.foldlM_cons, List.foldlM_cons]
    exact bind (hfg start c) ih

theorem mapM {f : α → Except ε γ} {g : β → Except ε δ}
    (hfg : ∀ a, Carried alike next (f a) (g (image a))) (as : List α) :
    Carried alike (List.map next) (as.mapM f) ((as.map image).mapM g) := by
  induction as with
  | nil => exact .ok []
  | cons a as ih =>
    rw [List.map_cons, List.mapM_cons, List.mapM_cons]
    exact bind (hfg a) fun c => bind ih fun cs => .ok (c :: cs)

theorem forM {f : α → Except ε PUnit} {g : β → Except ε PUnit}
    (hfg : ∀ a, Carried alike id (f a) (g (image a))) (as : List α) :
    Carried alike id (as.forM f) ((as.map image).forM g) := by
  induction as with
  | nil => exact .ok PUnit.unit
  | cons a as ih =>
    show Carried alike id (f a >>= fun _ => as.forM f) (g (image a) >>= fun _ => _)
    exact bind (hfg a) fun _ => ih

end Carried

/-! ## 2. Failures that are alike -/

/-- The model that is refused because its name, or the name of its table, is taken. -/
def Error.repeated? : Error → Option String
  | .duplicateModel model => some model
  | .duplicateTable model _ => some model
  | _ => none

/-- Errors of one kind that refuse the same model, or the same fault. -/
def Failure.Alike : Failure → Failure → Prop
  | .error e, .error e' => e.kind = e'.kind ∧ e.repeated? = e'.repeated?
  | .fault f, .fault f' => f = f'
  | _, _ => False

theorem Failure.Alike.refl (failure : Failure) : failure.Alike failure := by
  cases failure with
  | error e => exact ⟨rfl, rfl⟩
  | fault f => rfl

/-- Both computations give the same, or they fail alike. -/
abbrev Agree {α : Type} (x y : Except Failure α) : Prop :=
  Carried Failure.Alike id x y

namespace Agree

variable {α β : Type} {x y : Except Failure α}

theorem refl (x : Except Failure α) : Agree x x := by
  cases x with
  | ok a => exact .ok a
  | error e => exact .error (.refl e)

theorem bind {f g : α → Except Failure β} (hxy : Agree x y) (hfg : ∀ a, Agree (f a) (g a)) :
    Agree (x >>= f) (y >>= g) :=
  Carried.bind hxy hfg

theorem mapM {f g : α → Except Failure β} (hfg : ∀ a, Agree (f a) (g a)) (as : List α) :
    Agree (as.mapM f) (as.mapM g) := by
  have hmapped : Carried Failure.Alike (List.map id) (as.mapM f) ((as.map id).mapM g) :=
    Carried.mapM hfg as
  rwa [List.map_id, List.map_id_fun] at hmapped

theorem forM {f g : α → Except Failure PUnit} (hfg : ∀ a, Agree (f a) (g a)) (as : List α) :
    Agree (as.forM f) (as.forM g) := by
  have hmapped : Carried Failure.Alike id (as.forM f) ((as.map id).forM g) :=
    Carried.forM hfg as
  rwa [List.map_id] at hmapped

end Agree

namespace Storage

/-! ## 3. Tables under other names -/

def Table.renamed (rename : String → String) (t : Table) : Table :=
  { t with name := rename t.name }

def Schema.renamed (rename : String → String) (s : Schema) : Schema :=
  ⟨s.tables.map (Table.renamed rename)⟩

variable {rename : String → String}

theorem agree_check (condition : Bool) (defect defect' : Defect) :
    Agree (if condition then .ok () else .error (.error (.adHoc defect.message)))
      (if condition then .ok () else .error (.error (.adHoc defect'.message))) := by
  cases condition with
  | true => exact .ok ()
  | false => exact .error ⟨rfl, rfl⟩

namespace Table

theorem agree_columnId (t : Table) (name : String) :
    Agree (t.columnId name) ((t.renamed rename).columnId name) := by
  have hfind : (t.renamed rename).columnNamed? name = t.columnNamed? name := rfl
  unfold Table.columnId
  rw [hfind]
  cases t.columnNamed? name with
  | some c => exact .ok c.id
  | none => exact .error ⟨rfl, rfl⟩

theorem agree_verifyKey (t : Table) : Agree t.verifyKey (t.renamed rename).verifyKey := by
  show Agree (if t.primaryKey.isEmpty then _ else _) (if t.primaryKey.isEmpty then _ else _)
  by_cases hempty : t.primaryKey.isEmpty
  · rw [if_pos hempty, if_pos hempty]
    exact .error ⟨rfl, rfl⟩
  · rw [if_neg hempty, if_neg hempty]
    apply Agree.forM
    intro id
    have hcolumn : (t.renamed rename).column id = t.column id := rfl
    rw [hcolumn]
    cases t.column id with
    | error f => exact .refl _
    | ok c => exact agree_check _ _ _

theorem agree_verifyNames (t : Table) : Agree t.verifyNames (t.renamed rename).verifyNames := by
  have hcolumns : (t.renamed rename).columns = t.columns := rfl
  unfold verifyNames
  rw [hcolumns]
  cases firstRepeated? [] (t.columns.map (·.name)) with
  | some name => exact .error ⟨rfl, rfl⟩
  | none => exact .ok ()

end Table

namespace Schema

theorem getElem?_renamed (s : Schema) (id : TableId) :
    (s.renamed rename).tables[id]? = (s.tables[id]?).map (Table.renamed rename) :=
  List.getElem?_map

/-- A column is found where it was. -/
theorem column_renamed (s : Schema) (id : ColumnId) :
    (s.renamed rename).column id = s.column id := by
  unfold column table
  rw [getElem?_renamed]
  cases s.tables[id.table]? <;> rfl

theorem agree_verifyTarget (s : Schema) (t : Table) (c : Constraint) :
    Agree (s.verifyTarget t c) ((s.renamed rename).verifyTarget (t.renamed rename) c) := by
  unfold verifyTarget table
  rw [getElem?_renamed]
  cases s.tables[c.target]? with
  | none => exact .refl _
  | some target =>
    show Agree (if c.pairs.map (·.target) = target.primaryKey then _ else _)
      (if c.pairs.map (·.target) = target.primaryKey then _ else _)
    by_cases hkey : c.pairs.map (·.target) = target.primaryKey
    · rw [if_pos hkey, if_pos hkey]
      exact Agree.forM (fun pair => agree_check _ _ _) c.pairs
    · rw [if_neg hkey, if_neg hkey]
      exact .error ⟨rfl, rfl⟩

theorem agree_verifyPair (s : Schema) (t : Table) (c : Constraint) (pair : ColumnPair) :
    Agree (s.verifyPair t c pair) ((s.renamed rename).verifyPair (t.renamed rename) c pair) := by
  unfold verifyPair
  rw [column_renamed, column_renamed]
  cases s.column pair.source with
  | error f => exact .refl _
  | ok source =>
    cases s.column pair.target with
    | error f => exact .refl _
    | ok target => exact agree_check _ _ _

/-- Verification finds the same whatever the tables are called. -/
theorem agree_verify (s : Schema) : Agree s.verify (s.renamed rename).verify := by
  unfold verify
  apply Agree.bind
  · exact Carried.forM Table.agree_verifyKey s.tables
  intro _
  apply Agree.bind
  · exact Carried.forM Table.agree_verifyNames s.tables
  intro _
  apply Agree.bind
  · exact Carried.forM (fun t => Agree.forM (fun c => s.agree_verifyTarget t c) t.constraints)
      s.tables
  intro _
  exact Carried.forM (fun t => Agree.forM (fun c => Agree.forM
    (fun pair => s.agree_verifyPair t c pair) c.pairs) t.constraints) s.tables

end Schema

end Storage

namespace Registry

open Storage (Table Schema)

/-! ## 4. Assembly under two namings -/

variable {rename : String → String} {o o' : BuildOptions}

theorem ofModel_renamed (id : Nat) (name : String) (m : Model) :
    Table.ofModel id (rename name) m = (Table.ofModel id name m).renamed rename := rfl

theorem carried_addTable (hrename : Function.Injective rename)
    (hnames : ∀ m, o'.tableName m = rename (o.tableName m)) (tables : List Table) (m : Model) :
    Carried Failure.Alike (List.map (Table.renamed rename)) (addTable o tables m)
      (addTable o' (tables.map (Table.renamed rename)) m) := by
  have htaken : (tables.map (Table.renamed rename)).any (·.name == o'.tableName m) =
      tables.any (·.name == o.tableName m) := by
    rw [List.any_map, hnames]
    refine congrArg tables.any (funext fun t => ?_)
    rw [Bool.eq_iff_iff, Function.comp_apply, beq_iff_eq, beq_iff_eq]
    exact hrename.eq_iff
  unfold addTable
  dsimp only
  rw [htaken]
  by_cases hany : tables.any (·.name == o.tableName m)
  · rw [if_pos hany, if_pos hany]
    exact .error ⟨rfl, rfl⟩
  · rw [if_neg hany, if_neg hany]
    by_cases hkey : m.keyShape.isEmpty
    · rw [if_pos hkey, if_pos hkey]
      exact .error ⟨rfl, rfl⟩
    · rw [if_neg hkey, if_neg hkey, List.length_map, hnames, ofModel_renamed]
      have hmap : (tables ++ [Table.ofModel tables.length (o.tableName m) m]).map
          (Table.renamed rename) = tables.map (Table.renamed rename) ++
            [(Table.ofModel tables.length (o.tableName m) m).renamed rename] := by
        rw [List.map_append, List.map_singleton]
      rw [← hmap]
      exact .ok _

theorem columnPair_eq_bind (source target : Table) (p : Pair) :
    columnPair source target p = source.columnId p.source >>= fun sourceId =>
      target.columnId p.target >>= fun targetId => .ok ⟨sourceId, targetId⟩ := by
  unfold columnPair
  cases source.columnId p.source with
  | error e => rfl
  | ok sourceId => cases target.columnId p.target <;> rfl

theorem constraint_eq_bind (tables : List Table) (t : Table) {f : Reference}
    {resolution : Resolution} (hres : f.resolution = some resolution) {target : Table}
    (htarget : tables[resolution.target]? = some target) :
    constraint tables t f = resolution.pairs.mapM (columnPair t target) >>= fun pairs =>
      .ok ⟨f.field, resolution.target, pairs, f.onDelete, f.onUpdate, f.deferred⟩ := by
  simp only [constraint, hres, htarget]
  cases resolution.pairs.mapM (columnPair t target) <;> rfl

theorem addConstraints_eq_bind (tables : List Table) (t : Table) (m : Model) :
    addConstraints tables t m = m.references.mapM (constraint tables t) >>= fun constraints =>
      .ok { t with constraints := constraints } := by
  unfold addConstraints
  cases m.references.mapM (constraint tables t) <;> rfl

theorem agree_columnPair (source target : Table) (p : Pair) :
    Agree (columnPair source target p)
      (columnPair (source.renamed rename) (target.renamed rename) p) := by
  rw [columnPair_eq_bind, columnPair_eq_bind]
  apply Agree.bind (source.agree_columnId p.source)
  intro sourceId
  apply Agree.bind (target.agree_columnId p.target)
  intro targetId
  exact .ok _

/-- Constraints are made of positions. -/
theorem agree_constraint (tables : List Table) (t : Table) (f : Reference) :
    Agree (constraint tables t f)
      (constraint (tables.map (Table.renamed rename)) (t.renamed rename) f) := by
  cases hres : f.resolution with
  | none =>
    simp only [constraint, hres]
    exact .error ⟨rfl, rfl⟩
  | some resolution =>
    have hat : (tables.map (Table.renamed rename))[resolution.target]? =
        (tables[resolution.target]?).map (Table.renamed rename) := List.getElem?_map
    cases htarget : tables[resolution.target]? with
    | none =>
      rw [htarget] at hat
      simp only [constraint, hres, htarget, hat, Option.map_none, List.length_map]
      exact .refl _
    | some target =>
      rw [htarget, Option.map_some] at hat
      rw [constraint_eq_bind _ _ hres htarget, constraint_eq_bind _ _ hres hat]
      apply Agree.bind (Agree.mapM (agree_columnPair t target) resolution.pairs)
      intro pairs
      exact .ok _

theorem carried_addConstraints (tables : List Table) (t : Table) (m : Model) :
    Carried Failure.Alike (Table.renamed rename) (addConstraints tables t m)
      (addConstraints (tables.map (Table.renamed rename)) (t.renamed rename) m) := by
  rw [addConstraints_eq_bind, addConstraints_eq_bind]
  apply Carried.bind (Agree.mapM (agree_constraint tables t) m.references)
  intro constraints
  exact .ok _

theorem carried_toSchema (hrename : Function.Injective rename)
    (hnames : ∀ m, o'.tableName m = rename (o.tableName m)) (hverify : o'.verify = o.verify)
    (r : Registry) :
    Carried Failure.Alike (Schema.renamed rename) (r.toSchema o) (r.toSchema o') := by
  unfold toSchema
  apply Carried.bind (Carried.foldlM (carried_addTable hrename hnames) r.models [])
  intro bare
  have hzip : (bare.map (Table.renamed rename)).zip r.models =
      (bare.zip r.models).map (Prod.map (Table.renamed rename) id) := by
    rw [List.zip_map_left]
  rw [hzip]
  apply Carried.bind (Carried.mapM (fun entry => carried_addConstraints bare entry.1 entry.2) _)
  intro full
  dsimp only
  rw [hverify]
  cases o.verify with
  | false => exact .ok _
  | true => exact Carried.bind (Schema.agree_verify ⟨full⟩) fun _ => .ok _

/-- A prefix changes nothing in an assembly but the names of the tables, whether it succeeds or
fails. -/
theorem assemble_withPrefix (r : Registry) (o : BuildOptions) (text : String) :
    Carried Failure.Alike (Schema.renamed (text ++ ·))
      (r.assemble { o with tablePrefix := none }).result
      (r.assemble { o with tablePrefix := some text }).result := by
  have hnames : ∀ m, BuildOptions.tableName { o with tablePrefix := some text } m =
      text ++ BuildOptions.tableName { o with tablePrefix := none } m := by
    intro m
    show text ++ _ = text ++ ("" ++ _)
    rw [String.empty_append]
  have hinjective : Function.Injective (text ++ ·) := fun a b hab => by
    simpa using hab
  have hschema := carried_toSchema hinjective hnames rfl r
  unfold assemble
  by_cases hforeign : r.hasForeignTarget
  · rw [if_pos hforeign, if_pos hforeign]
    exact .error (.refl _)
  · rw [if_neg hforeign, if_neg hforeign]
    by_cases hsettled : r.unsettled.isEmpty
    · rw [if_pos hsettled, if_pos hsettled, Logged.result_bind, Logged.result_bind]
      exact Carried.bind hschema fun _ => .ok _
    · rw [if_neg hsettled, if_neg hsettled]
      exact .error (.refl _)

end Registry

end RelSchema
