import Mathlib.Data.List.Perm.Basic
import RelSchema.Storage.Json

/-!
# Spellings of a schema

A schema can be written in many ways: each record as an object, with its members in any order and
among others, or as an array, and each enumeration value as its name or as an object.  Whichever way
is taken for each part, the schema is read back.
-/

namespace RelSchema

/-! ## 1. Records, enumeration values and lists -/

namespace Json

variable {names : List String} {values : List Json} {name : String} {j : Json}

/-- A record is an object with a member for each of its fields, or the array of its values. -/
inductive IsRecord (names : List String) (values : List Json) : Json → Prop
  | object {members : List (String × Json)}
      (h : (members.filter fun m => names.contains m.1).Perm (names.zip values)) :
      IsRecord names values (.object members)
  | array : IsRecord names values (.array values)

/-- An enumeration value is its name, or the name with nothing under it. -/
inductive IsVariant (name : String) : Json → Prop
  | string : IsVariant name (.string name)
  | object : IsVariant name (.object [(name, .null)])

/-- A list is an array with its elements, each of them written in its own way. -/
inductive IsList {α : Type} (written : α → Json → Prop) (xs : List α) : Json → Prop
  | array {items : List Json} (h : List.Forall₂ written xs items) : IsList written xs (.array items)

theorem isRecord_zip (names : List String) (values : List Json) :
    IsRecord names values (.object (names.zip values)) :=
  .object (List.Perm.of_eq (List.filter_eq_self.2 fun _ hm =>
    List.contains_iff_mem.2 (List.of_mem_zip hm).1))

theorem isList_map {α : Type} {written : α → Json → Prop} {toJson : α → Json}
    (h : ∀ x, written x (toJson x)) (xs : List α) :
    IsList written xs (.array (xs.map toJson)) :=
  .array (List.forall₂_map_right_iff.2 (List.forall₂_same.2 fun x _ => h x))

/-- Lists are permutations of each other when their members of one kind are, and the others. -/
theorem perm_iff_filter {α : Type} (keep : α → Bool) {xs ys : List α} :
    xs.Perm ys ↔
      (xs.filter keep).Perm (ys.filter keep) ∧ (xs.filter (!keep ·)).Perm (ys.filter (!keep ·)) := by
  constructor
  · intro h
    exact ⟨h.filter _, h.filter _⟩
  · rintro ⟨hkept, hothers⟩
    calc xs.Perm (xs.filter keep ++ xs.filter (!keep ·)) := (List.filter_append_perm keep xs).symm
      List.Perm _ (ys.filter keep ++ ys.filter (!keep ·)) := hkept.append hothers
      List.Perm _ ys := List.filter_append_perm keep ys

/-- The members of further names stand beside the members of one name. -/
theorem filter_contains_cons_perm_iff {members : List (String × Json)} {value : Json}
    (hname : name ∉ names) :
    (members.filter fun m => (name :: names).contains m.1).Perm
        ((name, value) :: names.zip values) ↔
      members.filter (·.1 == name) = [(name, value)] ∧
        (members.filter fun m => names.contains m.1).Perm (names.zip values) := by
  have hown : (members.filter fun m => (name :: names).contains m.1).filter (·.1 == name) =
      members.filter (·.1 == name) := by
    rw [List.filter_filter]
    refine List.filter_congr fun m _ => ?_
    by_cases hm : m.1 = name <;> simp [hm]
  have hothers : (members.filter fun m => (name :: names).contains m.1).filter (!·.1 == name) =
      members.filter fun m => names.contains m.1 := by
    rw [List.filter_filter]
    refine List.filter_congr fun m _ => ?_
    by_cases hm : m.1 = name <;> simp [hm, hname]
  have hzip : ∀ m ∈ names.zip values, m.1 ≠ name := fun m hm heq =>
    hname (heq ▸ (List.of_mem_zip hm).1)
  have hzipOwn : (names.zip values).filter (·.1 == name) = [] :=
    List.filter_eq_nil_iff.2 fun m hm => by simpa using hzip m hm
  have hzipOthers : (names.zip values).filter (!·.1 == name) = names.zip values :=
    List.filter_eq_self.2 fun m hm => by simpa using hzip m hm
  rw [perm_iff_filter (·.1 == name), hown, hothers, List.filter_cons_of_pos (by simp), hzipOwn,
    List.filter_cons_of_neg (by simp), hzipOthers, List.perm_singleton]

theorem valuesOf?_cons_eq_some_iff {members : List (String × Json)} {value : Json} :
    valuesOf? members (name :: names) = some (value :: values) ↔
      valueOf? members name = some value ∧ valuesOf? members names = some values := by
  rw [valuesOf?]
  cases valueOf? members name <;> cases valuesOf? members names <;> simp

theorem valuesOf?_eq_some_iff {members : List (String × Json)} (hnodup : names.Nodup) :
    valuesOf? members names = some values ↔ values.length = names.length ∧
      (members.filter fun m => names.contains m.1).Perm (names.zip values) := by
  induction names generalizing values with
  | nil => simp [valuesOf?, eq_comm]
  | cons name names ih =>
    obtain ⟨hname, hnames⟩ := List.nodup_cons.1 hnodup
    cases values with
    | nil =>
      have hread : valuesOf? members (name :: names) ≠ some [] := by
        rw [valuesOf?]
        split <;> simp
      simp [hread]
    | cons value values =>
      rw [valuesOf?_cons_eq_some_iff, ih hnames, valueOf?_eq_some_iff, List.zip_cons_cons,
        filter_contains_cons_perm_iff hname, List.length_cons, List.length_cons,
        Nat.add_right_cancel_iff, and_left_comm]

/-- A record is read exactly when it is written as one; a field that is left out or stands there
twice is refused. -/
theorem fields?_eq_some_iff (hnodup : names.Nodup) :
    j.fields? names = some values ↔ values.length = names.length ∧ IsRecord names values j := by
  cases j with
  | object members =>
    rw [fields?, valuesOf?_eq_some_iff hnodup]
    exact and_congr_right fun _ => ⟨.object, fun h => by cases h; assumption⟩
  | array items =>
    rw [fields?]
    constructor
    · intro h
      split at h
      next hlength =>
        obtain rfl := Option.some.inj h
        exact ⟨hlength, .array⟩
      next => cases h
    · rintro ⟨hlength, ⟨⟩⟩
      exact if_pos hlength
  | _ =>
    constructor
    · rintro ⟨⟩
    · rintro ⟨-, ⟨⟩⟩

example : (object [("index", .natural 0), ("table", .natural 1), ("index", .natural 2)]).fields?
    ["table", "index"] = none := rfl

/-- However a record is written, its values are found in order. -/
theorem IsRecord.fields?_eq (h : IsRecord names values j) (hnodup : names.Nodup)
    (hlength : values.length = names.length) : j.fields? names = some values :=
  (fields?_eq_some_iff hnodup).2 ⟨hlength, h⟩

theorem IsVariant.variant?_eq (h : IsVariant name j) : j.variant? = some name := by
  cases h <;> rfl

theorem IsList.list?_eq {α : Type} {written : α → Json → Prop} {xs : List α}
    {item? : Json → Option α} (h : IsList written xs j)
    (hitem : ∀ x ∈ xs, ∀ item, written x item → item? item = some x) :
    j.list? item? = some xs := by
  obtain ⟨hitems⟩ := h
  rw [list?]
  induction hitems with
  | nil => rfl
  | cons hx _ ih =>
    rw [List.mapM_cons, hitem _ List.mem_cons_self _ hx, ih fun x hx => hitem x (.tail _ hx)]
    rfl

theorem word?_natural {n : Nat} (h : n < UInt64.size) : (natural n).word? = some n :=
  if_pos h

end Json

open Json

/-! ## 2. The parts of a schema -/

namespace Action

def Written (a : Action) (j : Json) : Prop :=
  IsVariant a.jsonName j

theorem written_toJson (a : Action) : a.Written a.toJson :=
  .string

theorem ofJson?_of_written {a : Action} {j : Json} (h : a.Written j) : ofJson? j = some a := by
  rw [ofJson?, h.variant?_eq]
  cases a <;> rfl

end Action

namespace Storage

namespace StorageClass

def Written (c : StorageClass) (j : Json) : Prop :=
  IsVariant c.jsonName j

theorem written_toJson (c : StorageClass) : c.Written c.toJson :=
  .string

theorem ofJson?_of_written {c : StorageClass} {j : Json} (h : c.Written j) :
    ofJson? j = some c := by
  rw [ofJson?, h.variant?_eq]
  cases c <;> rfl

end StorageClass

namespace ColumnId

def numbers (id : ColumnId) : List Nat :=
  [id.table, id.index]

def Written (id : ColumnId) (j : Json) : Prop :=
  IsRecord fieldNames [.natural id.table, .natural id.index] j

theorem written_toJson (id : ColumnId) : id.Written id.toJson :=
  isRecord_zip _ _

theorem ofJson?_of_written {id : ColumnId} {j : Json} (h : id.Written j)
    (hwords : ∀ n ∈ id.numbers, n < UInt64.size) : ofJson? j = some id := by
  obtain ⟨htable, hindex⟩ : id.table < UInt64.size ∧ id.index < UInt64.size := by
    simpa [numbers] using hwords
  rw [ofJson?, h.fields?_eq (by decide) rfl]
  simp [word?_natural, htable, hindex]

end ColumnId

namespace Column

def numbers (c : Column) : List Nat :=
  c.id.numbers

def Written (c : Column) (j : Json) : Prop :=
  ∃ id type, c.id.Written id ∧ c.type.Written type ∧
    IsRecord fieldNames [id, .string c.name, type, .bool c.nullable, .bool c.primaryKey,
      .bool c.foreignKey] j

theorem written_toJson (c : Column) : c.Written c.toJson :=
  ⟨_, _, c.id.written_toJson, c.type.written_toJson, isRecord_zip _ _⟩

theorem ofJson?_of_written {c : Column} {j : Json} (h : c.Written j)
    (hwords : ∀ n ∈ c.numbers, n < UInt64.size) : ofJson? j = some c := by
  obtain ⟨id, type, hid, htype, hrecord⟩ := h
  rw [ofJson?, hrecord.fields?_eq (by decide) rfl]
  simp [string?, bool?, ColumnId.ofJson?_of_written hid hwords,
    StorageClass.ofJson?_of_written htype]

end Column

namespace ColumnPair

def numbers (p : ColumnPair) : List Nat :=
  p.source.numbers ++ p.target.numbers

def Written (p : ColumnPair) (j : Json) : Prop :=
  ∃ source target, p.source.Written source ∧ p.target.Written target ∧
    IsRecord fieldNames [source, target] j

theorem written_toJson (p : ColumnPair) : p.Written p.toJson :=
  ⟨_, _, p.source.written_toJson, p.target.written_toJson, isRecord_zip _ _⟩

theorem ofJson?_of_written {p : ColumnPair} {j : Json} (h : p.Written j)
    (hwords : ∀ n ∈ p.numbers, n < UInt64.size) : ofJson? j = some p := by
  obtain ⟨source, target, hsource, htarget, hrecord⟩ := h
  obtain ⟨hfirst, hsecond⟩ := List.forall_mem_append.1 hwords
  rw [ofJson?, hrecord.fields?_eq (by decide) rfl]
  simp [ColumnId.ofJson?_of_written hsource hfirst, ColumnId.ofJson?_of_written htarget hsecond]

end ColumnPair

namespace Constraint

def numbers (c : Constraint) : List Nat :=
  c.target :: c.pairs.flatMap ColumnPair.numbers

def Written (c : Constraint) (j : Json) : Prop :=
  ∃ pairs onDelete onUpdate, IsList ColumnPair.Written c.pairs pairs ∧
    c.onDelete.Written onDelete ∧ c.onUpdate.Written onUpdate ∧
    IsRecord fieldNames [.string c.field, .natural c.target, pairs, onDelete, onUpdate,
      .bool c.deferred] j

theorem written_toJson (c : Constraint) : c.Written c.toJson :=
  ⟨_, _, _, isList_map ColumnPair.written_toJson _, c.onDelete.written_toJson,
    c.onUpdate.written_toJson, isRecord_zip _ _⟩

theorem ofJson?_of_written {c : Constraint} {j : Json} (h : c.Written j)
    (hwords : ∀ n ∈ c.numbers, n < UInt64.size) : ofJson? j = some c := by
  obtain ⟨pairs, onDelete, onUpdate, hpairs, hdelete, hupdate, hrecord⟩ := h
  obtain ⟨htarget, hinner⟩ := List.forall_mem_cons.1 hwords
  have hread : pairs.list? ColumnPair.ofJson? = some c.pairs :=
    hpairs.list?_eq fun p hp _ hwritten => ColumnPair.ofJson?_of_written hwritten
      (List.forall_mem_flatMap.1 hinner p hp)
  rw [ofJson?, hrecord.fields?_eq (by decide) rfl]
  simp [string?, bool?, word?_natural, htarget, hread, Action.ofJson?_of_written hdelete,
    Action.ofJson?_of_written hupdate]

end Constraint

namespace Table

def numbers (t : Table) : List Nat :=
  t.id :: (t.columns.flatMap Column.numbers ++
    (t.primaryKey.flatMap ColumnId.numbers ++ t.constraints.flatMap Constraint.numbers))

def Written (t : Table) (j : Json) : Prop :=
  ∃ columns primaryKey constraints, IsList Column.Written t.columns columns ∧
    IsList ColumnId.Written t.primaryKey primaryKey ∧
    IsList Constraint.Written t.constraints constraints ∧
    IsRecord fieldNames [.natural t.id, .string t.name, .string t.model, columns, primaryKey,
      constraints] j

theorem written_toJson (t : Table) : t.Written t.toJson :=
  ⟨_, _, _, isList_map Column.written_toJson _, isList_map ColumnId.written_toJson _,
    isList_map Constraint.written_toJson _, isRecord_zip _ _⟩

theorem ofJson?_of_written {t : Table} {j : Json} (h : t.Written j)
    (hwords : ∀ n ∈ t.numbers, n < UInt64.size) : ofJson? j = some t := by
  obtain ⟨columns, primaryKey, constraints, hcolumns, hkey, hconstraints, hrecord⟩ := h
  obtain ⟨hid, hinner⟩ := List.forall_mem_cons.1 hwords
  obtain ⟨hcolumnWords, hrest⟩ := List.forall_mem_append.1 hinner
  obtain ⟨hkeyWords, hconstraintWords⟩ := List.forall_mem_append.1 hrest
  have hreadColumns : columns.list? Column.ofJson? = some t.columns :=
    hcolumns.list?_eq fun c hc _ hwritten => Column.ofJson?_of_written hwritten
      (List.forall_mem_flatMap.1 hcolumnWords c hc)
  have hreadKey : primaryKey.list? ColumnId.ofJson? = some t.primaryKey :=
    hkey.list?_eq fun id hid _ hwritten => ColumnId.ofJson?_of_written hwritten
      (List.forall_mem_flatMap.1 hkeyWords id hid)
  have hreadConstraints : constraints.list? Constraint.ofJson? = some t.constraints :=
    hconstraints.list?_eq fun c hc _ hwritten => Constraint.ofJson?_of_written hwritten
      (List.forall_mem_flatMap.1 hconstraintWords c hc)
  rw [ofJson?, hrecord.fields?_eq (by decide) rfl]
  simp [string?, word?_natural, hid, hreadColumns, hreadKey, hreadConstraints]

end Table

/-! ## 3. The schema -/

namespace Schema

/-- The numbers of all identifiers in the schema. -/
def numbers (s : Schema) : List Nat :=
  s.tables.flatMap Table.numbers

def Written (s : Schema) (j : Json) : Prop :=
  ∃ tables, IsList Table.Written s.tables tables ∧ IsRecord fieldNames [tables] j

theorem written_toJson (s : Schema) : s.Written s.toJson :=
  ⟨_, isList_map Table.written_toJson _, isRecord_zip _ _⟩

/-- A schema whose numbers fit into words is read back from each way of writing it, and the form
that it is written in is one of them. -/
theorem ofJson?_eq_some_of_written (s : Schema) (hwords : ∀ n ∈ s.numbers, n < UInt64.size) :
    ofJson? s.toJson = some s ∧ s.Written s.toJson ∧ ∀ j, s.Written j → ofJson? j = some s := by
  have hread : ∀ j, s.Written j → ofJson? j = some s := by
    rintro j ⟨tables, htables, hrecord⟩
    have hreadTables : tables.list? Table.ofJson? = some s.tables :=
      htables.list?_eq fun t ht _ hwritten => Table.ofJson?_of_written hwritten
        (List.forall_mem_flatMap.1 hwords t ht)
    rw [ofJson?, hrecord.fields?_eq (by decide) rfl]
    simp [hreadTables]
  exact ⟨hread _ s.written_toJson, s.written_toJson, hread⟩

/-- Islands, some of which belong to another island. -/
def islands : Schema :=
  ⟨[⟨0, "islands", "Island",
    [⟨⟨0, 0⟩, "id", .integer, false, true, false⟩, ⟨⟨0, 1⟩, "main", .integer, true, false, true⟩],
    [⟨0, 0⟩], [⟨"main", 0, [⟨⟨0, 1⟩, ⟨0, 0⟩⟩], .setNull, .noAction, true⟩]⟩]⟩

/-- The same with arrays for most records, an object with members in another order, one with a
member more, and a storage class and an action as objects. -/
def islandsMixed : Json :=
  .object [("comment", .null), ("tables", .array [.array
    [.natural 0, .string "islands", .string "Island",
      .array
        [.array [.object [("index", .natural 0), ("table", .natural 0)], .string "id",
            .object [("Integer", .null)], .bool false, .bool true, .bool false],
          .array [.array [.natural 0, .natural 1], .string "main", .string "Integer", .bool true,
            .bool false, .bool true]],
      .array [.array [.natural 0, .natural 0]],
      .array [.array [.string "main", .natural 0,
        .array [.array [.array [.natural 0, .natural 1], .array [.natural 0, .natural 0]]],
        .object [("SetNull", .null)], .string "NoAction", .bool true]]]])]

theorem written_islandsMixed : islands.Written islandsMixed := by
  have hid : ∀ id : ColumnId, id.Written (.array [.natural id.table, .natural id.index]) :=
    fun _ => .array
  have hturned : (⟨0, 0⟩ : ColumnId).Written
      (.object [("index", .natural 0), ("table", .natural 0)]) :=
    .object (List.Perm.swap _ _ [])
  have hpair : ColumnPair.Written ⟨⟨0, 1⟩, ⟨0, 0⟩⟩
      (.array [.array [.natural 0, .natural 1], .array [.natural 0, .natural 0]]) :=
    ⟨_, _, hid _, hid _, .array⟩
  refine ⟨_, .array (.cons ⟨_, _, _, ?_, .array (.cons (hid _) .nil), ?_, .array⟩ .nil),
    .object (.refl _)⟩
  · exact .array (.cons ⟨_, _, hturned, .object, .array⟩
      (.cons ⟨_, _, hid _, .string, .array⟩ .nil))
  · exact .array (.cons ⟨_, _, _, .array (.cons hpair .nil), .object, .string, .array⟩ .nil)

theorem ofJson?_islandsMixed :
    (∀ n ∈ islands.numbers, n < UInt64.size) ∧ ofJson? islands.toJson = some islands ∧
      ofJson? islandsMixed = some islands := by
  have hwords : ∀ n ∈ islands.numbers, n < UInt64.size := by decide
  obtain ⟨hown, -, hread⟩ := ofJson?_eq_some_of_written islands hwords
  exact ⟨hwords, hown, hread _ written_islandsMixed⟩

end Schema

end Storage

end RelSchema
