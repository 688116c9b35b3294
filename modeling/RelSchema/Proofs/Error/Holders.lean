import Mathlib.Data.List.Count
import Mathlib.Data.List.Nodup
import RelSchema.Error.Chain

/-!
# Counted holders

The count of an error object is the number of places that hold it and of objects that it caused.
Taking holders away keeps the counts right and changes no chain that is still held.  Since every
chain ends, an object that is counted is on the chain of some place; so the only holder of an object
without a cause sees a count of one exactly when no other chain goes through the object.
-/

namespace RelSchema

namespace ErrorCell

variable {cells : List ErrorCell} {label : Nat} {cell : ErrorCell} {objects : List ErrorObject}
  {handles : List Nat}

/-! ## 1. Chains of stored objects -/

/-- The object at the label and the causes behind it, to the end. -/
inductive Follows (cells : List ErrorCell) : Nat → List ErrorObject → Prop
  | root {label : Nat} {cell : ErrorCell} (hcell : cells[label]? = some cell)
      (hcause : cell.cause = none) : Follows cells label [⟨label, cell.error⟩]
  | caused {label cause : Nat} {cell : ErrorCell} {objects : List ErrorObject}
      (hcell : cells[label]? = some cell) (hcause : cell.cause = some cause)
      (h : Follows cells cause objects) : Follows cells label (⟨label, cell.error⟩ :: objects)

namespace Follows

theorem exists_head (h : Follows cells label objects) :
    ∃ cell causes, cells[label]? = some cell ∧ objects = ⟨label, cell.error⟩ :: causes := by
  cases h with
  | root hcell _ => exact ⟨_, [], hcell, rfl⟩
  | caused hcell _ h => exact ⟨_, _, hcell, rfl⟩

theorem label_mem (h : Follows cells label objects) : label ∈ objects.map (·.label) := by
  obtain ⟨cell, causes, -, rfl⟩ := h.exists_head
  exact List.mem_cons_self

theorem lt_length (h : Follows cells label objects) : label < cells.length := by
  obtain ⟨cell, -, hcell, -⟩ := h.exists_head
  exact (List.getElem?_eq_some_iff.1 hcell).1

theorem unique (h : Follows cells label objects) {others : List ErrorObject}
    (hothers : Follows cells label others) : objects = others := by
  induction h generalizing others with
  | root hcell hcause =>
    cases hothers with
    | root hcell' _ =>
      obtain rfl := Option.some.inj (hcell.symm.trans hcell')
      rfl
    | caused hcell' hcause' _ =>
      obtain rfl := Option.some.inj (hcell.symm.trans hcell')
      cases hcause.symm.trans hcause'
  | caused hcell hcause _ ih =>
    cases hothers with
    | root hcell' hcause' =>
      obtain rfl := Option.some.inj (hcell.symm.trans hcell')
      cases hcause.symm.trans hcause'
    | caused hcell' hcause' h' =>
      obtain rfl := Option.some.inj (hcell.symm.trans hcell')
      obtain rfl := Option.some.inj (hcause.symm.trans hcause')
      rw [ih h']

/-- The chain of an object with a cause is the object and the chain of the cause. -/
theorem of_caused (h : Follows cells label objects) (hcell : cells[label]? = some cell)
    {cause : Nat} (hcause : cell.cause = some cause) :
    ∃ rest, objects = ⟨label, cell.error⟩ :: rest ∧ Follows cells cause rest := by
  cases h with
  | root hcell' hcause' =>
    obtain rfl := Option.some.inj (hcell.symm.trans hcell')
    cases hcause.symm.trans hcause'
  | caused hcell' hcause' hrest =>
    obtain rfl := Option.some.inj (hcell.symm.trans hcell')
    obtain rfl := Option.some.inj (hcause.symm.trans hcause')
    exact ⟨_, rfl, hrest⟩

theorem causes_eq_nil_iff {causes : List ErrorObject}
    (h : Follows cells label (⟨label, cell.error⟩ :: causes)) (hcell : cells[label]? = some cell) :
    causes = [] ↔ cell.cause = none := by
  constructor
  · rintro rfl
    by_contra hsome
    obtain ⟨cause, hcause⟩ := Option.ne_none_iff_exists'.1 hsome
    obtain ⟨rest, hrest, hfollows⟩ := h.of_caused hcell hcause
    obtain ⟨_, _, -, rfl⟩ := hfollows.exists_head
    cases hrest
  · intro hnone
    exact (List.cons.inj (h.unique (.root hcell hnone))).2

/-- Behind an object on a chain stands the object's own chain. -/
theorem exists_suffix (h : Follows cells label objects) {inner : Nat}
    (hinner : inner ∈ objects.map (·.label)) :
    ∃ rest, Follows cells inner rest ∧ rest.Sublist objects := by
  induction h with
  | root hcell hcause =>
    obtain rfl := List.mem_singleton.1 hinner
    exact ⟨_, .root hcell hcause, .refl _⟩
  | caused hcell hcause h ih =>
    rcases List.mem_cons.1 hinner with rfl | hinner
    · exact ⟨_, .caused hcell hcause h, .refl _⟩
    · obtain ⟨rest, hrest, hsub⟩ := ih hinner
      exact ⟨rest, hrest, hsub.cons _⟩

/-- The last object of a chain is the whole of its own chain. -/
theorem of_getLast? (h : Follows cells label objects) {last : ErrorObject}
    (hlast : objects.getLast? = some last) : Follows cells last.label [last] := by
  induction h with
  | root hcell hcause =>
    obtain rfl := Option.some.inj hlast
    exact .root hcell hcause
  | caused hcell hcause h ih =>
    obtain ⟨inner, causes, -, rfl⟩ := h.exists_head
    exact ih (List.getLast?_cons_cons ▸ hlast)

/-- A chain that ends passes no object twice. -/
theorem nodup_labels (h : Follows cells label objects) : (objects.map (·.label)).Nodup := by
  induction h with
  | root => exact List.nodup_singleton _
  | @caused label cause cell objects hcell hcause h ih =>
    refine List.nodup_cons.2 ⟨fun hmem => ?_, ih⟩
    -- the chain behind a second passage would be as long as the whole
    obtain ⟨rest, hrest, hsub⟩ := h.exists_suffix hmem
    have hwhole := (Follows.caused hcell hcause h).unique hrest
    have hle := hsub.length_le
    rw [← hwhole, List.length_cons] at hle
    omega

theorem length_le (h : Follows cells label objects) : objects.length ≤ cells.length := by
  have hsubset : objects.map (·.label) ⊆ List.range cells.length := by
    intro inner hinner
    obtain ⟨rest, hrest, -⟩ := h.exists_suffix hinner
    exact List.mem_range.2 hrest.lt_length
  have hle := (List.subperm_of_subset h.nodup_labels hsubset).length_le
  rwa [List.length_map, List.length_range] at hle

theorem objectsFrom_eq (h : Follows cells label objects) {left : Nat}
    (hleft : objects.length ≤ left) : objectsFrom cells left label = objects := by
  induction h generalizing left with
  | root hcell hcause =>
    cases left with
    | zero => cases hleft
    | succ left => simp only [objectsFrom, hcell, hcause]
  | caused hcell hcause _ ih =>
    cases left with
    | zero => cases hleft
    | succ left =>
      have hrest := ih (Nat.le_of_succ_le_succ hleft)
      simp only [objectsFrom, hcell, hcause, hrest]

/-- A chain is as before when its objects say the same and have the same causes. -/
theorem congr (h : Follows cells label objects) {changed : List ErrorCell}
    (hsame : ∀ inner ∈ objects.map (·.label), ∀ cell, cells[inner]? = some cell →
      ∃ cell', changed[inner]? = some cell' ∧ cell'.error = cell.error ∧
        cell'.cause = cell.cause) : Follows changed label objects := by
  induction h with
  | root hcell hcause =>
    obtain ⟨cell', hcell', herror, hcause'⟩ := hsame _ List.mem_cons_self _ hcell
    rw [← herror]
    exact .root hcell' (hcause'.trans hcause)
  | caused hcell hcause _ ih =>
    obtain ⟨cell', hcell', herror, hcause'⟩ := hsame _ List.mem_cons_self _ hcell
    rw [← herror]
    exact .caused hcell' (hcause'.trans hcause) (ih fun inner hinner => hsame inner (.tail _ hinner))

/-- Changing an object leaves the chains that do not pass it. -/
theorem set_of_notMem (h : Follows cells label objects) {place : Nat}
    (hplace : place ∉ objects.map (·.label)) (cell : ErrorCell) :
    Follows (cells.set place cell) label objects := by
  refine h.congr fun inner hinner c hc => ⟨c, ?_, rfl, rfl⟩
  have hne : place ≠ inner := fun heq => hplace (heq ▸ hinner)
  rwa [List.getElem?_set_ne hne]

/-- Counting holders anew leaves all chains. -/
theorem set_holders (h : Follows cells label objects) {place : Nat} {cell : ErrorCell}
    (hcell : cells[place]? = some cell) (count : Nat) :
    Follows (cells.set place { cell with holders := count }) label objects := by
  obtain ⟨hlt, -⟩ := List.getElem?_eq_some_iff.1 hcell
  refine h.congr fun inner _ c hc => ?_
  by_cases hne : place = inner
  · subst hne
    obtain rfl := Option.some.inj (hcell.symm.trans hc)
    exact ⟨_, List.getElem?_set_self hlt, rfl, rfl⟩
  · exact ⟨c, by rwa [List.getElem?_set_ne hne], rfl, rfl⟩

/-- An object that is nobody's cause is on its own chain only. -/
theorem notMem_of_not_cause (h : Follows cells label objects) {place : Nat} (hne : label ≠ place)
    (hcause : ∀ cell ∈ cells, cell.cause ≠ some place) : place ∉ objects.map (·.label) := by
  induction h with
  | root => simpa using Ne.symm hne
  | caused hcell hcause' _ ih =>
    refine List.not_mem_cons_of_ne_of_not_mem (Ne.symm hne) (ih fun heq => ?_)
    exact hcause _ (List.mem_of_getElem? hcell) (heq ▸ hcause')

/-- A chain goes on with the cause of an object that it passes. -/
theorem cause_mem (h : Follows cells label objects) {inner cause : Nat}
    (hinner : inner ∈ objects.map (·.label)) (hcell : cells[inner]? = some cell)
    (hcause : cell.cause = some cause) : cause ∈ objects.map (·.label) := by
  obtain ⟨rest, hrest, hsub⟩ := h.exists_suffix hinner
  obtain ⟨behind, rfl, hbehind⟩ := hrest.of_caused hcell hcause
  exact (hsub.map _).subset (List.mem_cons_of_mem _ hbehind.label_mem)

end Follows

/-- The chains from the labels read as before. -/
def Keeps (cells changed : List ErrorCell) (labels : List Nat) : Prop :=
  ∀ label ∈ labels, ∀ objects, Follows cells label objects → Follows changed label objects

/-- More objects change no chain. -/
theorem keeps_append (cells more : List ErrorCell) (labels : List Nat) :
    Keeps cells (cells ++ more) labels :=
  fun _ _ _ h => h.congr fun _ _ c hc =>
    ⟨c, (List.getElem?_append_left (List.getElem?_eq_some_iff.1 hc).1).trans hc, rfl, rfl⟩

/-! ## 2. Counts -/

/-- The number of objects that have the object at the label as their cause. -/
def causedCount (cells : List ErrorCell) (label : Nat) : Nat :=
  cells.countP (·.cause == some label)

/-- The counts are right for the given handles on objects: the places that hold them, and what has
been taken out of a place and not been let go of yet. -/
structure Counted (cells : List ErrorCell) (handles : List Nat) : Prop where
  readable : ∀ label < cells.length, ∃ objects, Follows cells label objects
  stored : ∀ label ∈ handles, label < cells.length
  holders_eq : ∀ label cell, cells[label]? = some cell →
    cell.holders = handles.count label + causedCount cells label
  freed : ∀ cell ∈ cells, cell.holders = 0 → cell.cause = none

theorem causedCount_eq_zero_iff :
    causedCount cells label = 0 ↔ ∀ cell ∈ cells, cell.cause ≠ some label := by
  simp [causedCount, List.countP_eq_zero]

/-- The causes are counted anew when one object changes. -/
theorem causedCount_set (hcell : cells[label]? = some cell) (changed : ErrorCell) (place : Nat) :
    causedCount (cells.set label changed) place + (if cell.cause = some place then 1 else 0) =
      causedCount cells place + if changed.cause = some place then 1 else 0 := by
  obtain ⟨hlt, rfl⟩ := List.getElem?_eq_some_iff.1 hcell
  have hcount := List.countP_set (p := fun c : ErrorCell => c.cause == some place)
    (l := cells) (a := changed) hlt
  have hpos : (if cells[label].cause = some place then 1 else 0) ≤ causedCount cells place := by
    split
    · rename_i hcause
      exact List.countP_pos_iff.2 ⟨_, List.getElem_mem hlt, by simp [hcause]⟩
    · exact Nat.zero_le _
  unfold causedCount at hpos ⊢
  simp only [beq_iff_eq] at hcount
  omega

theorem count_toList (cause : Option Nat) (place : Nat) :
    cause.toList.count place = if cause = some place then 1 else 0 := by
  cases cause with
  | none => rfl
  | some inner => simp [List.count_singleton]

namespace Counted

theorem perm (h : Counted cells handles) {others : List Nat} (hperm : handles.Perm others) :
    Counted cells others where
  readable := h.readable
  stored place hplace := h.stored place (hperm.mem_iff.2 hplace)
  holders_eq place cell hcell := by rw [← hperm.count_eq]; exact h.holders_eq place cell hcell
  freed := h.freed

/-- The counts stay right when one object changes, if what it and the handles no longer point at is
what they point at instead, and its own count is right. -/
theorem set (h : Counted cells handles) (hcell : cells[label]? = some cell) {changed : ErrorCell}
    {others : List Nat}
    (hreadable : ∀ place < cells.length, ∃ objects,
      Follows (cells.set label changed) place objects)
    (hstored : ∀ place ∈ others, place < cells.length)
    (hothers : ∀ place, place ≠ label →
      others.count place + (if changed.cause = some place then 1 else 0) =
        handles.count place + if cell.cause = some place then 1 else 0)
    (hown : changed.holders + (if cell.cause = some label then 1 else 0) =
      others.count label + causedCount cells label +
        if changed.cause = some label then 1 else 0)
    (hfreed : changed.holders = 0 → changed.cause = none) :
    Counted (cells.set label changed) others where
  readable place hplace := hreadable place (by rwa [List.length_set] at hplace)
  stored place hplace := by
    rw [List.length_set]
    exact hstored place hplace
  holders_eq place c hc := by
    have hcount := causedCount_set hcell changed place
    by_cases hne : label = place
    · subst hne
      rw [List.getElem?_set_self (List.getElem?_eq_some_iff.1 hcell).1] at hc
      obtain rfl := Option.some.inj hc
      omega
    · rw [List.getElem?_set_ne hne] at hc
      have hbefore := h.holders_eq place c hc
      have hpoint := hothers place (Ne.symm hne)
      omega
  freed c hc := by
    rcases List.mem_or_eq_of_mem_set hc with hc | rfl
    · exact h.freed c hc
    · exact hfreed

/-- One handle more is counted as one holder more. -/
theorem cons (h : Counted cells handles) (hcell : cells[label]? = some cell) :
    Counted (cells.set label { cell with holders := cell.holders + 1 }) (label :: handles) := by
  refine h.set hcell (fun place hplace => ?_) (fun place hplace => ?_) (fun place hne => ?_) ?_
    (fun hzero => absurd hzero (Nat.succ_ne_zero _))
  · obtain ⟨objects, hobjects⟩ := h.readable place hplace
    exact ⟨objects, hobjects.set_holders hcell _⟩
  · rcases List.mem_cons.1 hplace with rfl | hplace
    · exact (List.getElem?_eq_some_iff.1 hcell).1
    · exact h.stored place hplace
  · rw [List.count_cons_of_ne (Ne.symm hne)]
  · have hbefore := h.holders_eq label cell hcell
    rw [List.count_cons_self]
    dsimp only
    omega

/-- A new object is held once and caused nothing. -/
theorem append (h : Counted cells handles) (e : Error) :
    Counted (cells ++ [{ error := e }]) (cells.length :: handles) where
  readable place hplace := by
    rw [List.length_append, List.length_singleton] at hplace
    rcases Nat.lt_succ_iff_lt_or_eq.1 hplace with hplace | rfl
    · obtain ⟨objects, hobjects⟩ := h.readable place hplace
      exact ⟨objects, keeps_append cells _ [place] place List.mem_cons_self objects hobjects⟩
    · exact ⟨_, .root List.getElem?_concat_length rfl⟩
  stored place hplace := by
    rw [List.length_append, List.length_singleton]
    rcases List.mem_cons.1 hplace with rfl | hplace
    · exact Nat.lt_succ_self _
    · exact Nat.lt_succ_of_lt (h.stored place hplace)
  holders_eq place cell hcell := by
    have hcaused : causedCount (cells ++ [{ error := e }]) place = causedCount cells place := by
      simp [causedCount]
    rw [hcaused]
    rcases Nat.lt_trichotomy place cells.length with hlt | rfl | hlt
    · rw [List.getElem?_append_left hlt] at hcell
      rw [List.count_cons_of_ne (Nat.ne_of_gt hlt)]
      exact h.holders_eq place cell hcell
    · obtain rfl := Option.some.inj (List.getElem?_concat_length.symm.trans hcell)
      have hnone : ∀ c ∈ cells, c.cause ≠ some cells.length := by
        intro c hc hcause
        obtain ⟨inner, hinner⟩ := List.mem_iff_getElem?.1 hc
        obtain ⟨objects, hobjects⟩ := h.readable inner (List.getElem?_eq_some_iff.1 hinner).1
        obtain ⟨rest, -, hrest⟩ := hobjects.of_caused hinner hcause
        exact Nat.lt_irrefl _ hrest.lt_length
      rw [List.count_cons_self, causedCount_eq_zero_iff.2 hnone,
        List.count_eq_zero.2 fun hmem => Nat.lt_irrefl _ (h.stored _ hmem)]
    · have hlength := (List.getElem?_eq_some_iff.1 hcell).1
      rw [List.length_append, List.length_singleton] at hlength
      omega
  freed cell hcell hzero := by
    rcases List.mem_append.1 hcell with hcell | hcell
    · exact h.freed cell hcell hzero
    · obtain rfl := List.mem_singleton.1 hcell
      rfl

/-! ## 3. Letting go -/

/-- An object with one holder is pointed at by that holder only. -/
theorem sole_holder (h : Counted cells (label :: handles)) (hcell : cells[label]? = some cell)
    (hone : cell.holders = 1) :
    label ∉ handles ∧ ∀ c ∈ cells, c.cause ≠ some label := by
  have hcount := h.holders_eq label cell hcell
  rw [List.count_cons_self] at hcount
  have hhandles : handles.count label = 0 := by omega
  have hcaused : causedCount cells label = 0 := by omega
  exact ⟨List.count_eq_zero.1 hhandles, causedCount_eq_zero_iff.1 hcaused⟩

/-- No other chain passes an object with one holder. -/
theorem notMem_of_sole_holder (h : Counted cells (label :: handles))
    (hcell : cells[label]? = some cell) (hone : cell.holders = 1) {place : Nat}
    (hplace : place ≠ label) (hfollows : Follows cells place objects) :
    label ∉ objects.map (·.label) :=
  hfollows.notMem_of_not_cause hplace (h.sole_holder hcell hone).2

/-- The count of an object with further holders goes down by one. -/
theorem lower (h : Counted cells (label :: handles)) (hcell : cells[label]? = some cell)
    (hmore : cell.holders ≠ 1) :
    Counted (cells.set label { cell with holders := cell.holders - 1 }) handles := by
  have hcount := h.holders_eq label cell hcell
  rw [List.count_cons_self] at hcount
  refine h.set hcell (fun place hplace => ?_) (fun place hplace => h.stored place (.tail _ hplace))
    (fun place hne => ?_) ?_ (fun hzero => ?_)
  · obtain ⟨objects, hobjects⟩ := h.readable place hplace
    exact ⟨objects, hobjects.set_holders hcell _⟩
  · rw [List.count_cons_of_ne (Ne.symm hne)]
  · dsimp only
    omega
  · dsimp only at hzero
    omega

/-- An object that loses its only holder is freed, and the handle on it becomes one on its
cause. -/
theorem free (h : Counted cells (label :: handles)) (hcell : cells[label]? = some cell)
    (hone : cell.holders = 1) :
    Counted (cells.set label { cell with cause := none, holders := 0 })
      (cell.cause.toList ++ handles) := by
  have hlt := (List.getElem?_eq_some_iff.1 hcell).1
  have hcount := h.holders_eq label cell hcell
  rw [List.count_cons_self] at hcount
  refine h.set hcell (fun place hplace => ?_) (fun place hplace => ?_) (fun place hne => ?_) ?_
    (fun _ => rfl)
  · by_cases hsame : place = label
    · subst hsame
      exact ⟨_, .root (List.getElem?_set_self hlt) rfl⟩
    · obtain ⟨objects, hobjects⟩ := h.readable place hplace
      exact ⟨objects, hobjects.set_of_notMem (h.notMem_of_sole_holder hcell hone hsame hobjects) _⟩
  · rcases List.mem_append.1 hplace with hplace | hplace
    · -- the cause is stored, since the chain of the object goes on with it
      obtain ⟨objects, hobjects⟩ := h.readable label hlt
      have hcause := hobjects.cause_mem hobjects.label_mem hcell (Option.mem_toList.1 hplace)
      obtain ⟨rest, hrest, -⟩ := hobjects.exists_suffix hcause
      exact hrest.lt_length
    · exact h.stored place (.tail _ hplace)
  · rw [List.count_cons_of_ne (Ne.symm hne), List.count_append, count_toList]
    simp only [reduceCtorEq, if_false]
    omega
  · rw [List.count_append, count_toList]
    simp only [reduceCtorEq, if_false]
    omega

/-- Letting go of a handle keeps the counts right and every chain that another handle holds. -/
theorem letGo {left : Nat} (h : Counted cells (label :: handles))
    (hfollows : Follows cells label objects) (hleft : objects.length ≤ left) :
    Counted (letGo left cells label) handles ∧
      Keeps cells (ErrorCell.letGo left cells label) handles := by
  induction left generalizing cells label objects with
  | zero =>
    obtain ⟨_, _, -, rfl⟩ := hfollows.exists_head
    cases hleft
  | succ left ih =>
    obtain ⟨cell, -, hcell, -⟩ := hfollows.exists_head
    by_cases hone : cell.holders = 1
    · have hfree := h.free hcell hone
      have hkept : Keeps cells (cells.set label { cell with cause := none, holders := 0 })
          handles := by
        intro place hplace others hothers
        have hne : place ≠ label := fun heq => (h.sole_holder hcell hone).1 (heq ▸ hplace)
        exact hothers.set_of_notMem (h.notMem_of_sole_holder hcell hone hne hothers) _
      cases hcause : cell.cause with
      | none =>
        simp only [ErrorCell.letGo, hcell, hone, hcause, if_true]
        rw [hcause] at hfree
        exact ⟨hfree, hkept⟩
      | some cause =>
        simp only [ErrorCell.letGo, hcell, hone, hcause, if_true]
        rw [hcause] at hfree
        obtain ⟨rest, rfl, hrest⟩ := hfollows.of_caused hcell hcause
        -- the chain of the cause does not come back to the object that is freed
        have hnot := (List.nodup_cons.1 hfollows.nodup_labels).1
        obtain ⟨hcounted, hthen⟩ :=
          ih hfree (hrest.set_of_notMem hnot _) (Nat.le_of_succ_le_succ hleft)
        exact ⟨hcounted, fun place hplace others hothers =>
          hthen place hplace others (hkept place hplace others hothers)⟩
    · simp only [ErrorCell.letGo, hcell, hone, if_false]
      exact ⟨h.lower hcell hone, fun _ _ _ hothers => hothers.set_holders hcell _⟩

/-! ## 4. Single holders -/

/-- An object with holders is on the chain of some handle. -/
theorem exists_handle (h : Counted cells handles) (hcell : cells[label]? = some cell)
    (hheld : cell.holders ≠ 0) :
    ∃ place ∈ handles, ∃ objects, Follows cells place objects ∧ label ∈ objects.map (·.label) := by
  obtain ⟨objects, hobjects⟩ := h.readable label (List.getElem?_eq_some_iff.1 hcell).1
  -- going back from an object to one that it caused makes the chain longer, which has an end
  induction hroom : cells.length - objects.length using Nat.strongRecOn
    generalizing label cell objects with
  | _ room ih =>
    by_cases hmem : label ∈ handles
    · exact ⟨label, hmem, objects, hobjects, hobjects.label_mem⟩
    · have hcount := h.holders_eq label cell hcell
      rw [List.count_eq_zero.2 hmem] at hcount
      obtain ⟨before, hbefore, hcause⟩ := List.countP_pos_iff.1
        (show 0 < causedCount cells label by omega)
      obtain ⟨place, hplace⟩ := List.mem_iff_getElem?.1 hbefore
      have hcause := beq_iff_eq.1 hcause
      have hlonger := Follows.caused hplace hcause hobjects
      have hbeforeHeld : before.holders ≠ 0 := fun hzero => by
        rw [h.freed before hbefore hzero] at hcause
        cases hcause
      have hlength := hlonger.length_le
      rw [List.length_cons] at hlength
      obtain ⟨handle, hhandle, chain, hchain, hpass⟩ :=
        ih (cells.length - (objects.length + 1)) (by omega) hplace hbeforeHeld _ hlonger rfl
      exact ⟨handle, hhandle, chain, hchain, hchain.cause_mem hpass hplace hcause⟩

/-- The holder of an object without a cause is the only one exactly when no chain of another handle
passes the object. -/
theorem holders_eq_one_iff (h : Counted cells (label :: handles))
    (hcell : cells[label]? = some cell) :
    cell.holders = 1 ↔ ∀ place ∈ handles, ∀ objects, Follows cells place objects →
      label ∉ objects.map (·.label) := by
  constructor
  · intro hone place hplace objects hobjects
    have hne : place ≠ label := fun heq => (h.sole_holder hcell hone).1 (heq ▸ hplace)
    exact h.notMem_of_sole_holder hcell hone hne hobjects
  · intro hnone
    -- a further holder would be a handle, or a cause of it that is itself on the chain of a handle
    by_contra hmore
    have hlower := h.lower hcell hmore
    have hcount := h.holders_eq label cell hcell
    rw [List.count_cons_self] at hcount
    have hlt := (List.getElem?_eq_some_iff.1 hcell).1
    obtain ⟨place, hplace, objects, hobjects, hpass⟩ :=
      hlower.exists_handle (List.getElem?_set_self hlt) (by dsimp only; omega)
    obtain ⟨others, hothers⟩ := h.readable place (h.stored place (.tail _ hplace))
    have hsame := (hothers.set_holders hcell (cell.holders - 1)).unique hobjects
    exact hnone place hplace others hothers (hsame ▸ hpass)

/-- Giving an object its cause moves the handle on the cause into the object. -/
theorem wrap {front : Nat} (h : Counted cells (label :: front :: handles))
    (hcell : cells[front]? = some cell) (hcause : cell.cause = none) (hone : cell.holders = 1)
    (hfollows : Follows cells label objects) :
    Counted (cells.set front { cell with cause := some label }) (front :: handles) ∧
      Follows (cells.set front { cell with cause := some label }) front
        (⟨front, cell.error⟩ :: objects) ∧
      Keeps cells (cells.set front { cell with cause := some label }) handles := by
  have hswap := h.perm (List.Perm.swap front label handles)
  have hlt := (List.getElem?_eq_some_iff.1 hcell).1
  obtain ⟨hunheld, huncaused⟩ := hswap.sole_holder hcell hone
  have hne : label ≠ front := fun heq => hunheld (heq ▸ List.mem_cons_self)
  have hkept : ∀ place, place ≠ front → ∀ others, Follows cells place others →
      Follows (cells.set front { cell with cause := some label }) place others :=
    fun place hplace others hothers =>
      hothers.set_of_notMem (hswap.notMem_of_sole_holder hcell hone hplace hothers) _
  have hchanged : (cells.set front { cell with cause := some label })[front]? =
      some { cell with cause := some label } := List.getElem?_set_self hlt
  have hwrapped := Follows.caused hchanged rfl (hkept label hne objects hfollows)
  refine ⟨h.set hcell (fun place hplace => ?_) (fun place hplace => ?_) (fun place hplace => ?_)
    ?_ (fun hzero => ?_), hwrapped, fun place hplace => hkept place ?_⟩
  · by_cases hsame : place = front
    · rw [hsame]
      exact ⟨_, hwrapped⟩
    · obtain ⟨others, hothers⟩ := h.readable place hplace
      exact ⟨others, hkept place hsame others hothers⟩
  · exact h.stored place (.tail _ hplace)
  · rw [List.count_cons (b := label)]
    simp only [hcause, beq_iff_eq]
    by_cases hsame : label = place <;> simp [hsame]
  · have hcount := hswap.holders_eq front cell hcell
    simp only [hcause, List.count_cons_self, List.count_cons_of_ne hne] at hcount ⊢
    simp [hne]
    omega
  · dsimp only at hzero
    omega
  · rintro rfl
    exact hunheld (.tail _ hplace)

end Counted

end ErrorCell

end RelSchema
