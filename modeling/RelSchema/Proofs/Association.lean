import Mathlib.Data.List.Nodup
import Mathlib.Data.List.Perm.Basic

/-!
# Association lists

Values under names.  As long as the names are different, a look-up finds what is in the list, in
whatever order it stands there.
-/

namespace RelSchema.Association

variable {α : Type} {entries others : List (String × α)} {name other : String} {value : α}

theorem mem_of_lookup (h : entries.lookup name = some value) : (name, value) ∈ entries := by
  obtain ⟨before, behind, rfl, -⟩ := List.lookup_eq_some_iff.1 h
  exact List.mem_append_right _ List.mem_cons_self

theorem lookup_eq_some_iff (hnodup : (entries.map (·.1)).Nodup) :
    entries.lookup name = some value ↔ (name, value) ∈ entries := by
  refine ⟨mem_of_lookup, fun h => ?_⟩
  obtain ⟨before, behind, rfl⟩ := List.append_of_mem h
  refine List.lookup_eq_some_iff.2 ⟨before, behind, rfl, fun x hx => bne_iff_ne.2 fun heq => ?_⟩
  rw [List.map_append, List.map_cons, List.nodup_append] at hnodup
  exact hnodup.2.2 x.1 (List.mem_map_of_mem hx) name List.mem_cons_self heq.symm

theorem lookup_filter (keep : String → Bool) (entries : List (String × α)) (name : String) :
    (entries.filter fun e => keep e.1).lookup name =
      if keep name then entries.lookup name else none := by
  induction entries with
  | nil => simp
  | cons e entries ih =>
    obtain ⟨own, value⟩ := e
    cases hkeep : keep own with
    | true =>
      rw [List.filter_cons_of_pos (by simpa using hkeep), List.lookup_cons, List.lookup_cons, ih]
      cases hname : name == own with
      | true => simp [beq_iff_eq.1 hname, hkeep]
      | false => rfl
    | false =>
      rw [List.filter_cons_of_neg (by simp [hkeep]), List.lookup_cons, ih]
      cases hname : name == own with
      | true => simp [beq_iff_eq.1 hname, hkeep]
      | false => rfl

theorem lookup_filter_bne_self (entries : List (String × α)) (name : String) :
    (entries.filter (·.1 != name)).lookup name = none := by
  rw [lookup_filter (· != name)]
  simp

theorem lookup_filter_bne_of_ne (hne : other ≠ name) :
    (entries.filter (·.1 != name)).lookup other = entries.lookup other := by
  rw [lookup_filter (· != name)]
  simp [hne]

/-- The entry of a name and the others. -/
theorem perm_cons_filter_bne (hnodup : (entries.map (·.1)).Nodup)
    (hlookup : entries.lookup name = some value) :
    entries.Perm ((name, value) :: entries.filter (·.1 != name)) := by
  obtain ⟨before, behind, rfl, -⟩ := List.lookup_eq_some_iff.1 hlookup
  have hperm : (before ++ (name, value) :: behind).Perm ((name, value) :: (before ++ behind)) :=
    List.perm_middle
  obtain ⟨hnot, -⟩ := List.nodup_cons.1 ((hperm.map (·.1)).nodup hnodup)
  have hkeep : (before ++ behind).filter (·.1 != name) = before ++ behind := by
    refine List.filter_eq_self.2 fun x hx => bne_iff_ne.2 fun heq => hnot ?_
    exact List.mem_map.2 ⟨x, hx, heq⟩
  rw [List.filter_append] at hkeep
  rw [List.filter_append, List.filter_cons_of_neg (by simp), hkeep]
  exact hperm

end RelSchema.Association
