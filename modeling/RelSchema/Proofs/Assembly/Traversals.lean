import Mathlib.Data.List.Forall2
import Mathlib.Data.List.Induction
import Mathlib.Data.List.Nodup

/-!
# Traversals that succeed

A check over a list passes when it passes for every element, and a traversal succeeds when it
relates the list to another one element by element.
-/

namespace RelSchema

/-! ## 1. Checks and traversals -/

section Except

variable {ε α β : Type} {check : α → Except ε PUnit}

theorem bind_eq_ok_iff {x : Except ε α} {f : α → Except ε β} {b : β} :
    (x >>= f) = .ok b ↔ ∃ a, x = .ok a ∧ f a = .ok b := by
  cases x <;> simp [bind, Except.bind]

theorem check_bind_eq_ok_iff {first second : Except ε PUnit} :
    (first >>= fun _ => second) = .ok () ↔ first = .ok () ∧ second = .ok () :=
  bind_eq_ok_iff.trans ⟨fun ⟨_, h⟩ => h, fun h => ⟨(), h⟩⟩

theorem forM_eq_ok_iff {xs : List α} : xs.forM check = .ok () ↔ ∀ x ∈ xs, check x = .ok () := by
  induction xs with
  | nil => simp [List.forM, pure, Except.pure]
  | cons x xs ih =>
    show (check x >>= fun _ => xs.forM check) = .ok () ↔ _
    rw [check_bind_eq_ok_iff, ih, List.forall_mem_cons]

theorem ite_eq_ok_iff {condition : Prop} [Decidable condition] {rest : Except ε PUnit} {e : ε} :
    (if condition then rest else .error e) = .ok () ↔ condition ∧ rest = .ok () := by
  by_cases h : condition <;> simp [h]

theorem guard_eq_ok_iff {condition : Bool} {e : ε} :
    (if condition then .ok () else .error e : Except ε PUnit) = .ok () ↔ condition = true :=
  ite_eq_ok_iff.trans (and_iff_left rfl)

theorem mapM_eq_ok_iff {f : α → Except ε β} {xs : List α} {ys : List β} :
    xs.mapM f = .ok ys ↔ List.Forall₂ (fun x y => f x = .ok y) xs ys := by
  induction xs generalizing ys with
  | nil => cases ys <;> simp [pure, Except.pure]
  | cons x xs ih =>
    rw [List.mapM_cons, bind_eq_ok_iff, List.forall₂_cons_left_iff]
    refine exists_congr fun y => ?_
    rw [bind_eq_ok_iff, ← exists_and_left]
    refine exists_congr fun rest => ?_
    show _ ∧ _ ∧ Except.ok (y :: rest) = Except.ok ys ↔ _
    rw [ih, Except.ok.injEq, eq_comm (a := ys)]

end Except

/-! ## 2. Related lists -/

section Related

variable {α β : Type} {R : α → β → Prop} {xs : List α} {ys : List β}

theorem exists_forall₂ (h : ∀ x ∈ xs, ∃ y, R x y) : ∃ ys, List.Forall₂ R xs ys := by
  induction xs with
  | nil => exact ⟨[], .nil⟩
  | cons x xs ih =>
    obtain ⟨y, hy⟩ := h x List.mem_cons_self
    obtain ⟨ys, hys⟩ := ih fun x' hx' => h x' (.tail _ hx')
    exact ⟨y :: ys, .cons hy hys⟩

theorem exists_left_of_mem (h : List.Forall₂ R xs ys) {y : β} (hy : y ∈ ys) : ∃ x ∈ xs, R x y := by
  induction h with
  | nil => exact absurd hy List.not_mem_nil
  | @cons x y' xs ys hxy _ ih =>
    rcases List.mem_cons.1 hy with rfl | hy
    · exact ⟨x, List.mem_cons_self, hxy⟩
    · obtain ⟨x', hx', h'⟩ := ih hy
      exact ⟨x', .tail _ hx', h'⟩

/-- Related elements of the two lists may be related in another way too. -/
theorem forall₂_imp_of_mem {S : α → β → Prop} (h : List.Forall₂ R xs ys)
    (himp : ∀ x ∈ xs, ∀ y ∈ ys, R x y → S x y) : List.Forall₂ S xs ys := by
  induction h with
  | nil => exact .nil
  | @cons x y xs ys hxy _ ih =>
    refine .cons (himp x List.mem_cons_self y List.mem_cons_self hxy) ?_
    exact ih fun x' hx' y' hy' => himp x' (.tail _ hx') y' (.tail _ hy')

theorem forall₂_iff_getElem? :
    List.Forall₂ R xs ys ↔
      xs.length = ys.length ∧
        ∀ (i : Nat) (x : α) (y : β), xs[i]? = some x → ys[i]? = some y → R x y := by
  rw [List.forall₂_iff_get]
  refine and_congr_right fun _ => ⟨fun h i x y hx hy => ?_, fun h i hi hi' => ?_⟩
  · obtain ⟨hi, rfl⟩ := List.getElem?_eq_some_iff.1 hx
    obtain ⟨hi', rfl⟩ := List.getElem?_eq_some_iff.1 hy
    exact h i hi hi'
  · exact h i _ _ (List.getElem?_eq_getElem hi) (List.getElem?_eq_getElem hi')

end Related

/-! ## 3. First repetitions -/

section Repetition

variable {α β : Type}

theorem nodup_append_singleton_iff {xs : List α} {x : α} :
    (xs ++ [x]).Nodup ↔ xs.Nodup ∧ x ∉ xs := by
  rw [← List.concat_eq_append, List.nodup_concat, and_comm]

/-- Either the values differ, or there is a first element whose value an earlier one has. -/
theorem nodup_map_or_exists_repeated (value : α → β) (xs : List α) :
    (xs.map value).Nodup ∨ ∃ before x rest, xs = before ++ x :: rest ∧
      (before.map value).Nodup ∧ value x ∈ before.map value := by
  induction xs using List.reverseRecOn with
  | nil => exact .inl List.nodup_nil
  | append_singleton xs x ih =>
    rcases ih with hnodup | ⟨before, y, rest, rfl, hnodup, hy⟩
    · by_cases hx : value x ∈ xs.map value
      · exact .inr ⟨xs, x, [], rfl, hnodup, hx⟩
      · left
        rw [List.map_append, List.map_singleton, nodup_append_singleton_iff]
        exact ⟨hnodup, hx⟩
    · exact .inr ⟨before, y, rest ++ [x], by simp, hnodup, hy⟩

end Repetition

end RelSchema
