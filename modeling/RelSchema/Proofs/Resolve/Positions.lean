import RelSchema.Proofs.Registry.History

/-!
# Ids along a history

Registering gives a model its position as id, replacing keeps the position, and resolving never
touches an id, so that the id of a registered model can always be used as an index.
-/

namespace RelSchema

/-! ## 1. Resolving touches no id -/

theorem Model.id_of_synthesize {m synthesized : Model} {f : Reference} {separator : String}
    {key : PrimaryKey} (h : m.synthesize f separator key = .ok synthesized) :
    synthesized.id = m.id := by
  obtain ⟨-, -, rfl⟩ := synthesize_eq_ok_iff.1 h
  rfl

theorem Reference.id_of_settle {f : Reference} {owner target settled : Model} {separator : String}
    {key : PrimaryKey} {pairs : List Pair}
    (h : f.settle owner target separator key = .ok (settled, pairs)) : settled.id = owner.id := by
  cases himplicit : f.isImplicit with
  | true => exact Model.id_of_synthesize ((settle_eq_ok_iff_of_implicit himplicit).1 h).1
  | false => rw [((settle_eq_ok_iff_of_explicit himplicit).1 h).2]

namespace Registry

variable {separator : String} {r s : Registry}

theorem Step.map_id_eq {id : ReferenceId} (h : Step separator r id s) :
    s.models.map (·.id) = r.models.map (·.id) := by
  obtain ⟨howner, -, -, -, -, -, hsettle⟩ := h
  have hid := Reference.id_of_settle hsettle
  exact map_modify howner hid

theorem Steps.map_id_eq (h : Steps separator r s) :
    s.models.map (·.id) = r.models.map (·.id) := by
  induction h with
  | refl => rfl
  | tail _ hstep ih => exact hstep.choose_spec.map_id_eq.trans ih

theorem map_id_of_resolve (h : (r.resolve separator).result = .ok s) :
    s.models.map (·.id) = r.models.map (·.id) :=
  (steps_of_resolveAll (resolveAll_of_resolve h)).1.map_id_eq.trans
    (map_dropRounds (fun _ _ _ => rfl) _ r)

/-! ## 2. Ids are positions -/

def Positioned (r : Registry) : Prop :=
  ∀ id m, r.get? id = some m → m.id = some id

namespace Positioned

theorem empty : ({} : Registry).Positioned := by
  simp [Positioned, get?]

theorem congr (hr : r.Positioned) (h : s.models.map (·.id) = r.models.map (·.id)) :
    s.Positioned := by
  intro id n hn
  have hat : (r.models.map (·.id))[id]? = some n.id := by
    rw [← h, List.getElem?_map, show s.models[id]? = some n from hn, Option.map_some]
  rw [List.getElem?_map, Option.map_eq_some_iff] at hat
  obtain ⟨m, hm, hid⟩ := hat
  rw [← hid]
  exact hr id m hm

theorem append (hr : r.Positioned) (m : Model) :
    (⟨r.models ++ [{ m with id := some r.size }]⟩ : Registry).Positioned := by
  intro id n hn
  have hsome : (r.models ++ [{ m with id := some r.size }])[id]? = some n := hn
  by_cases hlt : id < r.models.length
  · rw [List.getElem?_append_left hlt] at hsome
    exact hr id n hsome
  · -- the only later position is that of the new model
    rw [List.getElem?_append_right (Nat.le_of_not_lt hlt), List.getElem?_singleton] at hsome
    obtain ⟨hzero, hn'⟩ := Option.ite_none_right_eq_some.1 hsome
    obtain rfl := Option.some.inj hn'
    exact congrArg some (Nat.le_antisymm (Nat.le_of_not_lt hlt) (Nat.sub_eq_zero_iff_le.1 hzero))

theorem perform (hr : r.Positioned) (operation : Operation) :
    (r.perform operation).Positioned := by
  obtain h | ⟨m, rfl, -, h⟩ | ⟨m, id, rfl, -, h⟩ | ⟨separator, rfl, h⟩ := perform_cases r operation
  · rw [h]
    exact hr
  · rw [h]
    exact hr.append m
  · rw [h]
    intro i n hn
    rw [get?_modify] at hn
    by_cases heq : id = i
    · subst heq
      rw [if_pos rfl, Option.map_eq_some_iff] at hn
      obtain ⟨-, -, rfl⟩ := hn
      rfl
    · rw [if_neg heq] at hn
      exact hr i n hn
  · exact hr.congr (map_id_of_resolve h)

end Positioned

theorem positioned_after (operations : List Operation) : (after operations).Positioned :=
  List.foldlRecOn operations Registry.perform .empty fun _ hr o _ => hr.perform o

end Registry

end RelSchema
