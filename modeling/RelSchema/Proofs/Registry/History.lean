import RelSchema.Proofs.Resolve.Dropping
import RelSchema.Proofs.Resolve.Run

/-!
# Histories of a registry

A registry is built by registering, replacing and resolving, in any order and however often.  Every
registry that comes about in this way is sound.
-/

namespace RelSchema

/-! ## 1. Operations -/

inductive Operation where
  | register (m : Model)
  | replace (m : Model)
  | resolve (separator : String)

namespace Operation

/-- A model is handed in as it was declared. -/
def Fresh : Operation → Prop
  | .register m => m.Fresh
  | .replace m => m.Fresh
  | .resolve _ => True

/-- Nothing is replaced, and every resolution is asked for with the one separator. -/
def Additive (separator : String) : Operation → Prop
  | .register _ => True
  | .replace _ => False
  | .resolve other => other = separator

/-- Nothing is replaced. -/
def Accumulates : Operation → Prop
  | .register _ => True
  | .replace _ => False
  | .resolve _ => True

theorem Additive.accumulates {separator : String} {o : Operation} (h : o.Additive separator) :
    o.Accumulates := by
  cases o with
  | register m => trivial
  | replace m => exact h
  | resolve other => trivial

end Operation

namespace Registry

/-- The registry after an operation; one that fails leaves the registry as it is. -/
def perform (r : Registry) : Operation → Registry
  | .register m =>
      match (r.register m).result with
      | .ok (next, _) => next
      | .error _ => r
  | .replace m =>
      match (r.replace m).result with
      | .ok (next, _) => next
      | .error _ => r
  | .resolve separator =>
      match (r.resolve separator).result with
      | .ok next => next
      | .error _ => r

/-- The registry after operations that start with an empty one. -/
def after (operations : List Operation) : Registry :=
  operations.foldl perform {}

/-- The registry with models registered one after the other. -/
def ofModels (models : List Model) : Registry :=
  after (models.map .register)

theorem register_eq_ok_iff {r next : Registry} {m : Model} {id : ModelId} :
    (r.register m).result = .ok (next, id) ↔
      r.contains m.name = false ∧ next = ⟨r.models ++ [{ m with id := some r.size }]⟩ ∧
        id = r.size := by
  unfold register
  cases r.contains m.name <;> simp [eq_comm]

theorem replace_eq_ok_iff {r next : Registry} {m : Model} {id : ModelId} :
    (r.replace m).result = .ok (next, id) ↔
      r.idOf m.name = some id ∧ next = r.modify id fun _ => { m with id := some id } := by
  have hset : ∀ i, (⟨r.models.set i { m with id := some i }⟩ : Registry) =
      r.modify i fun _ => { m with id := some i } := fun i => by
    rw [modify, List.set_eq_modify]
  unfold replace
  cases r.idOf m.name with
  | none => simp
  | some i =>
    simp only [hset, Except.ok.injEq, Prod.mk.injEq, Option.some.injEq]
    constructor
    · rintro ⟨rfl, rfl⟩
      exact ⟨rfl, rfl⟩
    · rintro ⟨rfl, rfl⟩
      exact ⟨rfl, rfl⟩

theorem perform_register_of_contains {r : Registry} {m : Model} (h : r.contains m.name) :
    r.perform (.register m) = r := by
  simp [perform, register, h]

theorem perform_register {r : Registry} {m : Model} (h : r.contains m.name = false) :
    r.perform (.register m) = ⟨r.models ++ [{ m with id := some r.size }]⟩ := by
  simp only [perform, register_eq_ok_iff.2 ⟨h, rfl, rfl⟩]

/-- What an operation can do to a registry. -/
theorem perform_cases (r : Registry) (operation : Operation) :
    r.perform operation = r ∨
    (∃ m, operation = .register m ∧ r.contains m.name = false ∧
      r.perform operation = ⟨r.models ++ [{ m with id := some r.size }]⟩) ∨
    (∃ m id, operation = .replace m ∧ r.idOf m.name = some id ∧
      r.perform operation = r.modify id fun _ => { m with id := some id }) ∨
    ∃ separator, operation = .resolve separator ∧
      (r.resolve separator).result = .ok (r.perform operation) := by
  cases operation with
  | register m =>
    -- a second model of a name is refused
    cases h : r.contains m.name with
    | true => exact .inl (perform_register_of_contains h)
    | false => exact .inr (.inl ⟨m, rfl, h, perform_register h⟩)
  | replace m =>
    cases h : (r.replace m).result with
    | error e => exact .inl (by simp only [perform, h])
    | ok out =>
      obtain ⟨hid, hnext⟩ := replace_eq_ok_iff.1 h
      exact .inr (.inr (.inl ⟨m, out.2, rfl, hid, by simp only [perform, h, hnext]⟩))
  | resolve separator =>
    cases h : (r.resolve separator).result with
    | error e => exact .inl (by simp only [perform, h])
    | ok next => exact .inr (.inr (.inr ⟨separator, rfl, by simp only [perform, h]⟩))

/-! ## 2. Sound registries only -/

theorem Sound.empty : ({} : Registry).Sound :=
  ⟨List.nodup_nil, by simp, by simp, by simp⟩

end Registry

/-- The id of a model does not matter for its layout. -/
theorem Model.Laid.withId {m : Model} (h : m.Laid) (id : Option ModelId) :
    ({ m with id := id } : Model).Laid :=
  ⟨h.nodup_names, h.columns_eq, h.foreignKey_eq, h.pairs_eq⟩

namespace Registry

variable {r s : Registry} {m : Model}

theorem get?_append_of_get? {id : ModelId} {n : Model} (h : r.get? id = some n) (m : Model) :
    (⟨r.models ++ [m]⟩ : Registry).get? id = some n := by
  have hlt : id < r.models.length := (List.getElem?_eq_some_iff.1 h).1
  show (r.models ++ [m])[id]? = some n
  rw [List.getElem?_append_left hlt]
  exact h

theorem nodup_names_append (hr : (r.models.map (·.name)).Nodup) (hnew : r.contains m.name = false) :
    ((r.models ++ [m]).map (·.name)).Nodup := by
  rw [List.map_append, List.map_singleton, List.nodup_append]
  refine ⟨hr, List.nodup_singleton _, fun name hname name' hname' => ?_⟩
  obtain ⟨n, hn, rfl⟩ := List.mem_map.1 hname
  obtain rfl := List.mem_singleton.1 hname'
  exact fun heq => by simpa [heq] using List.any_eq_false.1 hnew n hn

/-- Names tell models apart after every operation, whatever is handed in. -/
theorem nodup_names_perform (hr : (r.models.map (·.name)).Nodup) (operation : Operation) :
    ((r.perform operation).models.map (·.name)).Nodup := by
  obtain h | ⟨m, rfl, hnew, h⟩ | ⟨m, id, rfl, hid, h⟩ | ⟨separator, rfl, h⟩ :=
    perform_cases r operation
  · rwa [h]
  · rw [h]
    exact nodup_names_append hr hnew
  · obtain ⟨old, hold, hname⟩ := (idOf_eq_some_iff hr).1 hid
    rw [h, map_modify hold hname.symm]
    exact hr
  · have hsteps := (steps_of_resolveAll (resolveAll_of_resolve h)).1
    rwa [map_name_eq_of_map_bare_eq (hsteps.map_bare_eq.trans (map_bare_withoutStale r))]

theorem idOf_append_of_idOf (hr : (r.models.map (·.name)).Nodup) (hnew : r.contains m.name = false)
    {name : String} {id : ModelId} (h : r.idOf name = some id) :
    (⟨r.models ++ [m]⟩ : Registry).idOf name = some id := by
  obtain ⟨n, hn, rfl⟩ := (idOf_eq_some_iff hr).1 h
  exact (idOf_eq_some_iff (nodup_names_append hr hnew)).2 ⟨n, get?_append_of_get? hn m, rfl⟩

/-- Only models that were there before have resolved references after one is added. -/
theorem mem_of_mem_append (hopen : ∀ f ∈ m.references, f.resolution = none) {n : Model}
    (hn : n ∈ r.models ++ [m]) {f : Reference} (hf : f ∈ n.references) {resolution : Resolution}
    (hres : f.resolution = some resolution) : n ∈ r.models := by
  rcases List.mem_append.1 hn with hn | hn
  · exact hn
  · obtain rfl := List.mem_singleton.1 hn
    rw [hopen f hf] at hres
    cases hres

theorem Sound.append (hr : r.Sound) (hnew : r.contains m.name = false) (hlaid : m.Laid)
    (hopen : ∀ f ∈ m.references, f.resolution = none) : (⟨r.models ++ [m]⟩ : Registry).Sound := by
  refine ⟨nodup_names_append hr.nodup_names hnew, ?_, ?_, ?_⟩
  · intro n hn
    rcases List.mem_append.1 hn with hn | hn
    · exact hr.laid n hn
    · exact List.mem_singleton.1 hn ▸ hlaid
  · intro n hn f hf resolution hres
    have hold := mem_of_mem_append hopen hn hf hres
    exact idOf_append_of_idOf hr.nodup_names hnew (hr.target_eq n hold f hf resolution hres)
  · intro n hn f hf resolution hres
    exact hr.key_ne_nil n (mem_of_mem_append hopen hn hf hres) f hf resolution hres

theorem Sound.resolve {separator : String} (hr : r.Sound)
    (h : (r.resolve separator).result = .ok s) : s.Sound :=
  (steps_of_resolve hr h).1.sound hr.withoutStale

theorem Sound.perform {operation : Operation} (hr : r.Sound) (hfresh : operation.Fresh) :
    (r.perform operation).Sound := by
  obtain h | ⟨m, rfl, hnew, h⟩ | ⟨m, id, rfl, hid, h⟩ | ⟨separator, rfl, h⟩ :=
    perform_cases r operation
  · rw [h]
    exact hr
  · have hm : m.Fresh := hfresh
    rw [h]
    exact hr.append hnew (hm.laid.withId _) hm.resolution_eq_none
  · have hm : m.Fresh := hfresh
    obtain ⟨old, hold, hname⟩ := (idOf_eq_some_iff hr.nodup_names).1 hid
    rw [h]
    refine hr.modify hold hname.symm (hm.laid.withId _) fun f hf resolution hres => ?_
    have hnone : f.resolution = none := hm.resolution_eq_none f hf
    simp [hnone] at hres
  · exact hr.resolve h

/-- Whatever is done to a registry, it stays sound. -/
theorem sound_after {operations : List Operation} (h : ∀ o ∈ operations, o.Fresh) :
    (after operations).Sound :=
  List.foldlRecOn operations perform Sound.empty fun _ hr o ho => hr.perform (h o ho)

/-- What holds of the empty registry, and is kept by every operation on a sound registry, holds
after every history. -/
theorem after_induction {property : Registry → Prop} (hempty : property {})
    (hperform : ∀ r o, r.Sound → property r → o.Fresh → property (r.perform o))
    {operations : List Operation} (h : ∀ o ∈ operations, o.Fresh) :
    property (after operations) := by
  have hboth : (after operations).Sound ∧ property (after operations) :=
    List.foldlRecOn (motive := fun r => r.Sound ∧ property r) operations perform
      ⟨Sound.empty, hempty⟩ fun r hr o ho =>
        ⟨hr.1.perform (h o ho), hperform r o hr.1 hr.2 (h o ho)⟩
  exact hboth.2

/-! ## 3. What a history declares -/

theorem map_bare_of_resolve {separator : String} (hr : r.Sound)
    (h : (r.resolve separator).result = .ok s) :
    s.models.map Model.bare = r.models.map Model.bare := by
  have hgrow := (steps_of_resolve hr h).1.growsTo hr.withoutStale
  rw [← hgrow.map_bare_eq, map_bare_withoutStale]

/-- The declaration of the model of the name. -/
def declared? (r : Registry) (name : String) : Option Model :=
  (r.models.map Model.bare).find? (·.name == name)

theorem declared?_eq_some_iff {name : String} :
    r.declared? name = some m ↔ ∃ n, r.lookup name = .ok n ∧ n.bare = m := by
  simp only [declared?, lookup, List.find?_map, Option.map_eq_some_iff]
  constructor
  · rintro ⟨n, hn, rfl⟩
    exact ⟨n, by rw [show r.models.find? (·.name == name) = some n from hn], rfl⟩
  · rintro ⟨n, hn, rfl⟩
    cases hfind : r.models.find? (·.name == name) with
    | none => simp [hfind] at hn
    | some n' =>
      rw [hfind] at hn
      exact ⟨n', hfind, congrArg Model.bare (Except.ok.inj hn)⟩

theorem isSome_declared?_of_contains {name : String} (h : r.contains name) :
    (r.declared? name).isSome := by
  rw [declared?, List.find?_isSome]
  obtain ⟨n, hn, hname⟩ := List.any_eq_true.1 h
  exact ⟨n.bare, List.mem_map_of_mem hn, hname⟩

end Registry

/-- The declaration that an operation brings for the name. -/
def Operation.declaration? (name : String) : Operation → Option Model
  | .register m => if m.name = name then some m else none
  | .replace _ => none
  | .resolve _ => none

/-- The declaration that is registered first for the name. -/
def declaredIn (operations : List Operation) (name : String) : Option Model :=
  operations.findSome? (Operation.declaration? name)

namespace Registry

variable {r : Registry} {separator : String}

theorem declared?_append {m : Model} (hm : m.bare = m) (id : Option ModelId) (name : String) :
    (⟨r.models ++ [{ m with id := id }]⟩ : Registry).declared? name =
      (r.declared? name).or (if m.name = name then some m else none) := by
  have hbare : ({ m with id := id } : Model).bare = m := hm
  simp only [declared?, List.map_append, List.map_singleton, hbare, List.find?_append]
  by_cases hname : m.name = name <;> simp [hname]

/-- A name keeps its first declaration. -/
theorem declared?_perform {operation : Operation} (hr : r.Sound) (hfresh : operation.Fresh)
    (hadditive : operation.Additive separator) (name : String) :
    (r.perform operation).declared? name =
      (r.declared? name).or (operation.declaration? name) := by
  cases operation with
  | register m =>
    have hm : m.Fresh := hfresh
    cases hcontains : r.contains m.name with
    | false =>
      rw [perform_register hcontains]
      exact declared?_append hm.bare_eq _ name
    | true =>
      rw [perform_register_of_contains hcontains, Operation.declaration?]
      by_cases hname : m.name = name
      · rw [if_pos hname, Option.or_of_isSome (isSome_declared?_of_contains (hname ▸ hcontains))]
      · rw [if_neg hname, Option.or_none]
  | replace m => exact hadditive.elim
  | resolve other =>
    rw [Operation.declaration?, Option.or_none]
    cases h : (r.resolve other).result with
    | error e => simp only [perform, h]
    | ok s => simp only [perform, h, declared?, map_bare_of_resolve hr h]

theorem declared?_foldl_perform {operations : List Operation} (hr : r.Sound)
    (hfresh : ∀ o ∈ operations, o.Fresh) (hadditive : ∀ o ∈ operations, o.Additive separator)
    (name : String) :
    (operations.foldl perform r).declared? name =
      (r.declared? name).or (declaredIn operations name) := by
  induction operations generalizing r with
  | nil => exact (Option.or_none).symm
  | cons o operations ih =>
    have ho := hfresh o List.mem_cons_self
    rw [List.foldl_cons, ih (hr.perform ho) (fun o' ho' => hfresh o' (.tail _ ho'))
      (fun o' ho' => hadditive o' (.tail _ ho')),
      declared?_perform hr ho (hadditive o List.mem_cons_self), Option.or_assoc]
    -- what the operation declares goes before what the rest of the history declares
    refine congrArg (r.declared? name).or ?_
    rw [declaredIn, declaredIn, List.findSome?_cons]
    cases o.declaration? name <;> rfl

theorem map_bare_foldl_register {models : List Model} (hfresh : ∀ m ∈ models, m.Fresh)
    (hnames : (models.map (·.name)).Nodup) (hnew : ∀ m ∈ models, r.contains m.name = false) :
    ((models.map Operation.register).foldl perform r).models.map Model.bare =
      r.models.map Model.bare ++ models := by
  induction models generalizing r with
  | nil => simp
  | cons m models ih =>
    rw [List.map_cons, List.nodup_cons] at hnames
    have hm := hfresh m List.mem_cons_self
    have hbare : ({ m with id := some r.size } : Model).bare = m := hm.bare_eq
    -- the names that are still to come are not taken by the model either
    have hlater : ∀ n ∈ models, (⟨r.models ++ [{ m with id := some r.size }]⟩ : Registry).contains
        n.name = false := by
      intro n hn
      have hne : m.name ≠ n.name := fun heq => hnames.1 (heq ▸ List.mem_map_of_mem hn)
      have hold := hnew n (.tail _ hn)
      rw [contains] at hold ⊢
      rw [List.any_append, hold, Bool.false_or, List.any_cons, List.any_nil, Bool.or_false,
        beq_eq_false_iff_ne]
      exact hne
    rw [List.map_cons, List.foldl_cons, perform_register (hnew m List.mem_cons_self),
      ih (fun n hn => hfresh n (.tail _ hn)) hnames.2 hlater, List.map_append,
      List.map_singleton, hbare, List.append_assoc, List.singleton_append]

/-- Models of different names are registered as they are. -/
theorem map_bare_ofModels {models : List Model} (hfresh : ∀ m ∈ models, m.Fresh)
    (hnames : (models.map (·.name)).Nodup) : (ofModels models).models.map Model.bare = models :=
  map_bare_foldl_register hfresh hnames fun _ _ => rfl

/-- Registering resolves nothing. -/
theorem resolution_eq_none_ofModels {models : List Model} (hfresh : ∀ m ∈ models, m.Fresh) :
    ∀ m ∈ (ofModels models).models, ∀ f ∈ m.references, f.resolution = none := by
  refine List.foldlRecOn (motive := fun r => ∀ m ∈ r.models, ∀ f ∈ m.references,
    f.resolution = none) (models.map .register) perform
    (fun _ hm => absurd hm List.not_mem_nil) fun r hr o ho => ?_
  obtain ⟨m, hm, rfl⟩ := List.mem_map.1 ho
  cases hcontains : r.contains m.name with
  | true =>
    rw [perform_register_of_contains hcontains]
    exact hr
  | false =>
    rw [perform_register hcontains]
    intro n hn
    rcases List.mem_append.1 hn with hn | hn
    · exact hr n hn
    · obtain rfl := List.mem_singleton.1 hn
      exact (hfresh m hm).resolution_eq_none

/-- The models of a registry are declared as its history declares them first. -/
theorem declared?_after {operations : List Operation} (hfresh : ∀ o ∈ operations, o.Fresh)
    (hadditive : ∀ o ∈ operations, o.Additive separator) (name : String) :
    (after operations).declared? name = declaredIn operations name :=
  declared?_foldl_perform Sound.empty hfresh hadditive name

end Registry

end RelSchema
