import RelSchema.Proofs.Registry.History

/-!
# What can be handed in

Models need not be fresh when they are handed in: columns, references and whole models can be cloned
out of a registry after a resolution, changed in all that is public of them, and handed in again, to
this registry or to another one.  The mark of a column and the resolution of a reference are not
public, and clones keep them.
-/

namespace RelSchema

mutual

/-- A column that is fresh, or a clone from a model, or one of these with public changes. -/
inductive Column.Obtainable : Column → Prop
  | fresh {c : Column} (h : c.Fresh) : Column.Obtainable c
  | cloned {m : Model} {c : Column} (hm : Model.Obtainable m) (hc : c ∈ m.columns) :
      Column.Obtainable c
  | changed {c d : Column} (hc : Column.Obtainable c) (hmark : d.synthesizedBy = c.synthesizedBy)
      (hflag : d.declaredForeignKey = c.declaredForeignKey) : Column.Obtainable d

/-- A reference that is fresh, or a clone from a model, or one of these with public changes. -/
inductive Reference.Obtainable : Reference → Prop
  | fresh {f : Reference} (h : f.Fresh) : Reference.Obtainable f
  | cloned {m : Model} {f : Reference} (hm : Model.Obtainable m) (hf : f ∈ m.references) :
      Reference.Obtainable f
  | changed {f g : Reference} (hf : Reference.Obtainable f) (hplace : g.place = f.place)
      (hres : g.resolution = f.resolution) : Reference.Obtainable g

/-- A model that was made under a name or cloned from a registry, and has since been given a table
name and more fields. -/
inductive Model.Obtainable : Model → Prop
  | new (name : String) : Model.Obtainable { name := name }
  | cloned {r : Registry} {m : Model} (hr : Registry.Obtainable r) (hm : m ∈ r.models) :
      Model.Obtainable m
  | named {m : Model} (hm : Model.Obtainable m) (table : String) :
      Model.Obtainable { m with tableName := some table }
  | addColumn {m added : Model} {c : Column} (hm : Model.Obtainable m) (hc : Column.Obtainable c)
      (hadd : m.addColumn c = .ok added) : Model.Obtainable added
  | addReference {m added : Model} {f : Reference} (hm : Model.Obtainable m)
      (hf : Reference.Obtainable f) (hadd : m.addReference f = .ok added) : Model.Obtainable added

inductive Registry.Obtainable : Registry → Prop
  | empty : Registry.Obtainable {}
  | register {r : Registry} {m : Model} (hr : Registry.Obtainable r) (hm : Model.Obtainable m) :
      Registry.Obtainable (r.perform (.register m))
  | replace {r : Registry} {m : Model} (hr : Registry.Obtainable r) (hm : Model.Obtainable m) :
      Registry.Obtainable (r.perform (.replace m))
  | resolve {r : Registry} (hr : Registry.Obtainable r) (separator : String) :
      Registry.Obtainable (r.perform (.resolve separator))

end

/-- A model is handed in that can be obtained. -/
def Operation.Public : Operation → Prop
  | .register m => m.Obtainable
  | .replace m => m.Obtainable
  | .resolve _ => True

def Declaration.Obtainable : Declaration → Prop
  | .column c => c.Obtainable
  | .reference f => f.Obtainable

theorem Model.Obtainable.declare {m added : Model} {d : Declaration} (hm : m.Obtainable)
    (hd : d.Obtainable) (hadd : m.declare d = .ok added) : added.Obtainable := by
  cases d with
  | column c => exact hm.addColumn hd hadd
  | reference f => exact hm.addReference hd hadd

theorem Model.obtainable_ofFields (name : String) (fields : List Declaration)
    (h : ∀ d ∈ fields, d.Obtainable) : (Model.ofFields name fields).Obtainable := by
  refine List.foldlRecOn (motive := Model.Obtainable) fields _ (.new name) fun m hm d hd => ?_
  cases hadd : m.declare d with
  | ok added => exact hm.declare (h d hd) hadd
  | error e => exact hm

theorem Declaration.Fresh.obtainable {d : Declaration} (h : d.Fresh) : d.Obtainable := by
  cases d with
  | column c => exact .fresh h
  | reference f => exact .fresh h

theorem Model.Fresh.obtainable {m : Model} (h : m.Fresh) : m.Obtainable := by
  induction h with
  | new name => exact .new name
  | named _ table ih => exact ih.named table
  | declare _ hd hadd ih => exact ih.declare hd.obtainable hadd

theorem Operation.Fresh.isPublic {operation : Operation} (h : operation.Fresh) :
    operation.Public := by
  cases operation with
  | register m => exact Model.Fresh.obtainable h
  | replace m => exact Model.Fresh.obtainable h
  | resolve separator => trivial

namespace Registry

theorem Obtainable.perform {r : Registry} (h : r.Obtainable) {operation : Operation}
    (hpublic : operation.Public) : (r.perform operation).Obtainable := by
  cases operation with
  | register m => exact h.register hpublic
  | replace m => exact h.replace hpublic
  | resolve separator => exact h.resolve separator

theorem obtainable_after {operations : List Operation} (h : ∀ o ∈ operations, o.Public) :
    (after operations).Obtainable :=
  List.foldlRecOn operations Registry.perform .empty fun _ hr o ho => hr.perform (h o ho)

theorem after_append_singleton (operations : List Operation) (operation : Operation) :
    after (operations ++ [operation]) = (after operations).perform operation := by
  rw [after, List.foldl_append]
  rfl

theorem exists_history_perform {r : Registry}
    (h : ∃ operations, (∀ o ∈ operations, o.Public) ∧ after operations = r) {operation : Operation}
    (hpublic : operation.Public) :
    ∃ operations, (∀ o ∈ operations, o.Public) ∧ after operations = r.perform operation := by
  obtain ⟨operations, hall, rfl⟩ := h
  refine ⟨operations ++ [operation], ?_, after_append_singleton _ _⟩
  simpa [or_imp, forall_and, hpublic] using hall

theorem Obtainable.exists_history : ∀ {r : Registry}, r.Obtainable →
    ∃ operations, (∀ o ∈ operations, o.Public) ∧ after operations = r
  | _, .empty => ⟨[], by simp, rfl⟩
  | _, .register hr hm => exists_history_perform hr.exists_history hm
  | _, .replace hr hm => exists_history_perform hr.exists_history hm
  | _, .resolve hr _ => exists_history_perform hr.exists_history trivial

/-- The registries that can be obtained are those that histories of public operations lead to. -/
theorem obtainable_iff {r : Registry} :
    r.Obtainable ↔ ∃ operations, (∀ o ∈ operations, o.Public) ∧ after operations = r := by
  refine ⟨Obtainable.exists_history, ?_⟩
  rintro ⟨operations, hall, rfl⟩
  exact obtainable_after hall

end Registry

end RelSchema
