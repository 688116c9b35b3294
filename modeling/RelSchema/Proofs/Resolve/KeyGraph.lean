import Mathlib.Order.WellFoundedSet
import RelSchema.Proofs.Resolve.Coherent

/-!
# The graph of key references

A model's key depends on the keys of the models that its key references name.  When these references
close no cycle and name registered models only, the key of every model rests on keys that come
before it.
-/

namespace RelSchema

/-! ## 1. Relations without cycles -/

section Relations

open Relation (TransGen ReflTransGen)

variable {α : Type} {E F : α → α → Prop}

/-- What can be reached in finitely many steps only, whichever way is taken, lies on no cycle. -/
theorem not_transGen_self_of_acc {a : α} (h : Acc (flip E) a) : ¬TransGen E a a := by
  induction h with
  | intro a _ ih =>
    intro hcycle
    obtain ⟨b, hab, hba⟩ := Relation.TransGen.head'_iff.1 hcycle
    exact ih b hab (Relation.TransGen.tail' hba hab)

/-- With finitely many sources, a relation without cycles allows no infinite way. -/
theorem acc_of_acyclic {sources : Set α} (hfinite : sources.Finite)
    (hsources : ∀ a b, E a b → a ∈ sources) (hacyclic : ∀ a, ¬TransGen E a a) (a : α) :
    Acc (flip E) a := by
  have hstrict : IsStrictOrder α (flip (TransGen E)) :=
    { irrefl := hacyclic
      trans := fun a b c hab hbc => Relation.TransGen.trans hbc hab }
  have hfounded : sources.WellFoundedOn (flip (TransGen E)) := hfinite.wellFoundedOn
  have hsource : ∀ b ∈ sources, Acc (flip E) b := by
    intro b hb
    refine hfounded.induction hb fun b hb ih => .intro b fun c hbc => ?_
    -- what is no source has nowhere to go
    by_cases hc : c ∈ sources
    · exact ih c hc (.single hbc)
    · exact .intro c fun d hcd => absurd (hsources c d hcd) hc
  by_cases ha : a ∈ sources
  · exact hsource a ha
  · exact .intro a fun b hab => absurd (hsources a b hab) ha

/-- A way keeps to the edges of one kind, or it takes an edge that is not of the kind. -/
theorem transGen_or_exists_not {a c : α} (h : TransGen E a c) :
    TransGen F a c ∨ ∃ x y, ReflTransGen E a x ∧ E x y ∧ ¬F x y ∧ ReflTransGen E y c := by
  induction h with
  | @single b hab =>
    by_cases hF : F a b
    · exact .inl (.single hF)
    · exact .inr ⟨a, b, .refl, hab, hF, .refl⟩
  | @tail b c hab hbc ih =>
    by_cases hF : F b c
    · rcases ih with hkeeps | ⟨x, y, hax, hxy, hnot, hyb⟩
      · exact .inl (hkeeps.tail hF)
      · exact .inr ⟨x, y, hax, hxy, hnot, hyb.tail hbc⟩
    · exact .inr ⟨b, c, hab.to_reflTransGen, hbc, hF, .refl⟩

end Relations

namespace Registry

open Relation (TransGen)

variable {r s : Registry}

/-! ## 2. Key references as edges -/

/-- A key reference of the one model names the other. -/
def KeyEdge (r : Registry) (a b : String) : Prop :=
  ∃ m ∈ r.models, m.name = a ∧ ∃ f ∈ m.references, f.primaryKey ∧ f.target = b

instance (r : Registry) (a b : String) : Decidable (r.KeyEdge a b) :=
  inferInstanceAs (Decidable
    (∃ m ∈ r.models, m.name = a ∧ ∃ f ∈ m.references, f.primaryKey ∧ f.target = b))

/-- No model's key depends on itself. -/
def KeyAcyclic (r : Registry) : Prop :=
  ∀ name, ¬TransGen r.KeyEdge name name

/-- Only what the models declare counts. -/
theorem KeyEdge.of_map_bare_eq (h : r.models.map Model.bare = s.models.map Model.bare)
    {a b : String} (hab : r.KeyEdge a b) : s.KeyEdge a b := by
  obtain ⟨m, hm, rfl, f, hf, hkey, rfl⟩ := hab
  obtain ⟨n, hn, hbare⟩ := exists_bare_eq_of_map_bare_eq h hm
  obtain ⟨g, hg, hgf⟩ := Model.exists_reference_of_bare_eq hbare.symm hf
  refine ⟨n, hn, Model.name_eq_of_bare_eq hbare, g, hg, ?_,
    Reference.congr_of_bare_eq hgf (·.target)⟩
  rw [Reference.congr_of_bare_eq hgf (·.primaryKey)]
  exact hkey

theorem keyEdge_congr (h : r.models.map Model.bare = s.models.map Model.bare) :
    r.KeyEdge = s.KeyEdge := by
  funext a b
  exact propext ⟨KeyEdge.of_map_bare_eq h, KeyEdge.of_map_bare_eq h.symm⟩

theorem keyAcyclic_congr (h : r.models.map Model.bare = s.models.map Model.bare) :
    r.KeyAcyclic ↔ s.KeyAcyclic := by
  rw [KeyAcyclic, KeyAcyclic, keyEdge_congr h]

/-- There are as many sources of edges as models at most. -/
theorem finite_names (r : Registry) : {name | ∃ m ∈ r.models, m.name = name}.Finite :=
  (List.finite_toSet (r.models.map (·.name))).subset fun _ ⟨_, hm, hname⟩ =>
    List.mem_map.2 ⟨_, hm, hname⟩

/-! ## 3. Grounded keys -/

theorem Grounded.exists_model {name : String} (h : r.Grounded name) :
    ∃ m ∈ r.models, m.name = name ∧ ∀ f ∈ m.references, f.primaryKey → r.Grounded f.target := by
  obtain @⟨m, hm, hkeys⟩ := h
  exact ⟨m, hm, rfl, hkeys⟩

/-- A grounded key lies on no cycle. -/
theorem Grounded.acc (hnames : (r.models.map (·.name)).Nodup) {name : String}
    (h : r.Grounded name) : Acc (flip r.KeyEdge) name := by
  induction h with
  | @intro m hm hkeys ih =>
    refine .intro _ fun b hb => ?_
    obtain ⟨m', hm', hname, f, hf, hkey, rfl⟩ := hb
    obtain rfl := List.inj_on_of_nodup_map hnames hm' hm hname
    exact ih f hf hkey

theorem grounded_of_acc
    (htargets : ∀ m ∈ r.models, ∀ f ∈ m.references, f.primaryKey → r.contains f.target)
    {name : String} (h : Acc (flip r.KeyEdge) name) (hname : r.contains name) :
    r.Grounded name := by
  induction h with
  | intro name _ ih =>
    obtain ⟨m, hm, hmname⟩ := List.any_eq_true.1 hname
    obtain rfl : m.name = name := by simpa using hmname
    exact .intro hm fun f hf hkey =>
      ih f.target ⟨m, hm, rfl, f, hf, hkey, rfl⟩ (htargets m hm f hf hkey)

/-- The key of every model is grounded exactly if key references close no cycle and name registered
models. -/
theorem forall_grounded_iff (hnames : (r.models.map (·.name)).Nodup) :
    (∀ m ∈ r.models, r.Grounded m.name) ↔
      (∀ m ∈ r.models, ∀ f ∈ m.references, f.primaryKey → r.contains f.target) ∧
        r.KeyAcyclic := by
  constructor
  · intro h
    refine ⟨fun m hm f hf hkey => ?_, fun name hcycle => ?_⟩
    · obtain ⟨m', hm', hname, hkeys⟩ := (h m hm).exists_model
      obtain rfl := List.inj_on_of_nodup_map hnames hm' hm hname
      obtain ⟨t, ht, htname, -⟩ := (hkeys f hf hkey).exists_model
      exact List.any_eq_true.2 ⟨t, ht, by simp [htname]⟩
    · -- the cycle starts at a model, since every edge does
      obtain ⟨b, ⟨m, hm, rfl, -⟩, -⟩ := Relation.TransGen.head'_iff.1 hcycle
      exact not_transGen_self_of_acc ((h m hm).acc hnames) hcycle
  · rintro ⟨htargets, hacyclic⟩ m hm
    refine grounded_of_acc htargets (acc_of_acyclic r.finite_names ?_ hacyclic m.name) ?_
    · exact fun a b ⟨m', hm', hname, _⟩ => ⟨m', hm', hname⟩
    · exact List.any_eq_true.2 ⟨m, hm, by simp⟩

end Registry

end RelSchema
