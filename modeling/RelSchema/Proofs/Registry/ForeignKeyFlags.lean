import RelSchema.Proofs.Registry.ColumnLayout

/-!
# Foreign key flags

The flag of a column says that the column is at present the source of a reference.  It is not
declared alone: resolved references flag the columns that they start at, several of them may start
at one column, and a flag that a reference has set goes when the resolution goes.
-/

namespace RelSchema

theorem Reference.usesSource_iff {f : Reference} {name : String} :
    f.usesSource name ↔ f.isResolved ∧ ∃ p ∈ f.pairs, p.source = name := by
  simp [usesSource]

namespace Model

variable {m : Model} {calls : List Declaration} {c : Column}

/-! ## 1. One model -/

theorem isForeignKey_iff :
    m.isForeignKey c ↔ c.declaredForeignKey ∨ c.isSynthesized ∨
      ∃ f ∈ m.references, f.usesSource c.name := by
  simp [isForeignKey, or_assoc]

/-- After a resolution is recorded or cleared, a column is flagged by the new resolution, by another
reference, or for good. -/
theorem foreignKey_setResolution_iff (hfields : (m.references.map (·.field)).Nodup) {index : Nat}
    {f : Reference} (hf : m.references[index]? = some f) {resolution : Option Resolution}
    (hc : c ∈ (m.setResolution index resolution).columns) :
    c.foreignKey ↔ c.declaredForeignKey ∨ c.isSynthesized ∨
      (∃ r, resolution = some r ∧ ∃ p ∈ r.pairs, p.source = c.name) ∨
      ∃ g ∈ m.references, g.field ≠ f.field ∧ g.usesSource c.name := by
  obtain ⟨c, hc, rfl⟩ := List.mem_map.1 hc
  show Model.isForeignKey _ c ↔ _
  rw [isForeignKey_iff, Reference.modify_eq_map hfields hf]
  refine or_congr_right (or_congr_right ?_)
  simp only [List.mem_map, exists_exists_and_eq_and]
  constructor
  · rintro ⟨g, hg, huses⟩
    unfold Reference.resolveAt at huses
    by_cases hfield : g.field = f.field
    · rw [if_pos hfield, Reference.usesSource_iff] at huses
      obtain ⟨hres, p, hp, hsource⟩ := huses
      obtain ⟨r, hr⟩ := Reference.isResolved_iff.1 hres
      refine .inl ⟨r, hr, p, ?_, hsource⟩
      simpa [Reference.pairs, show resolution = some r from hr] using hp
    · rw [if_neg hfield] at huses
      exact .inr ⟨g, hg, hfield, huses⟩
  · rintro (⟨r, rfl, p, hp, hsource⟩ | ⟨g, hg, hfield, huses⟩)
    · refine ⟨f, List.mem_of_getElem? hf, ?_⟩
      rw [Reference.resolveAt_self, Reference.usesSource_iff]
      exact ⟨rfl, p, hp, hsource⟩
    · refine ⟨g, hg, ?_⟩
      rwa [Reference.resolveAt_of_ne hfield]

/-- The flag that stays with a column is the one that it was declared with. -/
theorem Laid.declaredForeignKey_iff (h : m.Laid) (hcalls : m.bare.DeclaredBy calls)
    (hc : c ∈ m.declaredColumns) :
    c.declaredForeignKey ↔ ∃ d, .column d ∈ calls ∧ d.name = c.name ∧ d.foreignKey := by
  rw [← hcalls.map_handedIn_of_bare]
  constructor
  · intro hflag
    have hat : Declaration.column c ∈ m.declarations := column_mem_declarations.2 hc
    exact ⟨c.handedIn, List.mem_map_of_mem hat, rfl, hflag⟩
  · rintro ⟨d, hd, hname, hflag⟩
    obtain ⟨c' | r, hat, heq⟩ := List.mem_map.1 hd
    · obtain rfl := Declaration.column.inj heq
      have hc' := List.mem_of_mem_filter (column_mem_declarations.1 hat)
      -- no two columns have one name
      rw [← h.column_inj hc' (List.mem_of_mem_filter hc) hname]
      exact hflag
    · cases heq

theorem Laid.foreignKey_iff (h : m.Laid) (hcalls : m.bare.DeclaredBy calls) (hc : c ∈ m.columns) :
    c.foreignKey ↔ (∃ d, .column d ∈ calls ∧ d.name = c.name ∧ d.foreignKey) ∨ c.isSynthesized ∨
      ∃ f ∈ m.references, f.isResolved ∧ ∃ p ∈ f.pairs, p.source = c.name := by
  rw [h.foreignKey_eq c hc, isForeignKey_iff]
  simp only [Reference.usesSource_iff]
  cases hsynthesized : c.isSynthesized with
  | true => simp
  | false =>
    have hdeclared : c ∈ m.declaredColumns := List.mem_filter.2 ⟨hc, by simp [hsynthesized]⟩
    rw [h.declaredForeignKey_iff hcalls hdeclared]

end Model

namespace Registry

variable {m : Model} {operations : List Operation}

/-! ## 2. Histories -/

/-- In every state of a registry a column is flagged when it was declared so, when it is
synthesized, or when a reference of its model that is resolved at present starts at it, and never
otherwise. -/
theorem foreignKey_iff_of_mem_after (hfresh : ∀ o ∈ operations, o.Fresh)
    (hm : m ∈ (after operations).models) :
    ∃ declared, standing? operations m.name = some declared ∧
      (∃ calls, declared.DeclaredBy calls) ∧
      ∀ calls, declared.DeclaredBy calls → ∀ c ∈ m.columns,
        (c.foreignKey ↔ (∃ d, .column d ∈ calls ∧ d.name = c.name ∧ d.foreignKey) ∨
          c.isSynthesized ∨
          ∃ f ∈ m.references, f.isResolved ∧ ∃ p ∈ f.pairs, p.source = c.name) := by
  have hr := sound_after hfresh
  have hstands : standing? operations m.name = some m.bare := by
    rw [← declared?_after_eq_standing? hfresh, hr.declared?_eq_some_iff]
    exact ⟨m, hm, rfl, rfl⟩
  exact ⟨m.bare, hstands, (fresh_of_standing? hfresh hstands).exists_calls,
    fun _ hcalls _ hc => (hr.laid m hm).foreignKey_iff hcalls hc⟩

/-- Two references start at the origin of a shipment, and the carrier is flagged without one. -/
def shipmentFields : List Declaration :=
  [.column { name := "number", type := .integer, primaryKey := true },
    .column { name := "origin", type := .text, nullable := true },
    .column { name := "carrier", type := .text, foreignKey := true },
    .reference { field := "from", target := "Port", declaredPairs := [⟨"origin", "code"⟩] },
    .reference { field := "customs", target := "Port", declaredPairs := [⟨"origin", "code"⟩] },
    .reference { field := "agent", target := "Port" }]

def shipment : Model :=
  Model.ofFields "Shipment" shipmentFields

/-- Ports are numbered, which the second run refuses, and lettered again. -/
def portsLettered : List Operation :=
  [.register shipment,
    .register (Model.ofFields "Port"
      [.column { name := "code", type := .text, primaryKey := true }]), .resolve "_",
    .replace (Model.ofFields "Port"
      [.column { name := "code", type := .integer, primaryKey := true }]), .resolve "_",
    .replace (Model.ofFields "Port"
      [.column { name := "code", type := .text, primaryKey := true, nullable := true }]),
    .resolve "."]

theorem fresh_portsLettered : ∀ o ∈ portsLettered, o.Fresh := by
  simp only [portsLettered, List.forall_mem_cons, List.not_mem_nil, false_imp_iff, implies_true,
    and_true]
  exact ⟨Model.fresh_ofFields _ _ (by decide), Model.fresh_ofFields _ _ (by decide), trivial,
    Model.fresh_ofFields _ _ (by decide), trivial, Model.fresh_ofFields _ _ (by decide), trivial⟩

theorem declaredBy_shipment : shipment.DeclaredBy shipmentFields :=
  Model.declaredBy_ofFields (by decide) (by decide)

theorem foreignKey_iff_shipment :
    ∃ m ∈ (after portsLettered).models,
      m.columns.map (fun c => (c.name, c.foreignKey)) =
        [("number", false), ("origin", true), ("carrier", true), ("agent.code", true)] ∧
      ∀ c ∈ m.columns,
        (c.foreignKey ↔ (∃ d, .column d ∈ shipmentFields ∧ d.name = c.name ∧ d.foreignKey) ∨
          c.isSynthesized ∨
          ∃ f ∈ m.references, f.isResolved ∧ ∃ p ∈ f.pairs, p.source = c.name) := by
  have hget : ∃ m, (after portsLettered).get? 0 = some m ∧ m.name = "Shipment" ∧
      m.columns.map (fun c => (c.name, c.foreignKey)) =
        [("number", false), ("origin", true), ("carrier", true), ("agent.code", true)] :=
    ⟨_, rfl, rfl, rfl⟩
  obtain ⟨m, hm, hname, hflags⟩ := hget
  have hmem := mem_of_get? hm
  obtain ⟨declared, hstands, -, hiff⟩ := foreignKey_iff_of_mem_after fresh_portsLettered hmem
  rw [hname] at hstands
  obtain rfl : shipment = declared := Option.some.inj hstands
  exact ⟨m, hmem, hflags, hiff _ declaredBy_shipment⟩

end Registry

end RelSchema
