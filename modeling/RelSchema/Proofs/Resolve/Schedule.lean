import RelSchema.Proofs.Resolve.Coherent

/-!
# The order of attempts

When no attempt fails, a run settles the references in an order that depends only on which model
each of them names, on which of them are part of a key, and on the order of registration.  The
schedule is that order, found without looking at columns.
-/

namespace RelSchema

namespace Registry

/-! ## 1. The schedule -/

/-- Whether every key reference of the model at `id` is done. -/
def isKeyDone (done : List ReferenceId) (id : ModelId) (m : Model) : Bool :=
  m.references.zipIdx.all fun (f, j) => !f.primaryKey || done.contains ⟨id, j⟩

/-- Whether the reference can be settled once those in `done` are. -/
def isReady (r : Registry) (done : List ReferenceId) (f : Reference) : Bool :=
  (r.locate? f.target).any fun (id, target) => isKeyDone done id target

/-- Goes through the places in order.  Gives back what is done, with what has become so at the end,
and what has to wait. -/
def schedulePass (r : Registry) :
    (done : List ReferenceId) → List ReferenceId → List ReferenceId × List ReferenceId
  | done, [] => (done, [])
  | done, id :: rest =>
    if (r.reference? id).any (r.isReady done) then schedulePass r (done ++ [id]) rest
    else
      let out := schedulePass r done rest
      (out.1, id :: out.2)

def schedulePasses (r : Registry) :
    (left : Nat) → List ReferenceId × List ReferenceId → List ReferenceId × List ReferenceId
  | 0, state => state
  | left + 1, state => schedulePasses r left (r.schedulePass state.1 state.2)

/-- All unresolved references, in the order in which a run settles them. -/
def schedule (r : Registry) : List ReferenceId :=
  (r.schedulePasses (r.size + 1) ([], r.unresolved)).1

/-- What stands before the place. -/
def before (order : List ReferenceId) (id : ReferenceId) : List ReferenceId :=
  order.takeWhile (· != id)

theorem before_eq_of_mem {order longer : List ReferenceId} (h : order <+: longer)
    {id : ReferenceId} (hid : id ∈ order) : before longer id = before order id := by
  obtain ⟨rest, rfl⟩ := h
  induction order with
  | nil => simp at hid
  | cons first order ih =>
    unfold before at ih ⊢
    rw [List.cons_append]
    by_cases hfirst : first = id
    · rw [List.takeWhile_cons_of_neg (by simp [hfirst]),
        List.takeWhile_cons_of_neg (by simp [hfirst])]
    · have hmem : id ∈ order := (List.mem_cons.1 hid).resolve_left fun heq => hfirst heq.symm
      rw [List.takeWhile_cons_of_pos (by simp [hfirst]),
        List.takeWhile_cons_of_pos (by simp [hfirst]), ih hmem]

/-- What is done when a place is added to it stands before the place. -/
theorem before_append_singleton {order : List ReferenceId} {id : ReferenceId} (h : id ∉ order) :
    before (order ++ [id]) id = order := by
  induction order with
  | nil => simp [before]
  | cons first order ih =>
    rw [List.mem_cons, not_or] at h
    unfold before at ih ⊢
    rw [List.cons_append, List.takeWhile_cons_of_pos (by simpa using fun heq => h.1 heq.symm),
      ih h.2]

variable {r : Registry} {done done' ids : List ReferenceId} {id : ReferenceId}

/-! ## 2. What is ready stays ready -/

theorem isKeyDone_iff {i : ModelId} {m : Model} :
    isKeyDone done i m ↔
      ∀ (j : Nat) f, m.references[j]? = some f → f.primaryKey → ⟨i, j⟩ ∈ done := by
  simp only [isKeyDone, List.all_eq_true, Bool.or_eq_true, Bool.not_eq_true', List.contains_iff_mem,
    Prod.forall, List.mem_zipIdx_iff_getElem?]
  constructor
  · intro h j f hf hkey
    exact (h f j hf).resolve_left (by simp [hkey])
  · intro h f j hf
    cases hkey : f.primaryKey
    · exact .inl rfl
    · exact .inr (h j f hf hkey)

theorem isKeyDone_mono (h : done ⊆ done') {i : ModelId} {m : Model} (hm : isKeyDone done i m) :
    isKeyDone done' i m :=
  isKeyDone_iff.2 fun j f hf hkey => h (isKeyDone_iff.1 hm j f hf hkey)

theorem isReady_iff {f : Reference} :
    r.isReady done f ↔ ∃ i t, r.locate? f.target = some (i, t) ∧ isKeyDone done i t := by
  rw [isReady, Option.any_eq_true]
  simp only [Prod.exists]

theorem isReady_mono (h : done ⊆ done') {f : Reference} (hf : r.isReady done f) :
    r.isReady done' f := by
  obtain ⟨i, t, ht, hdone⟩ := isReady_iff.1 hf
  exact isReady_iff.2 ⟨i, t, ht, isKeyDone_mono h hdone⟩

theorem schedulePass_cons_of_ready {rest : List ReferenceId}
    (h : (r.reference? id).any (r.isReady done)) :
    r.schedulePass done (id :: rest) = r.schedulePass (done ++ [id]) rest := by
  rw [schedulePass, if_pos h]

theorem schedulePass_cons_of_not_ready {rest : List ReferenceId}
    (h : (r.reference? id).any (r.isReady done) = false) :
    r.schedulePass done (id :: rest) =
      ((r.schedulePass done rest).1, id :: (r.schedulePass done rest).2) := by
  rw [schedulePass, if_neg (by simp [h])]

/-- A pass adds to what is done, and only what was pending; the rest waits, in its order. -/
theorem schedulePass_spec (r : Registry) (done ids : List ReferenceId) :
    done <+: (r.schedulePass done ids).1 ∧ (r.schedulePass done ids).2.Sublist ids ∧
      (∀ id ∈ ids, id ∈ (r.schedulePass done ids).1 ∨ id ∈ (r.schedulePass done ids).2) ∧
      ∀ id ∈ (r.schedulePass done ids).1, id ∈ done ∨ id ∈ ids := by
  induction ids generalizing done with
  | nil => exact ⟨List.prefix_rfl, .slnil, by simp, fun id hid => .inl hid⟩
  | cons id rest ih =>
    cases hready : (r.reference? id).any (r.isReady done) with
    | true =>
      rw [schedulePass_cons_of_ready hready]
      obtain ⟨hkeeps, hsublist, hcovers, honly⟩ := ih (done ++ [id])
      refine ⟨(List.prefix_append done [id]).trans hkeeps, hsublist.cons id, ?_, ?_⟩
      · rintro id' (_ | ⟨_, hid'⟩)
        · exact .inl (hkeeps.subset (by simp))
        · exact hcovers id' hid'
      · intro id' hid'
        rcases honly id' hid' with hid' | hid'
        · rcases List.mem_append.1 hid' with hid' | hid'
          · exact .inl hid'
          · exact .inr (List.mem_singleton.1 hid' ▸ List.mem_cons_self)
        · exact .inr (.tail _ hid')
    | false =>
      rw [schedulePass_cons_of_not_ready hready]
      obtain ⟨hkeeps, hsublist, hcovers, honly⟩ := ih done
      refine ⟨hkeeps, hsublist.cons_cons id, ?_, ?_⟩
      · rintro id' (_ | ⟨_, hid'⟩)
        · exact .inr List.mem_cons_self
        · exact (hcovers id' hid').imp_right (.tail _)
      · exact fun id' hid' => (honly id' hid').imp_right (.tail _)

/-- A place that is settled now stays where it is in the order. -/
theorem before_schedulePass (r : Registry) (h : id ∉ done) (rest : List ReferenceId) :
    before (r.schedulePass (done ++ [id]) rest).1 id = done := by
  have hkeeps := (schedulePass_spec r (done ++ [id]) rest).1
  have hmem : id ∈ done ++ [id] := List.mem_append_right _ (List.mem_singleton_self id)
  rw [before_eq_of_mem hkeeps hmem, before_append_singleton h]

theorem length_schedulePass (r : Registry) (done ids : List ReferenceId) :
    (r.schedulePass done ids).1.length + (r.schedulePass done ids).2.length =
      done.length + ids.length := by
  induction ids generalizing done with
  | nil => rfl
  | cons id rest ih =>
    cases hready : (r.reference? id).any (r.isReady done) with
    | true =>
      rw [schedulePass_cons_of_ready hready, ih]
      simp only [List.length_append, List.length_cons, List.length_nil]
      omega
    | false =>
      have hrest := ih done
      rw [schedulePass_cons_of_not_ready hready]
      simp only [List.length_cons]
      omega

/-- What waits after a pass was not ready when it began. -/
theorem not_ready_of_mem_waiting (h : id ∈ (r.schedulePass done ids).2) :
    (r.reference? id).any (r.isReady done) = false := by
  induction ids generalizing done with
  | nil => simp [schedulePass] at h
  | cons first rest ih =>
    cases hready : (r.reference? first).any (r.isReady done) with
    | true =>
      rw [schedulePass_cons_of_ready hready] at h
      -- more is done by now than when the pass began, and still it was not ready
      have hlater := ih h
      cases hf : r.reference? id with
      | none => rfl
      | some f =>
        rw [hf, Option.any_some, ← Bool.not_eq_true] at hlater
        rw [Option.any_some, ← Bool.not_eq_true]
        exact fun hnow => hlater (isReady_mono (List.subset_append_left _ _) hnow)
    | false =>
      rw [schedulePass_cons_of_not_ready hready] at h
      rcases List.mem_cons.1 h with rfl | h
      · exact hready
      · exact ih h

theorem schedulePasses_nil (r : Registry) (left : Nat) (done : List ReferenceId) :
    r.schedulePasses left (done, []) = (done, []) := by
  induction left with
  | zero => rfl
  | succ left ih => exact ih

theorem prefix_schedulePasses (r : Registry) (left : Nat)
    (state : List ReferenceId × List ReferenceId) :
    state.1 <+: (r.schedulePasses left state).1 := by
  induction left generalizing state with
  | zero => exact List.prefix_rfl
  | succ left ih => exact (schedulePass_spec r state.1 state.2).1.trans (ih _)

/-! ## 3. Grounded keys are done in time -/

/-- The number of models whose key references are not all done. -/
def unfinished (r : Registry) (done : List ReferenceId) : Nat :=
  (r.models.zipIdx.filter fun (m, i) => !isKeyDone done i m).length

/-- Among grounded keys that are not done there is one that rests only on keys that are. -/
theorem exists_ready_of_grounded (hnames : (r.models.map (·.name)).Nodup) {name : String}
    (hgrounded : r.Grounded name) {i : ModelId} {m : Model} (hm : r.get? i = some m)
    (hname : m.name = name) (hopen : isKeyDone done i m = false) :
    ∃ j n, r.get? j = some n ∧ isKeyDone done j n = false ∧
      ∀ f ∈ n.references, f.primaryKey → r.isReady done f := by
  induction hgrounded generalizing i m with
  | @intro m' hm' hkeys ih =>
    obtain rfl := List.inj_on_of_nodup_map hnames (mem_of_get? hm) hm' hname
    -- if not all its key references are ready, go down along one that is not
    by_cases hready : ∀ f ∈ m.references, f.primaryKey → r.isReady done f
    · exact ⟨i, m, hm, hopen, hready⟩
    · simp only [not_forall] at hready
      obtain ⟨f, hf, hkey, hnot⟩ := hready
      have htarget := hkeys f hf hkey
      -- the reference waits for a key below this one
      obtain ⟨t, htmem, htname⟩ : ∃ t ∈ r.models, t.name = f.target := by
        generalize hn : f.target = name at htarget
        obtain ⟨ht, -⟩ := htarget
        exact ⟨_, ht, rfl⟩
      obtain ⟨k, hk⟩ := exists_locate?_of_mem hnames htmem
      rw [htname] at hk
      have htopen : isKeyDone done k t = false := by
        rw [← Bool.not_eq_true]
        exact fun hdone => hnot (isReady_iff.2 ⟨k, t, hk, hdone⟩)
      exact ih f hf hkey (locate?_eq_some_iff.1 hk).2 htname htopen

/-- Every place is done or pending. -/
def Covers (r : Registry) (done pending : List ReferenceId) : Prop :=
  ∀ id f, r.reference? id = some f → id ∈ done ∨ id ∈ pending

theorem Covers.schedulePass (h : r.Covers done ids) :
    r.Covers (r.schedulePass done ids).1 (r.schedulePass done ids).2 := by
  obtain ⟨hkeeps, -, hcovers, -⟩ := schedulePass_spec r done ids
  intro id f hf
  rcases h id f hf with hid | hid
  · exact .inl (hkeeps.subset hid)
  · exact hcovers id hid

/-- A pass finishes a key, as long as there is one to finish. -/
theorem unfinished_schedulePass_lt (hnames : (r.models.map (·.name)).Nodup)
    (hgrounded : ∀ m ∈ r.models, r.Grounded m.name) (hcovers : r.Covers done ids)
    (hopen : r.unfinished done ≠ 0) :
    r.unfinished (r.schedulePass done ids).1 < r.unfinished done := by
  obtain ⟨⟨m, i⟩, hmem⟩ := List.exists_mem_of_length_pos (Nat.pos_of_ne_zero hopen)
  rw [List.mem_filter, List.mem_zipIdx_iff_getElem?, Bool.not_eq_true'] at hmem
  obtain ⟨j, n, hn, hnopen, hready⟩ :=
    exists_ready_of_grounded hnames (hgrounded m (mem_of_get? hmem.1)) hmem.1 rfl hmem.2
  -- whatever is ready when the pass begins is done when it ends
  have hdone : isKeyDone (r.schedulePass done ids).1 j n := by
    apply isKeyDone_iff.2
    intro k f hf hkey
    have hat : r.reference? ⟨j, k⟩ = some f := reference?_eq_some_iff.2 ⟨n, hn, hf⟩
    refine (hcovers.schedulePass ⟨j, k⟩ f hat).resolve_right fun hwaits => ?_
    have hnot := not_ready_of_mem_waiting hwaits
    rw [hat, Option.any_some, hready f (List.mem_of_getElem? hf) hkey] at hnot
    cases hnot
  have hsubset := (schedulePass_spec r done ids).1.subset
  -- the unfinished models afterwards are among those before, where this one is one too many
  have hfilter : (r.models.zipIdx.filter fun (m, i) =>
        !isKeyDone (r.schedulePass done ids).1 i m) =
      (r.models.zipIdx.filter fun (m, i) => !isKeyDone done i m).filter fun (m, i) =>
        !isKeyDone (r.schedulePass done ids).1 i m := by
    rw [List.filter_filter]
    apply List.filter_congr
    intro p _
    cases hp : isKeyDone done p.2 p.1 with
    | false => simp [hp]
    | true => simp [isKeyDone_mono hsubset hp]
  rw [unfinished, hfilter, unfinished, List.length_filter_lt_length_iff_exists]
  refine ⟨(n, j), List.mem_filter.2 ⟨List.mem_zipIdx_iff_getElem?.2 hn, ?_⟩, ?_⟩
  · simp [hnopen]
  · simp [hdone]

/-- Once all keys are done, nothing has to wait any more. -/
theorem waiting_eq_nil_of_unfinished_eq_zero (hnames : (r.models.map (·.name)).Nodup)
    (htargets : ∀ m ∈ r.models, ∀ f ∈ m.references, ∃ t ∈ r.models, t.name = f.target)
    (hids : ∀ id ∈ ids, ∃ f, r.reference? id = some f) (h : r.unfinished done = 0) :
    (r.schedulePass done ids).2 = [] := by
  apply List.eq_nil_iff_forall_not_mem.2
  intro id hid
  have hnot := not_ready_of_mem_waiting hid
  obtain ⟨f, hf⟩ := hids id ((schedulePass_spec r done ids).2.1.subset hid)
  obtain ⟨m, hm, hfm⟩ := reference?_eq_some_iff.1 hf
  obtain ⟨t, ht, htname⟩ := htargets m (mem_of_get? hm) f (List.mem_of_getElem? hfm)
  obtain ⟨k, hk⟩ := exists_locate?_of_mem hnames ht
  have hdone : isKeyDone done k t := by
    have hall := List.filter_eq_nil_iff.1 (List.eq_nil_of_length_eq_zero h) (t, k)
      (List.mem_zipIdx_iff_getElem?.2 (locate?_eq_some_iff.1 hk).2)
    simpa using hall
  rw [hf, Option.any_some, isReady_iff.2 ⟨k, t, htname ▸ hk, hdone⟩] at hnot
  cases hnot

/-- After a pass nothing waits, or a key was finished and less waits than before. -/
theorem schedulePass_progress (hnames : (r.models.map (·.name)).Nodup)
    (hgrounded : ∀ m ∈ r.models, r.Grounded m.name)
    (htargets : ∀ m ∈ r.models, ∀ f ∈ m.references, ∃ t ∈ r.models, t.name = f.target)
    (hids : ∀ id ∈ ids, ∃ f, r.reference? id = some f) (hcovers : r.Covers done ids) :
    (r.schedulePass done ids).2 = [] ∨
      r.unfinished (r.schedulePass done ids).1 < r.unfinished done ∧
        (r.schedulePass done ids).2.length < ids.length := by
  by_cases hzero : r.unfinished done = 0
  · exact .inl (waiting_eq_nil_of_unfinished_eq_zero hnames htargets hids hzero)
  · have hlt := unfinished_schedulePass_lt hnames hgrounded hcovers hzero
    obtain ⟨hkeeps, hsublist, -⟩ := schedulePass_spec r done ids
    refine .inr ⟨hlt, Nat.lt_of_le_of_ne hsublist.length_le fun heq => ?_⟩
    -- a pass that leaves everything waiting adds nothing to what is done
    have hlength := length_schedulePass r done ids
    have hsame : done = (r.schedulePass done ids).1 := hkeeps.eq_of_length (by omega)
    rw [← hsame] at hlt
    exact Nat.lt_irrefl _ hlt

end Registry

end RelSchema
