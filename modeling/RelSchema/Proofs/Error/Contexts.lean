import RelSchema.Proofs.Association
import RelSchema.Proofs.Error.Holders

/-!
# Contexts of shared errors

Errors are created, shared, let go of and given contexts, in any order and any number of places, and
the root of an error is shared without the contexts that stand in front of it.  A context is refused
exactly when the error to be put in front has a cause already, or stands on the chain of a further
place; otherwise it goes in front of the whole chain, and the other places do not notice.
-/

namespace RelSchema

open Association ErrorCell

theorem ErrorChain.holds_iff {c : ErrorChain} {label : Nat} :
    c.holds label ↔ label ∈ c.objects.map (·.label) := by
  simp [holds]

namespace ErrorPool

variable {p q next : ErrorPool} {name source consequent place : String} {label : Nat}
  {taken labels : List Nat} {c front : ErrorChain}

/-! ## 1. Places -/

theorem mem_map_of_lookup {held : List (String × Nat)} (h : held.lookup name = some label) :
    label ∈ held.map (·.2) :=
  List.mem_map_of_mem (mem_of_lookup h)

/-- The places have different names, and the counts are right for what the places hold and for what
has been taken out of a place. -/
structure Sound (p : ErrorPool) (taken : List Nat) : Prop where
  nodup_names : (p.held.map (·.1)).Nodup
  counted : Counted p.cells (taken ++ p.held.map (·.2))

namespace Sound

theorem exists_follows (h : p.Sound taken) (hlookup : p.held.lookup name = some label) :
    ∃ objects, Follows p.cells label objects :=
  h.counted.readable label
    (h.counted.stored label (List.mem_append_right _ (mem_map_of_lookup hlookup)))

theorem get?_eq_some_iff (h : p.Sound taken) :
    p.get? name = some c ↔
      ∃ label, p.held.lookup name = some label ∧ Follows p.cells label c.objects := by
  cases hlookup : p.held.lookup name with
  | none => simp [get?, hlookup]
  | some label =>
    obtain ⟨objects, hobjects⟩ := h.exists_follows hlookup
    obtain ⟨cell, causes, -, rfl⟩ := hobjects.exists_head
    have hread := hobjects.objectsFrom_eq hobjects.length_le
    have hget : p.get? name = some ⟨⟨label, cell.error⟩, causes⟩ := by
      simp [get?, hlookup, hread]
    rw [hget]
    constructor
    · rintro ⟨⟩
      exact ⟨label, rfl, hobjects⟩
    · rintro ⟨_, ⟨⟩, hc⟩
      obtain ⟨hhead, hcauses⟩ := List.cons.inj (hobjects.unique hc)
      rw [hhead, hcauses]

theorem exists_get?_of_lookup (h : p.Sound taken) (hlookup : p.held.lookup name = some label) :
    ∃ c, p.get? name = some c ∧ Follows p.cells label c.objects := by
  obtain ⟨objects, hobjects⟩ := h.exists_follows hlookup
  obtain ⟨cell, causes, -, rfl⟩ := hobjects.exists_head
  exact ⟨⟨_, causes⟩, h.get?_eq_some_iff.2 ⟨label, hlookup, hobjects⟩, hobjects⟩

/-- A place reads the same when it holds the same object and the chain of the object is kept. -/
theorem get?_congr (h : p.Sound taken) {others : List Nat} (hq : q.Sound others)
    (hlookup : q.held.lookup place = p.held.lookup place)
    (hkept : ∀ label, p.held.lookup place = some label → label ∈ labels)
    (hkeeps : Keeps p.cells q.cells labels) : q.get? place = p.get? place := by
  cases hplace : p.held.lookup place with
  | none => simp [get?, hlookup, hplace]
  | some label =>
    obtain ⟨c, hp, hc⟩ := h.exists_get?_of_lookup hplace
    rw [hp]
    exact hq.get?_eq_some_iff.2
      ⟨label, hlookup.trans hplace, hkeeps label (hkept label hplace) _ hc⟩

end Sound

/-! ## 2. Emptying and filling places -/

theorem held_release (p : ErrorPool) (name : String) :
    (p.release name).held = p.heldBeside name := by
  unfold release
  split
  · rename_i hlookup
    refine (List.filter_eq_self.2 fun x hx => ?_).symm
    rw [bne_comm]
    exact List.lookup_eq_none_iff.1 hlookup x hx
  · rfl

theorem lookup_release_self (p : ErrorPool) (name : String) :
    (p.release name).held.lookup name = none := by
  rw [held_release]
  exact lookup_filter_bne_self _ _

theorem get?_release_self (p : ErrorPool) (name : String) : (p.release name).get? name = none := by
  simp [get?, lookup_release_self]

theorem get?_hold_of_ne (hne : place ≠ name) : (p.hold name label).get? place = p.get? place := by
  have hbeq : (place == name) = false := beq_eq_false_iff_ne.2 hne
  simp only [get?, hold, List.lookup_cons, hbeq]

namespace Sound

theorem release (h : p.Sound taken) (name : String) :
    (p.release name).Sound taken ∧
      Keeps p.cells (p.release name).cells (taken ++ (p.heldBeside name).map (·.2)) := by
  cases hlookup : p.held.lookup name with
  | none =>
    have hsame : p.release name = p := by simp only [ErrorPool.release, hlookup]
    rw [hsame]
    exact ⟨h, fun _ _ _ hobjects => hobjects⟩
  | some label =>
    have hperm := perm_cons_filter_bne h.nodup_names hlookup
    have hcounted := h.counted.perm (((hperm.map (·.2)).append_left taken).trans List.perm_middle)
    obtain ⟨objects, hobjects⟩ := h.exists_follows hlookup
    obtain ⟨hletGo, hkeeps⟩ := hcounted.letGo hobjects hobjects.length_le
    simp only [ErrorPool.release, hlookup]
    exact ⟨⟨h.nodup_names.sublist (List.filter_sublist.map _), hletGo⟩, hkeeps⟩

theorem get?_release_of_ne (h : p.Sound taken) (hne : place ≠ name) :
    (p.release name).get? place = p.get? place := by
  obtain ⟨hrelease, hkeeps⟩ := h.release name
  have hlookup : (p.heldBeside name).lookup place = p.held.lookup place :=
    lookup_filter_bne_of_ne hne
  refine h.get?_congr hrelease ((held_release p name).symm ▸ hlookup) (fun label hlabel => ?_)
    hkeeps
  exact List.mem_append_right _ (mem_map_of_lookup (hlookup.trans hlabel))

theorem hold (h : p.Sound (label :: taken)) (hname : p.held.lookup name = none) :
    (p.hold name label).Sound taken := by
  refine ⟨List.nodup_cons.2 ⟨fun hmem => ?_, h.nodup_names⟩,
    h.counted.perm List.perm_middle.symm⟩
  obtain ⟨x, hx, rfl⟩ := List.mem_map.1 hmem
  simpa using List.lookup_eq_none_iff.1 hname x hx

theorem create (h : p.Sound []) (name : String) (e : Error) :
    (p.create name e).Sound [] ∧
      ∀ place ≠ name, (p.create name e).get? place = p.get? place := by
  obtain ⟨hreleased, -⟩ := h.release name
  have hadded : ErrorPool.Sound ⟨(p.release name).cells ++ [{ error := e }], (p.release name).held⟩
      [(p.release name).cells.length] := ⟨hreleased.nodup_names, hreleased.counted.append e⟩
  refine ⟨hadded.hold (lookup_release_self p name), fun place hne => ?_⟩
  rw [ErrorPool.create, get?_hold_of_ne hne, ← h.get?_release_of_ne hne]
  exact hreleased.get?_congr hadded rfl (fun _ hlabel => mem_map_of_lookup hlabel)
    (keeps_append _ _ _)

/-- The object at the label is held in one place more. -/
theorem shareObject (h : p.Sound []) (name : String) (hc : Follows p.cells label c.objects) :
    (p.shareObject name label).Sound [] ∧ (p.shareObject name label).get? name = some c ∧
      ∀ place ≠ name, (p.shareObject name label).get? place = p.get? place := by
  obtain ⟨cell, -, hcell, -⟩ := hc.exists_head
  -- the object counts one holder more, which is the place that is still to be filled
  have hset : p.cells.modify label (fun cell => { cell with holders := cell.holders + 1 }) =
      p.cells.set label { cell with holders := cell.holders + 1 } := by
    rw [List.modify_eq_set_getElem?, hcell]
    rfl
  rw [ErrorPool.shareObject, hset]
  have hcounted : ErrorPool.Sound
      { p with cells := p.cells.set label { cell with holders := cell.holders + 1 } } [label] :=
    ⟨h.nodup_names, h.counted.cons hcell⟩
  have hkeeps : ∀ labels, Keeps p.cells
      (p.cells.set label { cell with holders := cell.holders + 1 }) labels :=
    fun _ _ _ _ hothers => hothers.set_holders hcell _
  obtain ⟨hreleased, hkept⟩ := hcounted.release name
  have hheld := hreleased.hold (lookup_release_self _ name)
  refine ⟨hheld, ?_, fun place hne => ?_⟩
  · exact hheld.get?_eq_some_iff.2 ⟨label, List.lookup_cons_self,
      hkept label List.mem_cons_self _ (hkeeps [label] label List.mem_cons_self _ hc)⟩
  · rw [get?_hold_of_ne hne, hcounted.get?_release_of_ne hne]
    exact h.get?_congr hcounted rfl (fun _ hlabel => mem_map_of_lookup hlabel) (hkeeps _)

theorem share (h : p.Sound []) (hshare : p.share name source = some q) :
    q.Sound [] ∧ q.get? name = p.get? source ∧ ∀ place ≠ name, q.get? place = p.get? place := by
  obtain ⟨label, hlabel, hq⟩ := Option.bind_eq_some_iff.1 hshare
  obtain rfl := Option.some.inj hq
  obtain ⟨c, hsource, hc⟩ := h.exists_get?_of_lookup hlabel
  rw [hsource]
  exact h.shareObject name hc

/-- The root is held without the contexts that stand in front of it. -/
theorem shareRoot (h : p.Sound []) (hshare : p.shareRoot name source = some q) :
    q.Sound [] ∧ q.get? name = (p.get? source).map (fun c => ⟨c.root, []⟩) ∧
      ∀ place ≠ name, q.get? place = p.get? place := by
  obtain ⟨c, hsource, hq⟩ := Option.bind_eq_some_iff.1 hshare
  obtain rfl := Option.some.inj hq
  obtain ⟨label, -, hc⟩ := h.get?_eq_some_iff.1 hsource
  have hroot : Follows p.cells c.root.label (ErrorChain.mk c.root []).objects :=
    hc.of_getLast? c.getLast?_objects
  rw [hsource]
  exact h.shareObject name hroot

end Sound

/-! ## 3. Contexts -/

/-- A place other than the given one holds the object, as its error or as a cause of it. -/
def HeldBeside (p : ErrorPool) (place : String) (label : Nat) : Prop :=
  ∃ other ≠ place, ∃ d, p.get? other = some d ∧ d.holds label

/-- What comes of taking the error `c` out of the place `name` and putting the error `front` of the
place `consequent` in front of it. -/
structure ContextTaken (p : ErrorPool) (name consequent : String) (c front : ErrorChain)
    (result : Except Fault ErrorChain) (next : ErrorPool) : Prop where
  hasCause_iff : result = .error .consequentHasCause ↔ front.causes ≠ []
  shared_iff : result = .error .consequentShared ↔
    front.causes = [] ∧ p.HeldBeside consequent front.head.label
  ok_iff : (∃ chained, result = .ok chained) ↔
    front.causes = [] ∧ ¬ p.HeldBeside consequent front.head.label
  chained : ∀ chained, result = .ok chained → chained.objects = front.objects ++ c.objects ∧
    chained.message = front.message ++ ": " ++ c.message ∧ chained.root = c.root ∧
    chained.kind = front.kind
  get?_name : next.get? name = result.toOption
  get?_consequent : next.get? consequent = none
  get?_other : ∀ other, other ≠ name → other ≠ consequent → next.get? other = p.get? other

namespace Sound

theorem holders_eq_one_iff {cell : ErrorCell} (h : p.Sound [])
    (hlookup : p.held.lookup place = some label) (hcell : p.cells[label]? = some cell) :
    cell.holders = 1 ↔ ¬ p.HeldBeside place label := by
  have hperm := perm_cons_filter_bne h.nodup_names hlookup
  have hcounted : Counted p.cells (label :: (p.heldBeside place).map (·.2)) :=
    h.counted.perm (hperm.map Prod.snd)
  rw [hcounted.holders_eq_one_iff hcell]
  constructor
  · rintro hnone ⟨other, hne, d, hd, hholds⟩
    obtain ⟨inner, hinner, hobjects⟩ := h.get?_eq_some_iff.1 hd
    have hbeside := (lookup_filter_bne_of_ne hne).trans hinner
    exact hnone inner (mem_map_of_lookup hbeside) _ hobjects (ErrorChain.holds_iff.1 hholds)
  · intro hnone inner hinner objects hobjects hmem
    obtain ⟨⟨other, _⟩, hother, rfl⟩ := List.mem_map.1 hinner
    obtain ⟨hother, hne⟩ := List.mem_filter.1 hother
    obtain ⟨cell, causes, -, rfl⟩ := hobjects.exists_head
    exact hnone ⟨other, bne_iff_ne.1 hne, ⟨_, causes⟩, h.get?_eq_some_iff.2
      ⟨_, (lookup_eq_some_iff h.nodup_names).2 hother, hobjects⟩, ErrorChain.holds_iff.2 hmem⟩

/-- The parts of a successful context. -/
theorem context_of_wrap {cell : ErrorCell} {behind : Nat} (h : p.Sound [])
    (hname : p.held.lookup name = some label) (hconsequent : p.held.lookup consequent = some behind)
    (hne : consequent ≠ name) (hc : Follows p.cells label c.objects)
    (hcell : p.cells[behind]? = some cell) (hcause : cell.cause = none) (hone : cell.holders = 1) :
    ∃ next, p.context name consequent = some (.ok ⟨⟨behind, cell.error⟩, c.objects⟩, next) ∧
      next.Sound [] ∧ next.get? name = some ⟨⟨behind, cell.error⟩, c.objects⟩ ∧
      next.get? consequent = none ∧
      ∀ other, other ≠ name → other ≠ consequent → next.get? other = p.get? other := by
  have hbeside : (p.heldBeside name).lookup consequent = some behind :=
    (lookup_filter_bne_of_ne hne).trans hconsequent
  have hperm : p.held.Perm ((name, label) :: (consequent, behind) ::
      (p.heldBeside name).filter (·.1 != consequent)) := by
    refine (perm_cons_filter_bne h.nodup_names hname).trans (.cons _ ?_)
    exact perm_cons_filter_bne (h.nodup_names.sublist (List.filter_sublist.map _)) hbeside
  have hcounted : Counted p.cells (label :: behind ::
      ((p.heldBeside name).filter (·.1 != consequent)).map (·.2)) :=
    h.counted.perm (hperm.map Prod.snd)
  obtain ⟨hwrapped, hfollows, hkeeps⟩ := hcounted.wrap hcell hcause hone hc
  have hnodup := (hperm.map (·.1)).nodup h.nodup_names
  let next : ErrorPool := ⟨p.cells.set behind { cell with cause := some label },
    (name, behind) :: (p.heldBeside name).filter (·.1 != consequent)⟩
  have hnext : next.Sound [] :=
    ⟨hnodup.sublist (.cons_cons _ (List.sublist_cons_self _ _)), hwrapped⟩
  have hchained : next.get? name = some ⟨⟨behind, cell.error⟩, c.objects⟩ :=
    hnext.get?_eq_some_iff.2 ⟨behind, List.lookup_cons_self, hfollows⟩
  have hlookup : ∀ other ≠ name, next.held.lookup other =
      ((p.heldBeside name).filter (·.1 != consequent)).lookup other := by
    intro other hother
    rw [List.lookup_cons, beq_eq_false_iff_ne.2 hother]
  refine ⟨next, ?_, hnext, hchained, ?_, fun other hother hother' => ?_⟩
  · have hwrap : cell.wrap label = .ok { cell with cause := some label } := by
      simp [wrap, hcause, hone]
    simp only [context, hname, hbeside, hcell, hwrap, Option.bind_eq_bind, Option.bind_some]
    exact Option.bind_eq_some_iff.2 ⟨_, hchained, rfl⟩
  · rw [get?, hlookup consequent hne, lookup_filter_bne_self]
    rfl
  · have hsame : ((p.heldBeside name).filter (·.1 != consequent)).lookup other =
        p.held.lookup other :=
      (lookup_filter_bne_of_ne hother').trans (lookup_filter_bne_of_ne hother)
    refine h.get?_congr hnext ((hlookup other hother).trans hsame) (fun inner hinner => ?_) hkeeps
    exact mem_map_of_lookup (hsame.trans hinner)

/-- An error that cannot be given a context is lost with the context. -/
theorem context_of_wrap_eq_error {cell : ErrorCell} {behind : Nat} {f : Fault}
    (hname : p.held.lookup name = some label) (hconsequent : p.held.lookup consequent = some behind)
    (hne : consequent ≠ name) (hcell : p.cells[behind]? = some cell)
    (hwrap : cell.wrap label = .error f) :
    p.context name consequent = some (.error f, (p.release name).release consequent) := by
  have hbeside : (p.heldBeside name).lookup consequent = some behind :=
    (lookup_filter_bne_of_ne hne).trans hconsequent
  simp only [context, hname, hbeside, hcell, hwrap, Option.bind_eq_bind, Option.bind_some,
    Option.pure_def]

/-- Taking an error and giving it a context. -/
theorem context (h : p.Sound []) (hname : p.get? name = some c)
    (hconsequent : p.get? consequent = some front) (hne : consequent ≠ name) :
    ∃ result next, p.context name consequent = some (result, next) ∧ next.Sound [] ∧
      p.ContextTaken name consequent c front result next := by
  obtain ⟨label, hlabel, hc⟩ := h.get?_eq_some_iff.1 hname
  obtain ⟨behind, hbehind, hfront⟩ := h.get?_eq_some_iff.1 hconsequent
  obtain ⟨head, causes⟩ := front
  obtain ⟨cell, _, hcell, hobjects⟩ := hfront.exists_head
  obtain ⟨rfl, rfl⟩ := List.cons.inj hobjects
  have hshared := h.holders_eq_one_iff hbehind hcell
  have hcause := hfront.causes_eq_nil_iff hcell
  -- a refused context leaves both places empty
  have hrefused : ∀ f, cell.wrap label = .error f → ∃ next,
      p.context name consequent = some (.error f, next) ∧ next.Sound [] ∧
        next.get? name = none ∧ next.get? consequent = none ∧
        ∀ other, other ≠ name → other ≠ consequent → next.get? other = p.get? other := by
    intro f hwrap
    obtain ⟨hfirst, -⟩ := h.release name
    refine ⟨_, context_of_wrap_eq_error hlabel hbehind hne hcell hwrap,
      (hfirst.release consequent).1, ?_, get?_release_self _ _, fun other hother hother' => ?_⟩
    · rw [hfirst.get?_release_of_ne (Ne.symm hne), get?_release_self]
    · rw [hfirst.get?_release_of_ne hother', h.get?_release_of_ne hother]
  by_cases hnone : cell.cause = none
  · obtain rfl := hcause.2 hnone
    by_cases hone : cell.holders = 1
    · obtain ⟨next, hcontext, hnext, hget, hempty, hothers⟩ :=
        h.context_of_wrap hlabel hbehind hne hc hcell hnone hone
      have hbeside := hshared.1 hone
      refine ⟨_, next, hcontext, hnext, by simp, by simp [hbeside], by simp [hbeside], ?_, hget,
        hempty, hothers⟩
      rintro chained ⟨⟩
      exact ⟨rfl, by rw [ErrorChain.message_mk_objects]; rfl, ErrorChain.root_mk_objects _ _, rfl⟩
    · have hbeside : p.HeldBeside consequent behind := by
        by_contra hbeside
        exact hone (hshared.2 hbeside)
      obtain ⟨next, hcontext, hnext, hget, hempty, hothers⟩ :=
        hrefused .consequentShared (by simp [wrap, hnone, hone])
      exact ⟨_, next, hcontext, hnext, by simp, by simp [hbeside], by simp [hbeside], by simp, hget,
        hempty, hothers⟩
  · have hcauses := mt hcause.1 hnone
    obtain ⟨next, hcontext, hnext, hget, hempty, hothers⟩ :=
      hrefused .consequentHasCause (by simp [wrap, Option.isSome_iff_ne_none, hnone])
    exact ⟨_, next, hcontext, hnext, by simp [hcauses], by simp [hcauses], by simp [hcauses],
      by simp, hget, hempty, hothers⟩

/-- The root of an error that is still held cannot be put in front of any error. -/
theorem context_of_shareRoot (h : p.Sound []) (hshare : p.shareRoot consequent source = some q)
    (hsource : source ≠ consequent) (hname : q.get? name = some c) (hne : consequent ≠ name) :
    ∃ next, q.context name consequent = some (.error .consequentShared, next) := by
  obtain ⟨hsound, hget, hothers⟩ := h.shareRoot hshare
  obtain ⟨d, hd, -⟩ := Option.bind_eq_some_iff.1 hshare
  rw [hd, Option.map_some] at hget
  obtain ⟨result, next, hcontext, -, hthen⟩ := hsound.context hname hget hne
  have hpass : d.holds d.root.label := ErrorChain.holds_iff.2
    (List.mem_map_of_mem (List.mem_of_getLast? d.getLast?_objects))
  have hbeside : q.HeldBeside consequent d.root.label :=
    ⟨source, hsource, d, (hothers source hsource).trans hd, hpass⟩
  obtain rfl := hthen.shared_iff.2 ⟨rfl, hbeside⟩
  exact ⟨next, hcontext⟩

end Sound

end ErrorPool

/-! ## 4. Calls -/

/-- A use of live errors. -/
inductive ErrorCall where
  | create (name : String) (e : Error)
  | share (name source : String)
  | shareRoot (name source : String)
  | release (name : String)
  | context (name consequent : String)

/-- The places that a call empties or fills. -/
def ErrorCall.touched : ErrorCall → List String
  | .create name _ => [name]
  | .share name _ => [name]
  | .shareRoot name _ => [name]
  | .release name => [name]
  | .context name consequent => [name, consequent]

namespace ErrorPool

/-- The live errors after a call; a call on an empty place does nothing. -/
def perform (p : ErrorPool) : ErrorCall → ErrorPool
  | .create name e => p.create name e
  | .share name source => (p.share name source).getD p
  | .shareRoot name source => (p.shareRoot name source).getD p
  | .release name => p.release name
  | .context name consequent =>
      match p.context name consequent with
      | none => p
      | some (_, next) => next

/-- The live errors after calls that start with none. -/
def after (calls : List ErrorCall) : ErrorPool :=
  calls.foldl perform {}

variable {p q next : ErrorPool} {name consequent place : String} {c front : ErrorChain}
  {texts : List String}

theorem Sound.empty : ErrorPool.Sound {} [] where
  nodup_names := List.nodup_nil
  counted :=
    { readable := fun _ hlabel => absurd hlabel (Nat.not_lt_zero _)
      stored := fun _ hlabel => absurd hlabel List.not_mem_nil
      holders_eq := fun _ _ hcell => by cases hcell
      freed := fun _ hcell => absurd hcell List.not_mem_nil }

/-- A context is taken of an error in one place by an error in another place. -/
theorem Sound.exists_get?_of_context (h : p.Sound []) {result : Except Fault ErrorChain}
    (hcontext : p.context name consequent = some (result, next)) :
    consequent ≠ name ∧ (∃ c, p.get? name = some c) ∧ ∃ front, p.get? consequent = some front := by
  obtain ⟨label, hlabel, hrest⟩ := Option.bind_eq_some_iff.1 hcontext
  obtain ⟨behind, hbehind, -⟩ := Option.bind_eq_some_iff.1 hrest
  have hne : consequent ≠ name := by
    rintro rfl
    rw [heldBeside, lookup_filter_bne_self] at hbehind
    cases hbehind
  have hlookup := (lookup_filter_bne_of_ne hne).symm.trans hbehind
  obtain ⟨c, hc, -⟩ := h.exists_get?_of_lookup hlabel
  obtain ⟨front, hfront, -⟩ := h.exists_get?_of_lookup hlookup
  exact ⟨hne, ⟨c, hc⟩, front, hfront⟩

/-- A call keeps the counts right and the places that it does not touch. -/
theorem Sound.perform (h : p.Sound []) (call : ErrorCall) :
    (p.perform call).Sound [] ∧
      ∀ place ∉ call.touched, (p.perform call).get? place = p.get? place := by
  cases call with
  | create name e =>
    obtain ⟨hsound, hothers⟩ := h.create name e
    exact ⟨hsound, fun place hplace => hothers place (List.ne_of_not_mem_cons hplace)⟩
  | share name source =>
    rw [ErrorPool.perform]
    cases hshare : p.share name source with
    | none => exact ⟨h, fun _ _ => rfl⟩
    | some q =>
      obtain ⟨hsound, -, hothers⟩ := h.share hshare
      exact ⟨hsound, fun place hplace => hothers place (List.ne_of_not_mem_cons hplace)⟩
  | shareRoot name source =>
    rw [ErrorPool.perform]
    cases hshare : p.shareRoot name source with
    | none => exact ⟨h, fun _ _ => rfl⟩
    | some q =>
      obtain ⟨hsound, -, hothers⟩ := h.shareRoot hshare
      exact ⟨hsound, fun place hplace => hothers place (List.ne_of_not_mem_cons hplace)⟩
  | release name =>
    exact ⟨(h.release name).1, fun place hplace =>
      h.get?_release_of_ne (List.ne_of_not_mem_cons hplace)⟩
  | context name consequent =>
    rw [ErrorPool.perform]
    cases hcontext : p.context name consequent with
    | none => exact ⟨h, fun _ _ => rfl⟩
    | some taken =>
      obtain ⟨hne, ⟨c, hc⟩, front, hfront⟩ := h.exists_get?_of_context hcontext
      obtain ⟨result, next, htaken, hsound, hthen⟩ := h.context hc hfront hne
      obtain rfl := Option.some.inj (hcontext.symm.trans htaken)
      refine ⟨hsound, fun place hplace => hthen.get?_other place ?_ ?_⟩
      · exact fun heq => hplace (heq ▸ List.mem_cons_self)
      · exact fun heq => hplace (heq ▸ .tail _ List.mem_cons_self)

theorem sound_after (calls : List ErrorCall) : (after calls).Sound [] :=
  List.foldlRecOn (motive := fun p => p.Sound []) calls ErrorPool.perform Sound.empty
    fun _ hp call _ => (hp.perform call).1

/-- From `p` to `q`, only contexts are given to the error of the place; `texts` are their messages,
the last one given first. What is done to other places does not matter. -/
inductive Wraps (name : String) (p : ErrorPool) : List String → ErrorPool → Prop
  | start : Wraps name p [] p
  | beside {texts : List String} {q : ErrorPool} (h : Wraps name p texts q) (call : ErrorCall)
      (hcall : name ∉ call.touched) : Wraps name p texts (q.perform call)
  | context {texts : List String} {q next : ErrorPool} {consequent : String}
      {front chained : ErrorChain} (h : Wraps name p texts q)
      (hfront : q.get? consequent = some front)
      (hcontext : q.context name consequent = some (.ok chained, next)) :
      Wraps name p (front.message :: texts) next

theorem Wraps.message_eq (h : Wraps name p texts q) (hp : p.Sound [])
    (hc : p.get? name = some c) :
    q.Sound [] ∧ ∃ d, q.get? name = some d ∧
      d.message = ": ".intercalate (texts ++ [c.message]) ∧ d.root = c.root := by
  induction h with
  | start => exact ⟨hp, c, hc, by simp, rfl⟩
  | beside _ call hcall ih =>
    obtain ⟨hq, d, hd, hmessage⟩ := ih
    obtain ⟨hsound, hothers⟩ := hq.perform call
    exact ⟨hsound, d, (hothers name hcall).trans hd, hmessage⟩
  | @context texts q next consequent front chained _ hfront hcontext ih =>
    obtain ⟨hq, d, hd, hmessage, hroot⟩ := ih
    obtain ⟨hne, -, -⟩ := hq.exists_get?_of_context hcontext
    obtain ⟨result, _, htaken, hnext, hthen⟩ := hq.context hd hfront hne
    obtain ⟨rfl, rfl⟩ := Prod.mk.inj (Option.some.inj (hcontext.symm.trans htaken))
    obtain ⟨-, hchained, hchainedRoot, -⟩ := hthen.chained chained rfl
    refine ⟨hnext, chained, hthen.get?_name, ?_, hchainedRoot.trans hroot⟩
    rw [hchained, hmessage]
    cases texts <;> simp

/-- Whatever errors have been created, shared and given contexts: taking the error of a place and
giving it the error of another place as a context comes out as told by `ContextTaken`, and after any
number of contexts the messages of the contexts stand in front, the last one given first. -/
theorem contextTaken_after (calls : List ErrorCall) (hc : (after calls).get? name = some c) :
    (∀ consequent ≠ name, ∀ front, (after calls).get? consequent = some front →
      ∃ result next, (after calls).context name consequent = some (result, next) ∧
        (after calls).ContextTaken name consequent c front result next) ∧
    ∀ texts q, Wraps name (after calls) texts q → ∃ d, q.get? name = some d ∧
      d.message = ": ".intercalate (texts ++ [c.message]) ∧ d.root = c.root := by
  have hsound := sound_after calls
  refine ⟨fun consequent hne front hfront => ?_, fun texts q hwraps => ?_⟩
  · obtain ⟨result, next, hcontext, -, hthen⟩ := hsound.context hc hfront hne
    exact ⟨result, next, hcontext, hthen⟩
  · exact (hwraps.message_eq hsound hc).2

/-- A failure to write a row, noted in a log and reported as a failure to save a city. -/
def savingCity : List ErrorCall :=
  [.create "failure" (.adHoc "disk is full"), .create "row" (.adHoc "writing a row"),
    .create "city" (.adHoc "saving a city"), .share "log" "failure", .context "failure" "row"]

/-- The failure with its first context. -/
def rowFailure : ErrorChain :=
  ⟨⟨1, .adHoc "writing a row"⟩, [⟨0, .adHoc "disk is full"⟩]⟩

theorem contextTaken_savingCity :
    (after savingCity).get? "failure" = some rowFailure ∧
      ∃ next, (after savingCity).context "failure" "city" =
          some (.ok ⟨⟨2, .adHoc "saving a city"⟩, rowFailure.objects⟩, next) ∧
        (next.get? "log").map ErrorChain.message = some "disk is full" ∧
        ∃ d, next.get? "failure" = some d ∧
          d.message = "saving a city: writing a row: disk is full" := by
  have hfailure : (after savingCity).get? "failure" = some rowFailure := by decide
  have hcity : (after savingCity).get? "city" = some ⟨⟨2, .adHoc "saving a city"⟩, []⟩ := by decide
  obtain ⟨hcontext, hwraps⟩ := contextTaken_after savingCity hfailure
  obtain ⟨result, next, htaken, hthen⟩ := hcontext "city" (by decide) _ hcity
  have hresult : ((after savingCity).context "failure" "city").map Prod.fst =
      some (.ok ⟨⟨2, .adHoc "saving a city"⟩, rowFailure.objects⟩) := by decide
  rw [htaken] at hresult
  obtain rfl : result = _ := Option.some.inj hresult
  obtain ⟨d, hd, hmessage, -⟩ := hwraps _ next (.context .start hcity htaken)
  refine ⟨hfailure, next, htaken, ?_, d, hd, hmessage⟩
  rw [hthen.get?_other "log" (by decide) (by decide)]
  decide

end ErrorPool

end RelSchema
