import RelSchema.Event

/-!
# Operations that report events

A `Logged` value holds the events of an operation beside its result, so that the events before a
failure are kept. What is proved about `result` does not depend on the log.
-/

namespace RelSchema

structure Logged (ε α : Type) where
  log : List Event
  result : Except ε α

namespace Logged

variable {ε δ α β : Type}

def ofExcept (result : Except ε α) : Logged ε α :=
  ⟨[], result⟩

def fail (e : ε) : Logged ε α :=
  ⟨[], .error e⟩

def report (events : List Event) : Logged ε Unit :=
  ⟨events, .ok ()⟩

def emit (event : Event) : Logged ε Unit :=
  report [event]

/-- After a failure nothing more runs and nothing more is reported. -/
protected def bind (x : Logged ε α) (f : α → Logged ε β) : Logged ε β :=
  match x.result with
  | .error e => ⟨x.log, .error e⟩
  | .ok a => ⟨x.log ++ (f a).log, (f a).result⟩

instance : Monad (Logged ε) where
  pure a := ⟨[], .ok a⟩
  bind := Logged.bind

def mapError (f : ε → δ) (x : Logged ε α) : Logged δ α :=
  ⟨x.log, x.result.mapError f⟩

/-! ## The result of a composed operation -/

@[simp] theorem result_pure (a : α) : (pure a : Logged ε α).result = .ok a := rfl

@[simp] theorem log_pure (a : α) : (pure a : Logged ε α).log = [] := rfl

@[simp] theorem result_ofExcept (x : Except ε α) : (ofExcept x).result = x := rfl

@[simp] theorem result_fail (e : ε) : (fail e : Logged ε α).result = .error e := rfl

@[simp] theorem result_report (events : List Event) :
    (report events : Logged ε Unit).result = .ok () := rfl

@[simp] theorem result_emit (event : Event) : (emit event : Logged ε Unit).result = .ok () := rfl

@[simp] theorem result_mapError (f : ε → δ) (x : Logged ε α) :
    (x.mapError f).result = x.result.mapError f := rfl

theorem result_bind (x : Logged ε α) (f : α → Logged ε β) :
    (x >>= f).result = x.result.bind fun a => (f a).result := by
  show (Logged.bind x f).result = _
  unfold Logged.bind
  cases x.result <;> rfl

theorem result_bind_ok {x : Logged ε α} {a : α} (h : x.result = .ok a) (f : α → Logged ε β) :
    (x >>= f).result = (f a).result := by
  rw [result_bind, h]
  rfl

theorem result_bind_error {x : Logged ε α} {e : ε} (h : x.result = .error e)
    (f : α → Logged ε β) : (x >>= f).result = .error e := by
  rw [result_bind, h]
  rfl

@[simp] theorem result_emit_bind (event : Event) (f : Unit → Logged ε β) :
    ((emit event : Logged ε Unit) >>= f).result = (f ()).result :=
  result_bind_ok rfl f

@[simp] theorem result_report_bind (events : List Event) (f : Unit → Logged ε β) :
    ((report events : Logged ε Unit) >>= f).result = (f ()).result :=
  result_bind_ok rfl f

end Logged

end RelSchema
