import RelSchema.Text.Quoted

/-!
# Events

What the operations on a registry report while they run.
-/

namespace RelSchema

inductive Level where
  | debug
  | trace
  deriving DecidableEq

/-- A value that an event carries under a label. -/
inductive EventField where
  | text (value : String)
  | count (value : Nat)
  | flag (value : Bool)
  deriving DecidableEq

inductive Event where
  | registered (model : String) (id columns references : Nat)
  | replaced (model : String) (id columns references : Nat)
  | pass (number pending : Nat)
  | targetMissing (model field target : String)
  | targetKeyOpen (model field target : String)
  | resolved (model field target : String) (implicit : Bool) (sources : List String)
  | dropped (model field : String) (removed : Nat)
  | finished (models passes : Nat)
  | assembled (tables : Nat)
  deriving DecidableEq

namespace Event

/-- Passes and postponed references are reported in finer detail than changes. -/
def level : Event → Level
  | .pass .. | .targetMissing .. | .targetKeyOpen .. => .trace
  | _ => .debug

def message : Event → String
  | .registered .. => "registered model"
  | .replaced .. => "replaced model"
  | .pass .. => "resolution pass"
  | .targetMissing .. => "target not registered; deferring"
  | .targetKeyOpen .. => "target key not final; deferring"
  | .resolved .. => "resolved foreign key"
  | .dropped .. => "target key changed; resolving again"
  | .finished .. => "resolved foreign key references"
  | .assembled .. => "assembled schema"

private def declared (model : String) (id columns references : Nat) :
    List (String × EventField) :=
  [("model", .text model), ("id", .count id), ("columns", .count columns),
    ("foreign_keys", .count references)]

private def named (model field target : String) : List (String × EventField) :=
  [("model", .text model), ("field", .text field), ("target", .text target)]

/-- What the event carries, under the labels it is reported with. -/
def fields : Event → List (String × EventField)
  | .registered model id columns references => declared model id columns references
  | .replaced model id columns references => declared model id columns references
  | .pass number pending => [("pass", .count number), ("pending", .count pending)]
  | .targetMissing model field target => named model field target
  | .targetKeyOpen model field target => named model field target
  | .resolved model field target implicit sources =>
      named model field target
        ++ [("implicit", .flag implicit), ("columns", .text (Text.quoteList sources))]
  | .dropped model field removed =>
      [("model", .text model), ("field", .text field), ("removed", .count removed)]
  | .finished models passes => [("models", .count models), ("passes", .count passes)]
  | .assembled tables => [("tables", .count tables)]

end Event

end RelSchema
