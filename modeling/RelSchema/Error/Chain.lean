import RelSchema.Error

/-!
# Chains of errors

Giving an error a context puts the context in front of it, so that a chain leads from the newest
context to the root.

An error can be held in several places at once. Its object is stored once and counts its holders,
which are the places that hold it and the objects that it caused. A context is given by changing the
object of the context where it is stored, so that this object must have one holder only.
-/

namespace RelSchema

/-! ## 1. Chains -/

/-- An error object; the label tells objects apart that say the same. -/
structure ErrorObject where
  label : Nat
  error : Error
  deriving DecidableEq

/-- An error object with its causes, newest first. -/
structure ErrorChain where
  head : ErrorObject
  causes : List ErrorObject := []
  deriving DecidableEq

namespace ErrorChain

def objects (c : ErrorChain) : List ErrorObject :=
  c.head :: c.causes

def kind (c : ErrorChain) : ErrorKind :=
  c.head.error.kind

/-- The messages of the chain from the head to the root. -/
def message (c : ErrorChain) : String :=
  ": ".intercalate (c.objects.map (·.error.message))

/-- The innermost error. -/
def root (c : ErrorChain) : ErrorObject :=
  c.causes.getLast?.getD c.head

def holds (c : ErrorChain) (label : Nat) : Bool :=
  c.objects.any (·.label == label)

/-- The error behind an external head, as text. -/
def source? (c : ErrorChain) : Option String :=
  match c.head.error with
  | .external .. => some c.head.error.message
  | _ => none

theorem getLast?_objects (c : ErrorChain) : c.objects.getLast? = some c.root :=
  List.getLast?_cons

/-- The text of a context goes in front of the text of the chain. -/
theorem message_mk_objects (front : ErrorObject) (c : ErrorChain) :
    (ErrorChain.mk front c.objects).message = front.error.message ++ ": " ++ c.message := by
  simp [message, objects]

/-- A context leaves the root as it was. -/
theorem root_mk_objects (front : ErrorObject) (c : ErrorChain) :
    (ErrorChain.mk front c.objects).root = c.root := by
  simp [root, objects, List.getLast?_cons]

end ErrorChain

/-! ## 2. Objects with several holders -/

/-- An error object as it is stored: the label of its cause, if it has one, and the number of its
holders. -/
structure ErrorCell where
  error : Error
  cause : Option Nat := none
  holders : Nat := 1
  deriving DecidableEq

namespace ErrorCell

/-- The object with the object at the label as its cause. It must not have a cause yet, and no
second holder that would see the change. -/
def wrap (cell : ErrorCell) (label : Nat) : Except Fault ErrorCell :=
  if cell.cause.isSome then .error .consequentHasCause
  else if cell.holders = 1 then .ok { cell with cause := some label }
  else .error .consequentShared

/-- The object at the label and the causes behind it. No chain has more objects than are stored, so
with as many steps left it is read to its end. -/
def objectsFrom (cells : List ErrorCell) : (left : Nat) → (label : Nat) → List ErrorObject
  | 0, _ => []
  | left + 1, label =>
    match cells[label]? with
    | none => []
    | some cell =>
      match cell.cause with
      | none => [⟨label, cell.error⟩]
      | some cause => ⟨label, cell.error⟩ :: objectsFrom cells left cause

/-- Takes one holder from the object at the label. The last holder frees the object, which then
lets go of its cause. -/
def letGo : (left : Nat) → List ErrorCell → (label : Nat) → List ErrorCell
  | 0, cells, _ => cells
  | left + 1, cells, label =>
    match cells[label]? with
    | none => cells
    | some cell =>
      if cell.holders = 1 then
        let freed := cells.set label { cell with cause := none, holders := 0 }
        match cell.cause with
        | none => freed
        | some cause => letGo left freed cause
      else cells.set label { cell with holders := cell.holders - 1 }

end ErrorCell

/-! ## 3. Live errors -/

/-- Errors that are alive, by the name of the place that holds them. The label of an object is its
position among the stored ones. -/
structure ErrorPool where
  cells : List ErrorCell := []
  held : List (String × Nat) := []

namespace ErrorPool

/-- What the places other than the given one hold. -/
def heldBeside (p : ErrorPool) (name : String) : List (String × Nat) :=
  p.held.filter (·.1 != name)

/-- The chain of the error in a place. -/
def get? (p : ErrorPool) (name : String) : Option ErrorChain := do
  let label ← p.held.lookup name
  let head :: causes := ErrorCell.objectsFrom p.cells p.cells.length label | none
  return ⟨head, causes⟩

/-- Empties a place. -/
def release (p : ErrorPool) (name : String) : ErrorPool :=
  match p.held.lookup name with
  | none => p
  | some label =>
      ⟨ErrorCell.letGo p.cells.length p.cells label, p.heldBeside name⟩

/-- Holds an object that has already counted the place, which is empty, as a holder. -/
def hold (p : ErrorPool) (name : String) (label : Nat) : ErrorPool :=
  { p with held := (name, label) :: p.held }

/-- Makes a new error object and holds it. -/
def create (p : ErrorPool) (name : String) (e : Error) : ErrorPool :=
  let released := p.release name
  let added : ErrorPool := { released with cells := released.cells ++ [{ error := e }] }
  added.hold name released.cells.length

/-- Holds a stored object in another place as well. -/
def shareObject (p : ErrorPool) (name : String) (label : Nat) : ErrorPool :=
  let counted := p.cells.modify label fun cell => { cell with holders := cell.holders + 1 }
  let released := { p with cells := counted }.release name
  released.hold name label

/-- Holds the error of one place in another place as well. -/
def share (p : ErrorPool) (name source : String) : Option ErrorPool := do
  let label ← p.held.lookup source
  return p.shareObject name label

/-- Holds the root of the error of one place in another place as well. -/
def shareRoot (p : ErrorPool) (name source : String) : Option ErrorPool := do
  let c ← p.get? source
  return p.shareObject name c.root.label

/-- Takes the error of a place and puts the error of another place in front of it. The second place
is empty afterwards, and so is the first when its error cannot be given that context. -/
def context (p : ErrorPool) (name consequent : String) :
    Option (Except Fault ErrorChain × ErrorPool) := do
  let label ← p.held.lookup name
  let front ← (p.heldBeside name).lookup consequent
  let cell ← p.cells[front]?
  match cell.wrap label with
  | .error f => return (.error f, (p.release name).release consequent)
  | .ok wrapped =>
      let taken := (p.heldBeside name).filter (·.1 != consequent)
      let next := ErrorPool.mk (p.cells.set front wrapped) ((name, front) :: taken)
      let chained ← next.get? name
      return (.ok chained, next)

end ErrorPool

end RelSchema
