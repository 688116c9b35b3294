/-!
# JSON values

A JSON value as a tree, and how records and enumerations are read from one. A record is an object
with a member for each field, or an array of the field values in order. An enumeration value is its
name, or an object with that name as its only member and null under it.
-/

namespace RelSchema

/-- `natural` is a number written with digits only; any other number is kept as it is written. -/
inductive Json where
  | null
  | bool (value : Bool)
  | natural (value : Nat)
  | number (text : String)
  | string (value : String)
  | array (items : List Json)
  | object (members : List (String × Json))
  deriving Inhabited

namespace Json

def bool? : Json → Option Bool
  | .bool value => some value
  | _ => none

/-- A natural number of at most 64 bits. -/
def word? : Json → Option Nat
  | .natural value => if value < UInt64.size then some value else none
  | _ => none

def string? : Json → Option String
  | .string value => some value
  | _ => none

/-- The value under the name, which must be there once. -/
def valueOf? (members : List (String × Json)) (name : String) : Option Json :=
  match members.filter (·.1 == name) with
  | [(_, value)] => some value
  | _ => none

theorem valueOf?_eq_some_iff {members : List (String × Json)} {name : String} {value : Json} :
    valueOf? members name = some value ↔ members.filter (·.1 == name) = [(name, value)] := by
  constructor
  · intro h
    rw [valueOf?] at h
    split at h
    next own found hfilter =>
      have hmem : (own, found) ∈ members.filter (·.1 == name) := hfilter ▸ List.mem_cons_self
      obtain rfl : own = name := beq_iff_eq.1 (List.mem_filter.1 hmem).2
      obtain rfl := Option.some.inj h
      exact hfilter
    next => cases h
  · intro h
    rw [valueOf?, h]

/-- The values under the names, each of which must be there once. -/
def valuesOf? (members : List (String × Json)) : List String → Option (List Json)
  | [] => some []
  | name :: names =>
    match valueOf? members name, valuesOf? members names with
    | some value, some values => some (value :: values)
    | _, _ => none

/-- The values of a record's fields, in the order of the given names. Members of other names are
passed over, but no field may have two members. -/
def fields? (names : List String) : Json → Option (List Json)
  | .object members => valuesOf? members names
  | .array items => if items.length = names.length then some items else none
  | _ => none

/-- The name that an enumeration value is written with. -/
def variant? : Json → Option String
  | .string name => some name
  | .object [(name, .null)] => some name
  | _ => none

/-- Reads every item of an array. -/
def list? {α : Type} (item? : Json → Option α) : Json → Option (List α)
  | .array items => items.mapM item?
  | _ => none

end Json

end RelSchema
