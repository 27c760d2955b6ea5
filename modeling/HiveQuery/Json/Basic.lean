import HiveQuery.Number.Shortest
/-!
# JSON values

A JSON value keeps the kind of its numbers: an integer token is an integer of any size, every other
number is a binary64 number. The token `-0` is the negative zero. The fields of an object keep their
order.
-/

namespace HiveQuery

inductive Json where
  | null
  | bool (value : Bool)
  | int (value : Int)
  | float (value : Binary64)
  | str (value : String)
  | arr (items : List Json)
  | obj (fields : List (String × Json))

namespace Json

/-! ## Reading the parts of a value -/

/-- The value of an object's field, `none` if the field is missing or the value is no object. -/
def field? : Json → String → Option Json
  | obj fields, name => fields.lookup name
  | _, _ => none

def isObject : Json → Bool
  | obj _ => true
  | _ => false

def string? : Json → Option String
  | str value => some value
  | _ => none

def bool? : Json → Option Bool
  | bool value => some value
  | _ => none

def items? : Json → Option (List Json)
  | arr items => some items
  | _ => none

/-- An integer token of a value below `bound`. -/
def natBelow? (bound : Nat) : Json → Option Nat
  | int value => if 0 ≤ value && value < bound then some value.toNat else none
  | _ => none

/-- A field that has to be there. -/
def required {α : Type} (json : Json) (name : String) (read : Json → Option α) : Option α :=
  (json.field? name).bind read

/-- A field that may be missing or null. The outer `none` is a field of the wrong shape. -/
def optional {α : Type} (json : Json) (name : String) (read : Json → Option α) :
    Option (Option α) :=
  match json.field? name with
  | none => some none
  | some null => some none
  | some value => (read value).map some

/-- A field that may be missing, but not null. -/
def withDefault {α : Type} (json : Json) (name : String) (default : α)
    (read : Json → Option α) : Option α :=
  match json.field? name with
  | none => some default
  | some value => read value

/-- A list, each of its items read alike. -/
def list? {α : Type} (read : Json → Option α) (json : Json) : Option (List α) :=
  json.items?.bind (·.mapM read)

/-! ## Depth -/

mutual

/-- How deep values are nested in a value. -/
def depth : Json → Nat
  | arr items => depthItems items + 1
  | obj fields => depthFields fields + 1
  | _ => 1

def depthItems : List Json → Nat
  | [] => 0
  | item :: items => max item.depth (depthItems items)

def depthFields : List (String × Json) → Nat
  | [] => 0
  | (_, value) :: fields => max value.depth (depthFields fields)

end

end Json

end HiveQuery
