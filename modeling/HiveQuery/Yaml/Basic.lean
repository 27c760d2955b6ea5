/-!
# YAML values

The values that settings are written in: scalars, and mappings of keys to values. A scalar keeps
whether it is plain, that is without quotes, because only a plain word is a truth value and only a
plain nothing stands for an empty mapping.
-/

namespace HiveQuery

inductive Yaml where
  | scalar (text : String) (plain : Bool)
  | mapping (fields : List (String × Yaml))

namespace Yaml

/-- What stands where no value is written. -/
def missing : Yaml :=
  scalar "" true

/-- A field that may be missing. The outer `none` is a field that stands twice. -/
def field? (fields : List (String × Yaml)) (name : String) : Option (Option Yaml) :=
  match fields.filter (·.1 == name) with
  | [] => some none
  | [(_, value)] => some (some value)
  | _ => none

/-- The fields of a mapping. A value that is not written has none. -/
def fields? : Yaml → Option (List (String × Yaml))
  | mapping fields => some fields
  | scalar text plain => if plain && text.isEmpty then some [] else none

/-- Every scalar is a text. -/
def text? : Yaml → Option String
  | scalar text _ => some text
  | mapping _ => none

/-- A truth value is a plain word. -/
def bool? : Yaml → Option Bool
  | scalar text true =>
    if ["true", "True", "TRUE"].contains text then some true
    else if ["false", "False", "FALSE"].contains text then some false
    else none
  | _ => none

/-- A field that may be missing, with the value that it has then. -/
def withDefault {α : Type} (fields : List (String × Yaml)) (name : String) (default : α)
    (read : Yaml → Option α) : Option α := do
  match ← field? fields name with
  | none => return default
  | some value => read value

end Yaml

end HiveQuery
