import HiveQuery.Yaml.Basic
import HiveQuery.Yaml.Token
/-!
# YAML documents

The value that a text writes. A text holds one document, which may be empty.
-/

namespace HiveQuery

namespace Yaml

/-- At these tokens a value is missing. -/
def Token.endsEntry : Token → Bool
  | .key | .value | .mappingEnd => true
  | _ => false

mutual

/-- A value and the tokens behind it. The first argument bounds the number of tokens. -/
def node? : Nat → List Token → Option (Yaml × List Token)
  | _ + 1, .scalar text plain :: rest => some (scalar text plain, rest)
  | fuel + 1, .mappingStart :: rest => do
    let (fields, rest) ← entries? fuel rest
    return (mapping fields, rest)
  | _, _ => none

/-- The entries of a mapping up to its end. -/
def entries? : Nat → List Token → Option (List (String × Yaml) × List Token)
  | _ + 1, .mappingEnd :: rest => some ([], rest)
  | fuel + 1, .key :: .scalar name _ :: .value :: rest => do
    let (value, rest) ←
      if rest.head?.any Token.endsEntry then some (missing, rest) else node? fuel rest
    let (fields, rest) ← entries? fuel rest
    return ((name, value) :: fields, rest)
  | _, _ => none

end

/-- Nothing but the ends of the document. -/
def isEnd (tokens : List Token) : Bool :=
  tokens.all fun
    | .documentEnd => true
    | _ => false

/-- The value of a document. -/
def document? (tokens : List Token) : Option Yaml := do
  match tokens with
  | [] => return missing
  | .documentStart :: rest =>
    if isEnd rest then return missing
    let (value, rest) ← node? tokens.length rest
    guard (isEnd rest)
    return value
  | tokens =>
    let (value, rest) ← node? (tokens.length + 1) tokens
    guard (isEnd rest)
    return value

/-- The value that a text writes. -/
def parse? (text : String) : Option Yaml :=
  (tokens? text).bind document?

end Yaml

end HiveQuery
