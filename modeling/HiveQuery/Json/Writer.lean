import HiveQuery.Json.Basic
/-!
# JSON text

The compact text of a JSON value: no blanks, fields in their order. In a string only the quote, the
backslash and the control characters below `0x20` are escaped.
-/

namespace HiveQuery

namespace Json

/-- Numbers from `0.00001` up to below `1e+16` are written positionally, exponents with their sign,
and a tie goes to the even digit. -/
def numberLayout : NumberLayout where
  positionalFrom := -5
  positionalTo := 15
  exponentPlus := "+"
  tie := .toEven

/-- A character as it stands in a string. -/
def escape (c : Char) : List Char :=
  if c == '"' then ['\\', '"']
  else if c == '\\' then ['\\', '\\']
  else if c == '\x08' then ['\\', 'b']
  else if c == '\x0c' then ['\\', 'f']
  else if c == '\n' then ['\\', 'n']
  else if c == '\r' then ['\\', 'r']
  else if c == '\t' then ['\\', 't']
  else if c.toNat < 0x20 then
    ['\\', 'u', '0', '0', Nat.digitChar (c.toNat / 16), Nat.digitChar (c.toNat % 16)]
  else [c]

/-- A text in quotes. -/
def quoted (text : String) : String :=
  String.ofList ('"' :: text.toList.flatMap escape ++ ['"'])

/-- The text of a number; one that is not finite is written `null`. -/
def floatText (x : Binary64) : String :=
  if x.isFinite then numberLayout.text x else "null"

mutual

/-- The compact text of a value. -/
def compact : Json → String
  | null => "null"
  | bool true => "true"
  | bool false => "false"
  | int value => value.repr
  | float value => floatText value
  | str value => quoted value
  | arr items => "[" ++ String.intercalate "," (compactItems items) ++ "]"
  | obj fields => "\x7b" ++ String.intercalate "," (compactFields fields) ++ "\x7d"

def compactItems : List Json → List String
  | [] => []
  | item :: items => item.compact :: compactItems items

def compactFields : List (String × Json) → List String
  | [] => []
  | (name, value) :: fields => (quoted name ++ ":" ++ value.compact) :: compactFields fields

end

end Json

end HiveQuery
