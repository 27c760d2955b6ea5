/-!
# Quoted text

String literals stand between single quotes, with a backslash before what would end or change them.
Identifiers, where they are quoted, stand between backticks, and a backtick inside is doubled.
-/

namespace HiveQuery

namespace Text

/-- A character as it stands in a string literal. -/
def escapeChar (c : Char) : List Char :=
  if c == '\\' then ['\\', '\\']
  else if c == '\'' then ['\\', '\'']
  else if c == '\n' then ['\\', 'n']
  else if c == '\r' then ['\\', 'r']
  else if c == '\t' then ['\\', 't']
  else if c == '\x00' then ['\\', '0']
  else [c]

/-- A text as a string literal. -/
def quoteString (text : String) : String :=
  String.ofList ('\'' :: text.toList.flatMap escapeChar ++ ['\''])

/-- A character as it stands in a quoted identifier. -/
def doubleBacktick (c : Char) : List Char :=
  if c == '\x60' then ['\x60', '\x60'] else [c]

/-- A name as a quoted identifier. -/
def quoteIdentifier (name : String) : String :=
  String.ofList ('\x60' :: name.toList.flatMap doubleBacktick ++ ['\x60'])

end Text

end HiveQuery
