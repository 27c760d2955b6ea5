import HiveQuery.Columns.Merge
import HiveQuery.Columns.Prune
import HiveQuery.Conformance
import HiveQuery.Ordering.Placement
import HiveQuery.Paging
import HiveQuery.QueryText
import HiveQuery.Tree.Encoding
import HiveQuery.Validity
/-!
# Compiling statements

Compiling lowers a statement to a tree that the dialect can express and writes its text. Paging is
replaced between two placements of the orderings: the first gives the pages their order, the second
settles the orderings that the pages bring. Then the top selects are brought to their mappings, the
columns that this leaves over are removed, and the result is checked.
-/

namespace HiveQuery

/-- The settings of the compiler that change its output. -/
structure CompilerSettings where
  /-- The name of the column that numbers the rows of a page. -/
  rowNumberColumn : String := "rn"
  /-- A member without a column of its name takes the column at its position. -/
  byPosition : Bool := false

namespace CompilerSettings

/-- A name of ASCII letters, digits and underscores that does not begin with a digit. -/
def isPlainIdentifier (name : String) : Bool :=
  name.toList.head?.any (fun c => c.isAlpha || c == '_')
    && name.toList.all fun c => c.isAlphanum || c == '_'

def check (settings : CompilerSettings) : Except SettingError Unit :=
  if isPlainIdentifier settings.rowNumberColumn then .ok ()
  else .error (.rowNumberColumn settings.rowNumberColumn)

end CompilerSettings

structure Compiler where
  dialect : Dialect := .hive
  mapping : Mapping := {}
  settings : CompilerSettings := {}

/-- The text of a statement and the resource files it needs. -/
structure CompiledQuery where
  text : String
  resources : List String

namespace CompiledQuery

/-- The commands that make the resource files available, in order. -/
def addFileCommands (q : CompiledQuery) : List String :=
  q.resources.map ("ADD FILE " ++ ·)

end CompiledQuery

namespace Compiler

/-- The passes, in order. -/
def passes (c : Compiler) (s : Statement) : Traced Statement := do
  let s ← s.placeOrderings
  let s ← s.replacePaging c.settings.rowNumberColumn
  let s ← s.placeOrderings
  let s ← s.conform c.mapping c.settings.byPosition
  let s ← s.mergeColumns
  let s ← s.pruneColumns
  .ofExcept s.check
  return s

/-- The statement as the dialect can express it. -/
def lower (c : Compiler) (s : Statement) : Traced Statement := do
  .emit (.started s.fingerprint)
  match c.settings.check with
  | .error e => .fail (.setting e)
  | .ok () =>
    let s ← c.passes s
    .emit (.finished s.fingerprint)
    return s

/-- The text of a lowered statement, with the resource files it names. -/
def compile (c : Compiler) (s : Statement) : Traced CompiledQuery := do
  let s ← c.lower s
  let text ← .ofExcept (s.render c.dialect)
  return ⟨text, s.resources⟩

end Compiler

end HiveQuery
