import HiveQuery.Columns.Usage
import HiveQuery.Trace
import HiveQuery.Tree.Equality
import HiveQuery.Tree.Transform
/-!
# Pruning unused columns

A column of a subquery that nothing refers to is removed, unless the columns of its select are
pinned. A removed column may have been the last to refer to another one, so the removal is repeated
until it leaves the select of the query as it is. No select loses its last column.
-/

namespace HiveQuery

/-- The select with the columns to keep, or with its first column if none is to be kept. -/
def Select.keepColumns (keep : String → Column → Bool) (s : Select) : Traced Select :=
  let columns := s.columns.filter (keep s.label)
  if columns.length = s.columns.length then pure s
  else
    let columns := if columns.isEmpty then s.columns.take 1 else columns
    .report [.columnsPruned s.label (s.columns.length - columns.length)] { s with columns }

def Transform.keepColumns (keep : String → Column → Bool) : Transform Traced where
  leaf e := pure e
  select _ s := s.keepColumns keep

def Projection.keepColumns (keep : String → Column → Bool) (p : Projection) : Traced Projection :=
  p.transform (.keepColumns keep)

/-- The number of columns that a node declares. -/
def Node.columnCount : Node → Nat
  | select s => s.columns.length
  | _ => 0

/-- The number of columns of a select and of all selects below it. -/
def Select.columnCount (s : Select) : Nat :=
  (s.nodes.map Node.columnCount).foldr (· + ·) 0

namespace Projection

/-- Remove unused columns until a round leaves the select as it is; that round is dropped.

A round that changes the select removes a column of it, so the rounds come to an end. The exception
is a select with a NaN among its literals. It differs from itself, so no round leaves it as it is,
and rounds that are repeated until one does would go on for ever. There the first round that removes
no column is the last one. -/
def pruneColumns (p : Projection) : Traced Projection := do
  let next ← p.keepColumns p.columnUsage.keeps
  if next.select == p.select then return p
  else if _smaller : next.select.columnCount < p.select.columnCount then next.pruneColumns
  else return next
termination_by p.select.columnCount

/-- Remove one column of a subquery, which must be neither pinned nor referred to. -/
def removeColumn (p : Projection) (label name : String) : Traced Projection := do
  let usage := p.columnUsage
  if usage.isPinned label then .fail (.columnsFixed label name)
  if usage.isUsed label name then .fail (.columnReferenced label name)
  let pruned ← p.keepColumns fun owner column => owner != label || column.name != name
  if pruned.select == p.select then .fail (.noSuchColumn label name)
  return pruned

end Projection

/-- Remove the columns of subqueries that nothing refers to. -/
def Statement.pruneColumns (s : Statement) : Traced Statement :=
  s.mapQueriesM Projection.pruneColumns

end HiveQuery
