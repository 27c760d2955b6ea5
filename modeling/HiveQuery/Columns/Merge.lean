import HiveQuery.Trace
import HiveQuery.Tree.Equality
import HiveQuery.Tree.Transform
/-!
# Merging equal columns

A column of a subquery whose expression equals that of an earlier column is merged into it, and the
references to it name the earlier one. Since a tree is transformed from below and sources before the
expressions that read them, a reference is met after the columns it may name have been merged.
Columns that become equal by this are merged in turn. The top select keeps equal columns, one for
each member of its entity.
-/

namespace HiveQuery

/-- The columns with a new expression, and the others, each with the column that it is merged
into. -/
def Column.mergeEqual (kept : List Column) : List Column → List Column × List (Column × Column)
  | [] => (kept, [])
  | column :: columns =>
    match kept.find? (·.expr == column.expr) with
    | some survivor =>
      let (all, merged) := Column.mergeEqual kept columns
      (all, (column, survivor) :: merged)
    | none => Column.mergeEqual (kept ++ [column]) columns

/-- What the references to merged columns are renamed to, the latest first. -/
abbrev Renames := List ((String × String) × String)

/-- A computation that collects renames. -/
abbrev Merging := StateT Renames Traced

namespace Renames

/-- The reference after the renames. -/
def apply (renames : Renames) (label name : String) : Expr :=
  .column label ((renames.lookup (label, name)).getD name)

/-- The renames with the merged columns of a select added. -/
def add (renames : Renames) (label : String) (merged : List (Column × Column)) : Renames :=
  merged.foldl (fun all (column, survivor) => ((label, column.name), survivor.name) :: all) renames

end Renames

/-- Merge the equal columns of a select. -/
def Select.mergeColumns (s : Select) : Merging Select := do
  let (kept, merged) := Column.mergeEqual [] s.columns
  (Traced.report (merged.map fun (column, survivor) =>
    .columnMerged s.label column.name survivor.name) () : Traced _)
  modify (·.add s.label merged)
  return { s with columns := kept }

/-- The merging of the selects that another select encloses. -/
def Transform.merging : Transform Merging where
  leaf
    | .column label name => do return (← get).apply label name
    | e => pure e
  select depth s := if depth = 0 then pure s else s.mergeColumns

def Projection.mergeColumns (p : Projection) : Traced Projection :=
  (p.transform .merging).run' []

/-- Merge the equal columns of all subqueries. -/
def Statement.mergeColumns (s : Statement) : Traced Statement :=
  s.mapQueriesM Projection.mergeColumns

end HiveQuery
