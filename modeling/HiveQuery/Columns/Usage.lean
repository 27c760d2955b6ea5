import HiveQuery.Tree.Nodes
/-!
# Which columns are used

The columns that a query refers to, and the selects whose columns are pinned: the top select, whose
columns the projector relies on, the distinct selects, whose rows depend on all of their columns,
and the subqueries of expressions, whose columns are read by position.
-/

namespace HiveQuery

/-- The label of a select that a node pins. -/
def Node.pinned? : Node → Option String
  | select s => if s.distinct then some s.label else none
  | expr e => e.query?.map (·.label)
  | source _ => none

structure ColumnUsage where
  used : List (String × String)
  pinned : List String

namespace ColumnUsage

def isUsed (usage : ColumnUsage) (label name : String) : Bool :=
  usage.used.contains (label, name)

def isPinned (usage : ColumnUsage) (label : String) : Bool :=
  usage.pinned.contains label

/-- Whether a column has to stay. -/
def keeps (usage : ColumnUsage) (label : String) (column : Column) : Bool :=
  usage.isPinned label || usage.isUsed label column.name

end ColumnUsage

/-- The usage of the columns of a query, its projector included. -/
def Projection.columnUsage (p : Projection) : ColumnUsage where
  used := p.refs
  pinned := p.select.label :: p.nodes.filterMap Node.pinned?

end HiveQuery
