import HiveQuery.Tree.Basic
/-!
# The nodes of a tree

The nodes of a tree are listed once, in the order in which a reader meets them: a node before its
parts; of a select first the source, then the columns, the filter, the ordering, the grouping and
the clustering; of a query first the select, then the projector. Whatever is asked of a whole tree,
such as its labels, its references and its resources, is read off this list.
-/

namespace HiveQuery

inductive Node where
  | select (s : Select)
  | source (s : Source)
  | expr (e : Expr)

mutual

/-- An expression and all below it, subqueries included. -/
def Expr.nodes : Expr → List Node
  | e@(.column ..) | e@(.literal _) | e@(.generatedId _) => [.expr e]
  | e@(.binary _ left right) => .expr e :: (left.nodes ++ right.nodes)
  | e@(.unary _ operand) | e@(.isNull operand _) | e@(.cast operand _) => .expr e :: operand.nodes
  | e@(.caseWhen branches otherwise) =>
    .expr e :: (Branch.nodesList branches ++ Expr.nodesOption otherwise)
  | e@(.call _ args _) => .expr e :: Expr.nodesList args
  | e@(.aggregate _ arg _) => .expr e :: Expr.nodesOption arg
  | e@(.rowNumber order) => .expr e :: OrderTerm.nodesList order
  | e@(.scalarQuery query) | e@(.existsQuery query) => .expr e :: query.nodes
  | e@(.inQuery operand query) => .expr e :: (operand.nodes ++ query.nodes)

def Expr.nodesList : List Expr → List Node
  | [] => []
  | e :: es => e.nodes ++ Expr.nodesList es

def Expr.nodesOption : Option Expr → List Node
  | none => []
  | some e => e.nodes

def Branch.nodesList : List Branch → List Node
  | [] => []
  | ⟨condition, result⟩ :: bs => condition.nodes ++ result.nodes ++ Branch.nodesList bs

def OrderTerm.nodesList : List OrderTerm → List Node
  | [] => []
  | ⟨expr, _⟩ :: ts => expr.nodes ++ OrderTerm.nodesList ts

def Column.nodesList : List Column → List Node
  | [] => []
  | ⟨_, expr, _⟩ :: cs => expr.nodes ++ Column.nodesList cs

/-- A source and all below it. -/
def Source.nodes : Source → List Node
  | s@(.table ..) => [.source s]
  | s@(.subquery query) => .source s :: query.nodes
  | s@(.join _ left right condition) =>
    .source s :: (left.nodes ++ right.nodes ++ Expr.nodesOption condition)

def Source.nodesOption : Option Source → List Node
  | none => []
  | some s => s.nodes

/-- A select and all below it. -/
def Select.nodes : Select → List Node
  | s@⟨_, columns, source, filter, ordering, grouping, clustering, _, _, _, _⟩ =>
    .select s :: (Source.nodesOption source ++ Column.nodesList columns ++ Expr.nodesOption filter
      ++ OrderTerm.nodesList ordering ++ Expr.nodesList grouping ++ Expr.nodesList clustering)

end

/-! ## Lists of parts -/

@[simp] theorem Expr.nodesList_eq (es : List Expr) : Expr.nodesList es = es.flatMap Expr.nodes := by
  induction es with
  | nil => rfl
  | cons e es ih => simp [Expr.nodesList, ih]

@[simp] theorem OrderTerm.nodesList_eq (ts : List OrderTerm) :
    OrderTerm.nodesList ts = ts.flatMap (·.expr.nodes) := by
  induction ts with
  | nil => rfl
  | cons t ts ih => cases t; simp [OrderTerm.nodesList, ih]

@[simp] theorem Column.nodesList_eq (cs : List Column) :
    Column.nodesList cs = cs.flatMap (·.expr.nodes) := by
  induction cs with
  | nil => rfl
  | cons c cs ih => cases c; simp [Column.nodesList, ih]

/-! ## Queries and statements -/

def Projection.nodes (p : Projection) : List Node :=
  p.select.nodes ++ p.projector.exprs.flatMap Expr.nodes

def Statement.nodes (s : Statement) : List Node :=
  s.queries.flatMap Projection.nodes

/-! ## What the nodes tell -/

namespace Node

/-- The label that a node declares. -/
def label? : Node → Option String
  | select s => some s.label
  | source (.table _ label) => some label
  | _ => none

/-- The column reference that a node is. -/
def ref? : Node → Option (String × String)
  | expr e => e.ref?
  | _ => none

/-- The resource file that a node needs. -/
def resource? : Node → Option String
  | expr (.call _ _ resource) => resource
  | _ => none

end Node

/-- The column references of an expression, those of its subqueries included. -/
def Expr.refs (e : Expr) : List (String × String) :=
  e.nodes.filterMap Node.ref?

/-- The labels that a query declares, each as often as it is declared. -/
def Projection.labels (p : Projection) : List String :=
  p.nodes.filterMap Node.label?

def Projection.refs (p : Projection) : List (String × String) :=
  p.nodes.filterMap Node.ref?

def Statement.labels (s : Statement) : List String :=
  s.nodes.filterMap Node.label?

def Statement.refs (s : Statement) : List (String × String) :=
  s.nodes.filterMap Node.ref?

/-- The items of a list without those that stand in it before, in their order. -/
def firstOccurrences (items : List String) : List String :=
  items.foldl (fun kept item => if kept.contains item then kept else kept ++ [item]) []

/-- The resource files that the function calls of a statement need, in the order in which they are
met. -/
def Statement.resources (s : Statement) : List String :=
  firstOccurrences (s.nodes.filterMap Node.resource?)

end HiveQuery
