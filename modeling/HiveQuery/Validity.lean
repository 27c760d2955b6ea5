import HiveQuery.Scope
import HiveQuery.Tree.Nodes
/-!
# Valid statements

A query is valid if it declares every label once, every select declares each column name once, every
column reference of its selects resolves where it stands, and the projector reads columns of the top
select only. The checks run in a fixed order, and the first one that fails is reported.
-/

namespace HiveQuery

/-- The first item that stands in the list before, or among the items seen already. -/
def firstRepeated? (seen : List String) : List String → Option String
  | [] => none
  | item :: items => if seen.contains item then some item else firstRepeated? (item :: seen) items

/-- Every reference that an expression of a select makes itself has to resolve. -/
def Scope.checkExpr (scope : Scope) (label : String) (e : Expr) : Except Failure Unit :=
  match scope.exprError? e with
  | some error => .error (.selectReference label error)
  | none => .ok ()

/-- No two columns of a select may share a name. -/
def Select.checkNames (s : Select) : Except Failure Unit :=
  match firstRepeated? [] s.columnNames with
  | some name => .error (.columnDeclaredTwice s.label name)
  | none => .ok ()

mutual

/-- The subqueries of an expression, in their order; they see the scope of the expression. -/
def Expr.checkQueries (scope : Scope) : Expr → Except Failure Unit
  | .column .. | .literal _ | .generatedId _ => .ok ()
  | .binary _ left right => do
    left.checkQueries scope
    right.checkQueries scope
  | .unary _ operand | .isNull operand _ | .cast operand _ => operand.checkQueries scope
  | .caseWhen branches otherwise => do
    Branch.checkQueriesList scope branches
    Expr.checkQueriesOption scope otherwise
  | .call _ args _ => Expr.checkQueriesList scope args
  | .aggregate _ arg _ => Expr.checkQueriesOption scope arg
  | .rowNumber order => OrderTerm.checkQueriesList scope order
  | .scalarQuery query | .existsQuery query => query.check scope
  | .inQuery operand query => do
    operand.checkQueries scope
    query.check scope

def Expr.checkQueriesList (scope : Scope) : List Expr → Except Failure Unit
  | [] => .ok ()
  | e :: es => do
    e.checkQueries scope
    Expr.checkQueriesList scope es

def Expr.checkQueriesOption (scope : Scope) : Option Expr → Except Failure Unit
  | none => .ok ()
  | some e => e.checkQueries scope

def Branch.checkQueriesList (scope : Scope) : List Branch → Except Failure Unit
  | [] => .ok ()
  | ⟨condition, result⟩ :: bs => do
    condition.checkQueries scope
    result.checkQueries scope
    Branch.checkQueriesList scope bs

def OrderTerm.checkQueriesList (scope : Scope) : List OrderTerm → Except Failure Unit
  | [] => .ok ()
  | ⟨expr, _⟩ :: ts => do
    expr.checkQueries scope
    OrderTerm.checkQueriesList scope ts

/-- The expressions of a clause, each with its subqueries before the next. -/
def Expr.checkList (scope : Scope) (label : String) : List Expr → Except Failure Unit
  | [] => .ok ()
  | e :: es => do
    scope.checkExpr label e
    e.checkQueries scope
    Expr.checkList scope label es

def Expr.checkOption (scope : Scope) (label : String) : Option Expr → Except Failure Unit
  | none => .ok ()
  | some e => do
    scope.checkExpr label e
    e.checkQueries scope

def OrderTerm.checkList (scope : Scope) (label : String) : List OrderTerm → Except Failure Unit
  | [] => .ok ()
  | ⟨expr, _⟩ :: ts => do
    scope.checkExpr label expr
    expr.checkQueries scope
    OrderTerm.checkList scope label ts

def Column.checkList (scope : Scope) (label : String) : List Column → Except Failure Unit
  | [] => .ok ()
  | ⟨_, expr, _⟩ :: cs => do
    scope.checkExpr label expr
    expr.checkQueries scope
    Column.checkList scope label cs

/-- The selects that a source holds. They see what the select that reads them sees, but not each
other. -/
def Source.check (scope : Scope) : Source → Except Failure Unit
  | .table .. => .ok ()
  | .subquery query => query.check scope
  | .join _ left right _ => do
    left.check scope
    right.check scope

def Source.checkOption (scope : Scope) : Option Source → Except Failure Unit
  | none => .ok ()
  | some source => source.check scope

/-- The conditions of the joins of a source, in the scope of the whole source. -/
def Source.checkConditions (scope : Scope) (label : String) : Source → Except Failure Unit
  | .table .. | .subquery _ => .ok ()
  | .join _ left right condition => do
    left.checkConditions scope label
    right.checkConditions scope label
    Expr.checkOption scope label condition

def Source.checkConditionsOption (scope : Scope) (label : String) :
    Option Source → Except Failure Unit
  | none => .ok ()
  | some source => source.checkConditions scope label

def Select.check (scope : Scope) : Select → Except Failure Unit
  | s@⟨label, columns, source, filter, ordering, grouping, clustering, _, _, _, _⟩ => do
    s.checkNames
    Source.checkOption scope source
    let inner := Source.frameOption source :: scope
    Column.checkList inner label columns
    Expr.checkOption inner label filter
    OrderTerm.checkList inner label ordering
    Expr.checkList inner label grouping
    Expr.checkList inner label clustering
    Source.checkConditionsOption inner label source

end

/-- No label may be declared twice in a query. -/
def Projection.checkLabels (p : Projection) : Except Failure Unit :=
  match firstRepeated? [] p.labels with
  | some label => .error (.labelDeclaredTwice label)
  | none => .ok ()

/-- The projector sees the top select alone. -/
def Projection.checkProjector (p : Projection) : Except Failure Unit :=
  match p.projector.exprs.findSome? (Scope.exprError? [(Source.subquery p.select).frame]) with
  | some error => .error (.projectorReference error)
  | none => .ok ()

def Projection.check (p : Projection) : Except Failure Unit := do
  p.checkLabels
  p.select.check []
  p.checkProjector

/-- The queries of a statement, in order. -/
def Statement.check (s : Statement) : Except Failure Unit :=
  s.queries.forM Projection.check

end HiveQuery
