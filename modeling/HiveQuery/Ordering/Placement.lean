import HiveQuery.Ordering.Terms
import HiveQuery.Scope
import HiveQuery.Trace
/-!
# Where orderings stand

The rows of a subquery lose their order once a select around it reads them. So an ordering has an
effect in two places only: on the top select, and on a select whose skip or take depends on it. This
pass moves every ordering there, from the innermost selects outwards.

* The ordering of a subquery in a source is lifted into the select that reads it, behind that
  select's own terms and expressed through the columns of the subquery.
* A select that is grouped, distinct or aggregating neither receives terms nor passes its own on.
* The ordering of a subquery in an expression is dropped unless the subquery is paged.
* A reversed select gets its terms flipped and is no longer reversed.
-/

namespace HiveQuery

/-- Where a select stands in its query. -/
inductive Placement where
  /-- The select that the projector reads. -/
  | outermost
  /-- A subquery of a source. -/
  | source
  /-- A subquery of an expression. -/
  | expression
  deriving DecidableEq

namespace Select

/-- Whether an ordering on the select has an effect. -/
def mayOrder (placement : Placement) (s : Select) : Bool :=
  placement == .outermost || s.hasPaging

/-- Whether the select hands its terms to the select that reads it. -/
def passesOn (placement : Placement) (s : Select) : Bool :=
  placement == .source && !s.collapses

/-- Whether the select takes the terms of its source. -/
def receives (placement : Placement) (s : Select) : Bool :=
  s.mayOrder placement && !s.collapses

/-- The terms of the select itself. -/
def ownTerms (s : Select) : List OrderTerm :=
  let terms := OrderTerm.withoutRepeats s.ordering
  if s.reversed then OrderTerm.flipAll terms else terms

/-- The terms of the select itself, and behind them those gathered from its source. -/
def allTerms (s : Select) (gathered : List OrderTerm) : List OrderTerm :=
  let terms := OrderTerm.withoutRepeats (OrderTerm.withoutRepeats s.ordering ++ gathered)
  if s.reversed then OrderTerm.flipAll terms else terms

/-- The select with the ordering that it keeps. -/
def arranged (placement : Placement) (s : Select) (gathered : List OrderTerm) : Select :=
  { s with
    ordering :=
      if s.receives placement then s.allTerms gathered
      else if s.mayOrder placement then s.ownTerms
      else []
    reversed := false }

/-- The terms that the select passes on, in the scope of its own source. -/
def passed (placement : Placement) (s : Select) (gathered : List OrderTerm) : List OrderTerm :=
  if s.passesOn placement then s.allTerms gathered else []

/-- What is lost when the select is arranged. -/
def arrangeEvents (placement : Placement) (s : Select) (gathered : List OrderTerm) : List Event :=
  (if !gathered.isEmpty && !s.receives placement && !s.passesOn placement then
      [.orderingDropped s.label gathered.length]
    else [])
  ++ (if !s.mayOrder placement && !s.ordering.isEmpty then [.orderingRemoved s.label] else [])

/-- Settle the ordering of a select whose parts are settled, once its own terms resolve. -/
def arrange (scope : Scope) (placement : Placement) (s : Select) (gathered : List OrderTerm) :
    Traced (Select × List OrderTerm) :=
  match s.ordering.findSome? fun term => scope.exprError? term.expr with
  | some error => .fail (.orderTerm s.label error)
  | none =>
    .report (s.arrangeEvents placement gathered)
      (s.arranged placement gathered, s.passed placement gathered)

/-- The subquery with the terms it passes on lifted out of it. -/
def lifted (s : Select) (terms : List OrderTerm) : Traced (Source × List OrderTerm) :=
  if terms.isEmpty then pure (.subquery s, [])
  else
    let (exposed, refs) := s.exposing terms
    .report [.orderingLifted exposed.label refs.length] (.subquery exposed, refs)

end Select

mutual

def Expr.placeOrderings (scope : Scope) : Expr → Traced Expr
  | e@(.column ..) | e@(.literal _) | e@(.generatedId _) => pure e
  | .binary op left right => do
    let left ← left.placeOrderings scope
    let right ← right.placeOrderings scope
    return .binary op left right
  | .unary op operand => do
    let operand ← operand.placeOrderings scope
    return .unary op operand
  | .isNull operand negated => do
    let operand ← operand.placeOrderings scope
    return .isNull operand negated
  | .cast operand type => do
    let operand ← operand.placeOrderings scope
    return .cast operand type
  | .caseWhen branches otherwise => do
    let branches ← Branch.placeOrderingsList scope branches
    let otherwise ← Expr.placeOrderingsOption scope otherwise
    return .caseWhen branches otherwise
  | .call name args resource => do
    let args ← Expr.placeOrderingsList scope args
    return .call name args resource
  | .aggregate function arg distinct => do
    let arg ← Expr.placeOrderingsOption scope arg
    return .aggregate function arg distinct
  | .rowNumber order => do
    let order ← OrderTerm.placeOrderingsList scope order
    return .rowNumber order
  | .scalarQuery query => do
    let (query, _) ← query.placeOrderings scope .expression
    return .scalarQuery query
  | .existsQuery query => do
    let (query, _) ← query.placeOrderings scope .expression
    return .existsQuery query
  | .inQuery operand query => do
    let operand ← operand.placeOrderings scope
    let (query, _) ← query.placeOrderings scope .expression
    return .inQuery operand query

def Expr.placeOrderingsList (scope : Scope) : List Expr → Traced (List Expr)
  | [] => pure []
  | e :: es => do
    let e ← e.placeOrderings scope
    let es ← Expr.placeOrderingsList scope es
    return e :: es

def Expr.placeOrderingsOption (scope : Scope) : Option Expr → Traced (Option Expr)
  | none => pure none
  | some e => do
    let e ← e.placeOrderings scope
    return some e

def Branch.placeOrderingsList (scope : Scope) : List Branch → Traced (List Branch)
  | [] => pure []
  | ⟨condition, result⟩ :: bs => do
    let condition ← condition.placeOrderings scope
    let result ← result.placeOrderings scope
    let bs ← Branch.placeOrderingsList scope bs
    return ⟨condition, result⟩ :: bs

def OrderTerm.placeOrderingsList (scope : Scope) : List OrderTerm → Traced (List OrderTerm)
  | [] => pure []
  | ⟨expr, direction⟩ :: ts => do
    let expr ← expr.placeOrderings scope
    let ts ← OrderTerm.placeOrderingsList scope ts
    return ⟨expr, direction⟩ :: ts

def Column.placeOrderingsList (scope : Scope) : List Column → Traced (List Column)
  | [] => pure []
  | ⟨name, expr, type⟩ :: cs => do
    let expr ← expr.placeOrderings scope
    let cs ← Column.placeOrderingsList scope cs
    return ⟨name, expr, type⟩ :: cs

/-- A source with its subqueries settled, and the terms that they pass on, from left to right. The
condition of a join sees the two sides of the join. -/
def Source.placeOrderings (scope : Scope) : Source → Traced (Source × List OrderTerm)
  | .table name label => pure (.table name label, [])
  | .subquery query => do
    let (query, passed) ← query.placeOrderings scope .source
    query.lifted passed
  | .join kind left right condition => do
    let (left, fromLeft) ← left.placeOrderings scope
    let (right, fromRight) ← right.placeOrderings scope
    let sides := (Source.join kind left right none).frame
    let condition ← Expr.placeOrderingsOption (sides :: scope) condition
    return (.join kind left right condition, fromLeft ++ fromRight)

def Source.placeOrderingsOption (scope : Scope) :
    Option Source → Traced (Option Source × List OrderTerm)
  | none => pure (none, [])
  | some source => do
    let (source, gathered) ← source.placeOrderings scope
    return (some source, gathered)

/-- A select with its orderings settled, and the terms that it passes on. Its clauses see the source
as it is after the lifting. -/
def Select.placeOrderings (scope : Scope) (placement : Placement) :
    Select → Traced (Select × List OrderTerm)
  | ⟨label, columns, source, filter, ordering, grouping, clustering, distinct, skip, take,
      reversed⟩ => do
    let (source, gathered) ← Source.placeOrderingsOption scope source
    let inner := Source.frameOption source :: scope
    let columns ← Column.placeOrderingsList inner columns
    let filter ← Expr.placeOrderingsOption inner filter
    let grouping ← Expr.placeOrderingsList inner grouping
    let clustering ← Expr.placeOrderingsList inner clustering
    let ordering ← OrderTerm.placeOrderingsList inner ordering
    Select.arrange inner placement
      ⟨label, columns, source, filter, ordering, grouping, clustering, distinct, skip, take,
        reversed⟩ gathered

end

/-- The query with the orderings of its select settled. The projector is left as it is. -/
def Projection.placeOrderings (p : Projection) : Traced Projection := do
  let (select, _) ← p.select.placeOrderings [] .outermost
  return { p with select }

/-- Move every ordering to a select where it has an effect. -/
def Statement.placeOrderings (s : Statement) : Traced Statement :=
  s.mapQueriesM Projection.placeOrderings

end HiveQuery
