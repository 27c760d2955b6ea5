import HiveQuery.Failure
/-!
# Scopes

A select sees the labels that its source declares and, behind them, those of the selects around it.
A scope is the stack of these frames, the innermost first. A reference is looked up in the innermost
frame that declares its label; a table shows every column name, a select the columns it declares.
-/

namespace HiveQuery

/-- What a label shows. -/
inductive Visible where
  /-- A table, whose columns are not known: every name resolves. -/
  | table
  | columns (names : List String)
  deriving DecidableEq

/-- The labels that one source declares. The first entry of a label counts. -/
abbrev Frame := List (String × Visible)

/-- The frames that are visible at a place, the innermost first. -/
abbrev Scope := List Frame

/-- The labels that a source declares, a later declaration hiding an earlier one. -/
def Source.frame : Source → Frame
  | table _ label => [(label, .table)]
  | subquery query => [(query.label, .columns query.columnNames)]
  | join _ left right _ => right.frame ++ left.frame

def Source.frameOption : Option Source → Frame
  | none => []
  | some source => source.frame

namespace Scope

/-- What a label shows at a place. -/
def find? (scope : Scope) (label : String) : Option Visible :=
  scope.findSome? (·.lookup label)

/-- Why a reference does not resolve, `none` if it does. -/
def error? (scope : Scope) (ref : String × String) : Option ScopeError :=
  match scope.find? ref.1 with
  | some .table => none
  | some (.columns names) => if names.contains ref.2 then none else some (.noColumn ref.1 ref.2)
  | none => some (.notInScope ref.1 ref.2)

/-- The first reference of an expression that does not resolve. The references inside of its
subqueries belong to them. -/
def exprError? (scope : Scope) (e : Expr) : Option ScopeError :=
  e.localRefs.findSome? scope.error?

end Scope

end HiveQuery
