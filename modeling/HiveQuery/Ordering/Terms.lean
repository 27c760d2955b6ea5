import HiveQuery.Naming
import HiveQuery.Tree.Equality
/-!
# Order terms

Operations on lists of order terms: a term whose expression has come before decides nothing and is
dropped, a reversed order flips every term, and the terms of a select are expressed through its
columns so that a select around it can use them.
-/

namespace HiveQuery

namespace OrderTerm

/-- The terms whose expression is neither that of a kept term nor that of an earlier one. -/
def keepNew (kept : List OrderTerm) : List OrderTerm → List OrderTerm
  | [] => []
  | term :: terms =>
    if kept.any (·.expr == term.expr) then keepNew kept terms
    else term :: keepNew (kept ++ [term]) terms

/-- Of the terms with the same expression, the first. -/
def withoutRepeats (terms : List OrderTerm) : List OrderTerm :=
  keepNew [] terms

/-- Every term in the other direction. -/
def flipAll (terms : List OrderTerm) : List OrderTerm :=
  terms.map flip

end OrderTerm

namespace Select

/-- A select that declares the expression, and the name of the column: the first one that declares
it, or else a new column `c0`, `c1`, … of unknown type. -/
def carrying (s : Select) (expr : Expr) : Select × String :=
  match s.columnFor? expr with
  | some column => (s, column.name)
  | none =>
    let name := Column.numberedName s.columns "c"
    ({ s with columns := s.columns ++ [⟨name, expr, .unknown⟩] }, name)

/-- The select with a column for the expression of each term, and the terms as references to these
columns from outside. -/
def exposing (s : Select) : List OrderTerm → Select × List OrderTerm
  | [] => (s, [])
  | term :: terms =>
    let (carrier, name) := s.carrying term.expr
    let (exposed, refs) := carrier.exposing terms
    (exposed, ⟨s.ref name, term.direction⟩ :: refs)

end Select

end HiveQuery
