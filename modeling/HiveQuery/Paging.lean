import HiveQuery.Ordering.Terms
import HiveQuery.Trace
import HiveQuery.Tree.Transform
/-!
# Paging by row numbers

The dialect has no way to skip rows. A paged select becomes two: the inner one numbers the rows in
the order of the page, the outer one keeps the rows whose numbers lie on the page and orders them by
their numbers. The outer select has the label and the column names of the paged one, so whatever
reads it keeps resolving. A distinct or grouped select gets a further level between, so that the row
number takes no part in the grouping.
-/

namespace HiveQuery

/-! ## The bounds of a page -/

/-- A bound as a literal, which is a signed integer of 64 bits. -/
def pageBound (n : Nat) : Except Failure Expr :=
  if n ≤ Int64.maxValue.toInt then .ok (.int (Int64.ofNat n)) else .error (.boundTooLarge n)

/-- The row numbers above the skipped ones. -/
def afterBound (rowNumber : Expr) (n : Nat) : Except Failure Expr :=
  (pageBound n).map (.binary .gt rowNumber)

/-- The row numbers up to the last one of the page. -/
def upToBound (rowNumber : Expr) (n : Nat) : Except Failure Expr :=
  (pageBound n).map (.binary .le rowNumber)

/-- The condition that a row number lies on a page. -/
def pagePredicate (rowNumber : Expr) : Option UInt64 → Option UInt64 → Except Failure Expr
  | some skip, some take => do
    let last := skip.toNat + take.toNat
    if UInt64.size ≤ last then .error (.pageEndTooLarge skip take)
    let after ← afterBound rowNumber skip.toNat
    let upTo ← upToBound rowNumber last
    return .and after upTo
  | some skip, none => afterBound rowNumber skip.toNat
  | none, some take => upToBound rowNumber take.toNat
  | none, none => .error .noPagingBound

/-! ## Selects -/

/-- A computation that draws labels from a supply. -/
abbrev Labelling := StateT LabelSupply Traced

def freshLabel : Labelling String :=
  modifyGet LabelSupply.fresh

namespace Select

/-- The order of a page that none was given for: by the columns as they are declared, whole
subqueries apart. -/
def defaultOrder (s : Select) : List OrderTerm :=
  (s.columns.filter (·.expr.query?.isNone)).map (.ascending ·.expr)

/-- The order in which the rows are numbered. -/
def pageOrder (s : Select) : Traced (List OrderTerm) :=
  if s.ordering.isEmpty then do
    .emit (.pagingWithoutOrdering s.label)
    if s.defaultOrder.isEmpty then .fail (.noPagingOrder s.label)
    return s.defaultOrder
  else return s.ordering

/-- The select under another label, without ordering and paging. -/
def unpaged (s : Select) (label : String) : Select :=
  { s with label, skip := none, take := none, ordering := [], reversed := false }

/-- A column for each column of the select, read from outside. -/
def forwardedColumns (s : Select) : List Column :=
  s.columns.map fun c => { c with expr := s.ref c.name }

/-- The terms expressed through the columns of the select. A distinct select cannot be given further
columns. -/
def exposingAll (s : Select) (terms : List OrderTerm) : Except Failure (Select × List OrderTerm) :=
  if s.distinct && terms.any fun term => (s.columnFor? term.expr).isNone then
    .error (.orderNotProjected s.label)
  else .ok (s.exposing terms)

/-- A plain select that reads all columns of the given one. -/
def wrapped (s : Select) (label : String) : Select :=
  { label, columns := s.forwardedColumns, source := some (.subquery s) }

/-- Put a level over a select whose rows are not those of its source, and express the order there. -/
def wrap (s : Select) (order : List OrderTerm) : Labelling (Select × List OrderTerm) := do
  let (base, order) ← (Traced.ofExcept (s.exposingAll order) : Traced _)
  let label ← freshLabel
  return (base.wrapped label, order)

/-- The select with a further column that numbers its rows. -/
def numbering (s : Select) (name : String) (order : List OrderTerm) : Select :=
  { s with columns := s.columns ++ [⟨name, .rowNumber order, .int⟩] }

/-- The select that keeps the rows of a page, under the label and with the columns of the paged
select. -/
def pageOver (s numbered : Select) (rowNumber filter : Expr) : Select where
  label := s.label
  columns := s.columns.map fun c => { c with expr := numbered.ref c.name }
  source := some (.subquery numbered)
  filter := some filter
  ordering := [.ascending rowNumber]

/-- The page of a select as a condition on row numbers. A skip of nothing alone needs none. -/
def page (rowNumberColumn : String) (s : Select) : Labelling Select := do
  let skip := s.skip.filter (0 < ·)
  if skip.isNone && s.take.isNone then return { s with skip := none }
  let order ← (s.pageOrder : Traced _)
  let label ← freshLabel
  let base := s.unpaged label
  let (numbered, order) ←
    if s.distinct || !s.grouping.isEmpty then base.wrap order else pure (base, order)
  let name := Column.availableName numbered.columns rowNumberColumn
  let rowNumber := numbered.ref name
  let filter ← (Traced.ofExcept (pagePredicate rowNumber skip s.take) : Traced _)
  (Traced.emit (.pagingReplaced s.label numbered.label skip s.take) : Traced _)
  return s.pageOver (numbered.numbering name order) rowNumber filter

end Select

/-! ## Statements -/

/-- The pages of the selects of a tree, from the innermost selects outwards. -/
def Transform.paging (rowNumberColumn : String) : Transform Labelling where
  leaf e := pure e
  select _ s := if s.hasPaging then s.page rowNumberColumn else pure s

/-- Replace every skip and take by a condition on row numbers. -/
def Statement.replacePaging (rowNumberColumn : String) (s : Statement) : Traced Statement :=
  (s.transform (.paging rowNumberColumn)).run' (.ofStatement s)

end HiveQuery
