import HiveQuery.Number.Binary64
import HiveQuery.Tree.DataType
/-!
# Query trees

A statement is a query or a batch of statements. A query is a select together with the projector
that makes one value of each of its rows. Selects, the sources they read and the expressions they
hold contain each other.

Every select and every table occurrence carries a *label*, the alias under which its columns are
read; a column reference names a label and a column.
-/

namespace HiveQuery

/-! ## Literals and operators -/

/-- The value of a literal. An integer and a floating-point number are never equal. -/
inductive Literal where
  | null
  | bool (value : Bool)
  | int (value : Int64)
  | float (value : Binary64)
  | string (value : String)

inductive BinaryOp where
  | add
  | sub
  | mul
  | div
  | mod
  | eq
  | ne
  | lt
  | le
  | gt
  | ge
  | and
  | or
  | like
  deriving DecidableEq

inductive UnaryOp where
  | neg
  | not
  deriving DecidableEq

inductive AggregateFunction where
  | count
  | sum
  | avg
  | min
  | max
  deriving DecidableEq

inductive JoinKind where
  | inner
  | leftOuter
  | rightOuter
  | fullOuter
  | cross
  | leftSemi
  deriving DecidableEq

inductive Direction where
  | ascending
  | descending
  deriving DecidableEq

/-- The opposite direction. -/
def Direction.flip : Direction → Direction
  | ascending => descending
  | descending => ascending

@[simp] theorem Direction.flip_flip (d : Direction) : d.flip.flip = d := by
  cases d <;> rfl

/-! ## Trees -/

mutual

inductive Expr where
  /-- The column `name` of the table or select labelled `label`. -/
  | column (label name : String)
  | literal (value : Literal)
  | binary (op : BinaryOp) (left right : Expr)
  | unary (op : UnaryOp) (operand : Expr)
  | isNull (operand : Expr) (negated : Bool)
  | cast (operand : Expr) (type : DataType)
  | caseWhen (branches : List Branch) (otherwise : Option Expr)
  /-- A function call; a user-defined function names the resource file that it needs. -/
  | call (name : String) (args : List Expr) (resource : Option String)
  | aggregate (function : AggregateFunction) (arg : Option Expr) (distinct : Bool)
  /-- The rank of a row in the given order. -/
  | rowNumber (order : List OrderTerm)
  | scalarQuery (query : Select)
  | existsQuery (query : Select)
  | inQuery (operand : Expr) (query : Select)
  /-- The identity that the store generates for a member of an entity. -/
  | generatedId (member : String)

/-- One `WHEN … THEN …` of a case expression. -/
structure Branch where
  condition : Expr
  result : Expr

structure OrderTerm where
  expr : Expr
  direction : Direction

/-- The declaration of a column of a select. -/
structure Column where
  name : String
  expr : Expr
  type : DataType

/-- What a select reads. -/
inductive Source where
  | table (name label : String)
  | subquery (query : Select)
  | join (kind : JoinKind) (left right : Source) (condition : Option Expr)

structure Select where
  label : String
  columns : List Column
  source : Option Source := none
  filter : Option Expr := none
  ordering : List OrderTerm := []
  grouping : List Expr := []
  clustering : List Expr := []
  distinct : Bool := false
  skip : Option UInt64 := none
  take : Option UInt64 := none
  reversed : Bool := false

end

/-- The expression that gives a member of an entity its value. -/
structure Binding where
  member : String
  expr : Expr

/-- How a row becomes a value. -/
inductive Projector where
  /-- An instance of a mapped entity, with one binding for each member. -/
  | entity (name : String) (bindings : List Binding)
  | scalar (expr : Expr)

/-- A query: a select and the projector that reads its rows. -/
structure Projection where
  select : Select
  projector : Projector

inductive Statement where
  | query (projection : Projection)
  | batch (statements : List Statement)

/-! ## Expressions -/

namespace Expr

mutual

/-- Whether an expression aggregates on its own level. An aggregate inside a subquery belongs to the
subquery, and the order of a row number is no part of it. -/
def aggregates : Expr → Bool
  | aggregate .. => true
  | column .. | literal _ | generatedId _ | scalarQuery _ | existsQuery _ | rowNumber _ => false
  | binary _ left right => left.aggregates || right.aggregates
  | unary _ operand | isNull operand _ | cast operand _ | inQuery operand _ => operand.aggregates
  | caseWhen branches otherwise => aggregatesBranches branches || aggregatesOption otherwise
  | call _ args _ => aggregatesList args

def aggregatesList : List Expr → Bool
  | [] => false
  | e :: es => e.aggregates || aggregatesList es

def aggregatesOption : Option Expr → Bool
  | none => false
  | some e => e.aggregates

def aggregatesBranches : List Branch → Bool
  | [] => false
  | ⟨condition, result⟩ :: bs => condition.aggregates || result.aggregates || aggregatesBranches bs

end

@[simp] theorem aggregatesList_eq (es : List Expr) : aggregatesList es = es.any aggregates := by
  induction es with
  | nil => rfl
  | cons e es ih => simp [aggregatesList, ih]

mutual

/-- The expressions that make up an expression on its own level, parts before wholes. The selects of
its subqueries are not entered. -/
def level : Expr → List Expr
  | e@(binary _ left right) => left.level ++ right.level ++ [e]
  | e@(unary _ operand) | e@(isNull operand _) | e@(cast operand _) | e@(inQuery operand _) =>
    operand.level ++ [e]
  | e@(caseWhen branches otherwise) => levelBranches branches ++ levelOption otherwise ++ [e]
  | e@(call _ args _) => levelList args ++ [e]
  | e@(aggregate _ arg _) => levelOption arg ++ [e]
  | e@(rowNumber order) => levelTerms order ++ [e]
  | e => [e]

def levelList : List Expr → List Expr
  | [] => []
  | e :: es => e.level ++ levelList es

def levelOption : Option Expr → List Expr
  | none => []
  | some e => e.level

def levelBranches : List Branch → List Expr
  | [] => []
  | ⟨condition, result⟩ :: bs => condition.level ++ result.level ++ levelBranches bs

def levelTerms : List OrderTerm → List Expr
  | [] => []
  | ⟨expr, _⟩ :: ts => expr.level ++ levelTerms ts

end

/-- The label and the name of a column reference. -/
def ref? : Expr → Option (String × String)
  | column label name => some (label, name)
  | _ => none

/-- The select of a subquery. -/
def query? : Expr → Option Select
  | scalarQuery query | existsQuery query | inQuery _ query => some query
  | _ => none

/-- The column references that an expression makes itself, those of its subqueries apart. -/
def localRefs (e : Expr) : List (String × String) :=
  e.level.filterMap ref?

def int (value : Int64) : Expr :=
  literal (.int value)

def string (value : String) : Expr :=
  literal (.string value)

def and (left right : Expr) : Expr :=
  binary .and left right

/-- A call of a user-defined function. -/
def userCall (name : String) (args : List Expr) (resource : String) : Expr :=
  call name args (some resource)

end Expr

namespace OrderTerm

def ascending (expr : Expr) : OrderTerm :=
  ⟨expr, .ascending⟩

def flip (term : OrderTerm) : OrderTerm :=
  { term with direction := term.direction.flip }

end OrderTerm

/-! ## Selects -/

namespace Select

/-- Whether a skip or a take is still to be applied. -/
def hasPaging (s : Select) : Bool :=
  s.skip.isSome || s.take.isSome

def hasAggregates (s : Select) : Bool :=
  s.columns.any (·.expr.aggregates)

/-- Whether the rows of a select no longer correspond to those of its source. -/
def collapses (s : Select) : Bool :=
  !s.grouping.isEmpty || s.distinct || s.hasAggregates

/-- The first column of a name. -/
def column? (s : Select) (name : String) : Option Column :=
  s.columns.find? (·.name == name)

/-- The reference to a column of a select from outside of it. -/
def ref (s : Select) (name : String) : Expr :=
  .column s.label name

def columnNames (s : Select) : List String :=
  s.columns.map (·.name)

end Select

/-! ## Statements -/

/-- The expressions that a projector reads, in the order of its bindings. -/
def Projector.exprs : Projector → List Expr
  | entity _ bindings => bindings.map (·.expr)
  | scalar expr => [expr]

namespace Statement

mutual

/-- The queries of a statement, batches being flattened. -/
def queries : Statement → List Projection
  | query projection => [projection]
  | batch statements => queriesList statements

def queriesList : List Statement → List Projection
  | [] => []
  | s :: ss => s.queries ++ queriesList ss

end

variable {m : Type → Type} [Monad m]

mutual

/-- The statement with each of its queries replaced, in order. -/
def mapQueriesM (f : Projection → m Projection) : Statement → m Statement
  | query projection => query <$> f projection
  | batch statements => batch <$> mapQueriesListM f statements

def mapQueriesListM (f : Projection → m Projection) : List Statement → m (List Statement)
  | [] => pure []
  | s :: ss => do
    let s ← s.mapQueriesM f
    let ss ← mapQueriesListM f ss
    return s :: ss

end

end Statement

end HiveQuery
