import HiveQuery.Number.Binary64
import HiveQuery.Tree.Basic
/-!
# Failures

The causes for which a statement is refused, in three kinds: the target dialect cannot express what
is asked, the tree breaks a rule that the passes rely on, or an entity is not mapped. The wording of
every cause stands here and nowhere else.
-/

namespace HiveQuery

/-- Why a column reference does not resolve. -/
inductive ScopeError where
  | noColumn (label name : String)
  | notInScope (label name : String)
  deriving DecidableEq

def ScopeError.message : ScopeError → String
  | noColumn label name => "'" ++ label ++ "' declares no column '" ++ name ++ "'"
  | notInScope label name =>
    "alias '" ++ label ++ "' is not in scope for '" ++ label ++ "." ++ name ++ "'"

/-- A setting that cannot be accepted. -/
inductive SettingError where
  | rowNumberColumn (name : String)
  | positionalFallback (text : String)
  | logFormat (text : String)
  | logOutput (text : String)
  | logLevel (text : String)
  | logDirective (text : String)
  | logActive
  deriving DecidableEq

def SettingError.message (e : SettingError) : String :=
  "Invalid configuration value: " ++
    match e with
    | rowNumberColumn name => "row_number_column '" ++ name ++ "' is not a plain identifier"
    | positionalFallback text =>
      "HQL_ALLOW_POSITIONAL_FALLBACK must be a boolean, got '" ++ text ++ "'"
    | logFormat text => "unknown log format '" ++ text ++ "'"
    | logOutput text => "unknown log output '" ++ text ++ "'"
    | logLevel text =>
      "log level '" ++ text ++ "': error parsing level filter: expected one of \"off\", \"error\", "
        ++ "\"warn\", \"info\", \"debug\", \"trace\", or a number 0-5"
    | logDirective text => "log level '" ++ text ++ "': invalid filter directive"
    | logActive =>
      "logging already initialized: a global default trace dispatcher has already been set"

inductive Failure where
  -- What the dialect cannot express.
  | setting (error : SettingError)
  | boundTooLarge (bound : Nat)
  | pageEndTooLarge (skip take : UInt64)
  | orderNotProjected (label : String)
  | severalQueries (dialect : String) (count : Nat)
  | skipLeft (dialect label : String)
  | subqueryWithoutSource (dialect label : String)
  | distinctAggregate (dialect : String) (function : AggregateFunction)
  | noGeneratedId (dialect member : String)
  | noGeneratedIdText (dialect member : String)
  | notFinite (x : Binary64)
  -- Rules that the passes rely on.
  | orderTerm (label : String) (error : ScopeError)
  | noPagingOrder (label : String)
  | noPagingBound
  | columnsFixed (label name : String)
  | columnReferenced (label name : String)
  | noSuchColumn (label name : String)
  | columnMappedTwice (entity column : String)
  | noColumnAtPosition (label entity member : String)
  | noColumnOfName (label column entity member : String)
  | columnDeclaredTwice (label column : String)
  | labelDeclaredTwice (label : String)
  | selectReference (label : String) (error : ScopeError)
  | projectorReference (error : ScopeError)
  | noQuery
  | reversedLeft (label : String)
  | noArgument (function : AggregateFunction)
  -- The mapping.
  | unknownEntity (name : String)
  deriving DecidableEq

inductive FailureKind where
  | unsupported
  | inconsistent
  | unknownEntity
  deriving DecidableEq

/-- The name of an aggregate function in a query text. -/
def AggregateFunction.text : AggregateFunction → String
  | count => "COUNT"
  | sum => "SUM"
  | avg => "AVG"
  | min => "MIN"
  | max => "MAX"

/-- The name of a number that is not finite. -/
def Binary64.specialText (x : Binary64) : String :=
  if x.isNaN then "NaN" else if x.negative then "-inf" else "inf"

namespace Failure

def kind : Failure → FailureKind
  | setting _ | boundTooLarge _ | pageEndTooLarge .. | orderNotProjected _ | severalQueries ..
  | skipLeft .. | subqueryWithoutSource .. | distinctAggregate .. | noGeneratedId ..
  | noGeneratedIdText .. | notFinite _ => .unsupported
  | unknownEntity _ => .unknownEntity
  | _ => .inconsistent

/-- What a failure says after the words of its kind. -/
def detail : Failure → String
  | setting error => error.message
  | boundTooLarge bound => "paging bound " ++ bound.repr ++ " exceeds BIGINT"
  | pageEndTooLarge skip take =>
    "skip " ++ skip.toNat.repr ++ " + take " ++ take.toNat.repr ++ " overflows"
  | orderNotProjected label =>
    "DISTINCT select '" ++ label ++ "' cannot be paged by an expression it does not project"
  | severalQueries dialect count =>
    dialect ++ " accepts a single statement per call, got " ++ count.repr
  | skipLeft dialect label =>
    dialect ++ " has no OFFSET; skip on '" ++ label ++ "' was not rewritten"
  | subqueryWithoutSource dialect label =>
    dialect ++ " does not allow subquery '" ++ label ++ "' without FROM"
  | distinctAggregate dialect function =>
    dialect ++ " does not allow DISTINCT inside " ++ function.text
  | noGeneratedId dialect member =>
    dialect ++ " has no generated identity for member '" ++ member ++ "'"
  | noGeneratedIdText dialect member =>
    dialect ++ " has no text form for the generated identity of '" ++ member ++ "'"
  | notFinite x => "non-finite literal " ++ x.specialText
  | orderTerm label error =>
    "order term of select '" ++ label ++ "' cannot be resolved: " ++ error.message
  | noPagingOrder label => "select '" ++ label ++ "' has no column to derive a paging order from"
  | noPagingBound => "paging predicate requested without skip or take"
  | columnsFixed label name =>
    "cannot remove '" ++ label ++ "." ++ name ++ "': the columns of '" ++ label ++ "' are fixed"
  | columnReferenced label name =>
    "cannot remove '" ++ label ++ "." ++ name ++ "': it is still referenced"
  | noSuchColumn label name => "no column '" ++ label ++ "." ++ name ++ "' to remove"
  | columnMappedTwice entity column =>
    "entity '" ++ entity ++ "' maps column '" ++ column ++ "' more than once"
  | noColumnAtPosition label entity member =>
    "select '" ++ label ++ "' has no column for member '" ++ entity ++ "." ++ member ++ "'"
  | noColumnOfName label column entity member =>
    "select '" ++ label ++ "' exposes no column '" ++ column ++ "' for member '" ++ entity ++ "."
      ++ member ++ "'"
  | columnDeclaredTwice label column =>
    "select '" ++ label ++ "' declares column '" ++ column ++ "' twice"
  | labelDeclaredTwice label => "alias '" ++ label ++ "' is declared twice"
  | selectReference label error => "select '" ++ label ++ "': " ++ error.message
  | projectorReference error => "projector: " ++ error.message
  | noQuery => "statement holds no query"
  | reversedLeft label => "select '" ++ label ++ "' still carries a reverse flag"
  | noArgument function => function.text ++ " without an argument"
  | unknownEntity name => name

def message (f : Failure) : String :=
  (match f.kind with
    | .unsupported => "Unsupported operation: "
    | .inconsistent => "Internal consistency error: "
    | .unknownEntity => "Entity not mapped: ") ++ f.detail

end Failure

end HiveQuery
