import HiveQuery.Failure
import HiveQuery.Text.Quoted
/-!
# Dialects

What a query text may hold, as facts about the system that reads it.
-/

namespace HiveQuery

structure Dialect where
  name : String
  /-- Identifiers stand between backticks. -/
  quotesIdentifiers : Bool
  /-- Several queries may stand in one text. -/
  allowsSeveralQueries : Bool
  /-- A subquery of an expression may have no source. -/
  allowsSubqueryWithoutSource : Bool
  allowsDistinctAggregates : Bool
  /-- The store can generate identities. -/
  hasGeneratedIds : Bool
  deriving DecidableEq

namespace Dialect

def hive : Dialect where
  name := "hive"
  quotesIdentifiers := false
  allowsSeveralQueries := false
  allowsSubqueryWithoutSource := true
  allowsDistinctAggregates := true
  hasGeneratedIds := false

/-- A name as it stands in a text. -/
def quote (d : Dialect) (name : String) : String :=
  if d.quotesIdentifiers then Text.quoteIdentifier name else name

/-- The expression that reads the identity generated for a member. -/
def generatedId (d : Dialect) (member : String) : Except Failure Expr :=
  if d.hasGeneratedIds then .ok (.generatedId member)
  else .error (.noGeneratedId d.name member)

end Dialect

end HiveQuery
