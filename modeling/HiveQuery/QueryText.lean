import HiveQuery.Dialect
import HiveQuery.Number.Shortest
/-!
# Query text

The text of a statement in a dialect. Nothing is written that the dialect cannot express or that an
earlier pass should have removed; such a tree is refused. Clauses stand on lines of their own,
subqueries are indented, and an operand is put in parentheses when it binds looser than its place
asks for.
-/

namespace HiveQuery

/-! ## Words and numbers -/

namespace QueryText

/-- Numbers from `0.0001` up to below `1e16` are written positionally, exponents without a plus, and
a tie goes up. -/
def numberLayout : NumberLayout where
  positionalFrom := -4
  positionalTo := 15
  exponentPlus := ""
  tie := .up

/-- How many blanks a subquery is indented by. -/
def indentStep : Nat := 2

def blanks (count : Nat) : String :=
  String.ofList (List.replicate count ' ')

def listed (parts : List String) : String :=
  String.intercalate ", " parts

/-- A clause on its own line, left out when it has no parts. -/
def clause (indent : Nat) (keyword : String) (parts : List String) : List String :=
  if parts.isEmpty then [] else [blanks indent ++ keyword ++ " " ++ listed parts]

/-- A subquery in its parentheses, which stand at the indentation of the text around it. -/
def enclosed (indent : Nat) (query : String) : String :=
  "(\n" ++ query ++ "\n" ++ blanks indent ++ ")"

end QueryText

open QueryText

def Literal.render : Literal → Except Failure String
  | null => .ok "NULL"
  | bool true => .ok "TRUE"
  | bool false => .ok "FALSE"
  | int value => .ok value.toInt.repr
  | float value => if value.isFinite then .ok (numberLayout.text value) else .error (.notFinite value)
  | string value => .ok (Text.quoteString value)

namespace BinaryOp

def symbol : BinaryOp → String
  | add => "+"
  | sub => "-"
  | mul => "*"
  | div => "/"
  | mod => "%"
  | eq => "="
  | ne => "<>"
  | lt => "<"
  | le => "<="
  | gt => ">"
  | ge => ">="
  | and => "AND"
  | or => "OR"
  | like => "LIKE"

/-- How tightly an operator binds, the loosest first. -/
def precedence : BinaryOp → Nat
  | or => 1
  | and => 2
  | eq | ne | lt | le | gt | ge | like => 3
  | add | sub => 4
  | mul | div | mod => 5

/-- The least precedence of a right operand that needs no parentheses. The four operators that are
taken for associative admit their own. -/
def rightFloor (op : BinaryOp) : Nat :=
  match op with
  | and | or | add | mul => op.precedence
  | _ => op.precedence + 1

end BinaryOp

def JoinKind.keyword : JoinKind → String
  | inner => "JOIN"
  | leftOuter => "LEFT OUTER JOIN"
  | rightOuter => "RIGHT OUTER JOIN"
  | fullOuter => "FULL OUTER JOIN"
  | cross => "CROSS JOIN"
  | leftSemi => "LEFT SEMI JOIN"

namespace Expr

/-- The precedence of what is never put in parentheses. -/
def atomPrecedence : Nat := 10

def precedence : Expr → Nat
  | binary op _ _ => op.precedence
  | isNull .. | inQuery .. => 3
  | _ => atomPrecedence

/-- The text of an operand, in parentheses if it binds looser than the floor. -/
def operandText (e : Expr) (floor : Nat) (text : String) : String :=
  if e.precedence < floor then "(" ++ text ++ ")" else text

end Expr

namespace UnaryOp

/-- A second minus is kept apart from the first, since two of them begin a comment. -/
def apply (op : UnaryOp) (operand : String) : String :=
  match op with
  | neg => if operand.toList.head? == some '-' then "-(" ++ operand ++ ")" else "-" ++ operand
  | not => "NOT " ++ operand

end UnaryOp

/-- The text of a column of a select; a reference to a column of the same name stands alone. -/
def Column.text (d : Dialect) (name : String) (expr : Expr) (text : String) : String :=
  match expr with
  | .column _ name' => if name' == name then text else text ++ " AS " ++ d.quote name
  | _ => text ++ " AS " ++ d.quote name

/-- Where a select stands. -/
inductive SelectPlace where
  | top
  | source
  | expression
  deriving DecidableEq

/-- What a select itself must not have. -/
def Select.accept (d : Dialect) (place : SelectPlace) (s : Select) : Except Failure Unit :=
  if s.reversed then .error (.reversedLeft s.label)
  else if s.skip.any (0 < ·) then .error (.skipLeft d.name s.label)
  else if s.source.isNone && place == .expression && !d.allowsSubqueryWithoutSource then
    .error (.subqueryWithoutSource d.name s.label)
  else .ok ()

/-- The line that bounds the number of rows, for a select that asks for it. -/
def Select.limitClause (indent : Nat) (s : Select) : List String :=
  clause indent "LIMIT" (s.take.map fun n => n.toNat.repr).toList

/-- What an aggregate itself must not have. -/
def AggregateFunction.accept (d : Dialect) (function : AggregateFunction) (hasArg distinct : Bool) :
    Except Failure Unit :=
  if distinct && !d.allowsDistinctAggregates then .error (.distinctAggregate d.name function)
  else if !hasArg && function != .count then .error (.noArgument function)
  else .ok ()

/-! ## Trees -/

mutual

def Expr.render (d : Dialect) (indent : Nat) : Expr → Except Failure String
  | .column label name => .ok (d.quote label ++ "." ++ d.quote name)
  | .literal value => value.render
  | .binary op left right => do
    let l ← left.render d indent
    let r ← right.render d indent
    return left.operandText op.precedence l ++ " " ++ op.symbol ++ " "
      ++ right.operandText op.rightFloor r
  | .unary op operand => do
    let text ← operand.render d indent
    return op.apply (operand.operandText Expr.atomPrecedence text)
  | .isNull operand negated => do
    let text ← operand.render d indent
    return operand.operandText Expr.atomPrecedence text
      ++ (if negated then " IS NOT NULL" else " IS NULL")
  | .cast operand type => do
    let text ← operand.render d indent
    return "CAST(" ++ text ++ " AS " ++ type.text ++ ")"
  | .caseWhen branches otherwise => do
    let branches ← Branch.renderList d indent branches
    let otherwise ← Expr.renderOption d indent otherwise
    return "CASE" ++ String.join branches
      ++ (match otherwise with
          | none => ""
          | some text => " ELSE " ++ text) ++ " END"
  | .call name args _ => do
    let args ← Expr.renderList d indent args
    return name ++ "(" ++ listed args ++ ")"
  | .aggregate function arg distinct => do
    function.accept d arg.isSome distinct
    let arg ← Expr.renderOption d indent arg
    return function.text ++ "(" ++ (if distinct then "DISTINCT " else "") ++ arg.getD "*" ++ ")"
  | .rowNumber order => do
    let order ← OrderTerm.renderList d indent order
    return "ROW_NUMBER() OVER ("
      ++ (if order.isEmpty then "" else "ORDER BY " ++ listed order) ++ ")"
  | .scalarQuery query => do
    let text ← query.render d (indent + indentStep) .expression
    return enclosed indent text
  | .existsQuery query => do
    let text ← query.render d (indent + indentStep) .expression
    return "EXISTS " ++ enclosed indent text
  | .inQuery operand query => do
    let left ← operand.render d indent
    let text ← query.render d (indent + indentStep) .expression
    return operand.operandText Expr.atomPrecedence left ++ " IN " ++ enclosed indent text
  | .generatedId member => do
    let _ ← d.generatedId member
    .error (.noGeneratedIdText d.name member)

def Expr.renderList (d : Dialect) (indent : Nat) : List Expr → Except Failure (List String)
  | [] => .ok []
  | e :: es => do
    let text ← e.render d indent
    let texts ← Expr.renderList d indent es
    return text :: texts

def Expr.renderOption (d : Dialect) (indent : Nat) : Option Expr → Except Failure (Option String)
  | none => .ok none
  | some e => do
    let text ← e.render d indent
    return some text

def Branch.renderList (d : Dialect) (indent : Nat) : List Branch → Except Failure (List String)
  | [] => .ok []
  | ⟨condition, result⟩ :: bs => do
    let condition ← condition.render d indent
    let result ← result.render d indent
    let texts ← Branch.renderList d indent bs
    return (" WHEN " ++ condition ++ " THEN " ++ result) :: texts

def OrderTerm.renderList (d : Dialect) (indent : Nat) :
    List OrderTerm → Except Failure (List String)
  | [] => .ok []
  | ⟨expr, direction⟩ :: ts => do
    let text ← expr.render d indent
    let texts ← OrderTerm.renderList d indent ts
    return (if direction = .descending then text ++ " DESC" else text) :: texts

def Column.renderList (d : Dialect) (indent : Nat) : List Column → Except Failure (List String)
  | [] => .ok []
  | ⟨name, expr, _⟩ :: cs => do
    let text ← expr.render d indent
    let texts ← Column.renderList d indent cs
    return Column.text d name expr text :: texts

def Source.render (d : Dialect) (indent : Nat) : Source → Except Failure String
  | .table name label => .ok (d.quote name ++ " " ++ d.quote label)
  | .subquery query => do
    let text ← query.render d (indent + indentStep) .source
    return enclosed indent text ++ " " ++ d.quote query.label
  | .join kind left right condition => do
    let left ← left.render d indent
    let right ← right.render d indent
    let condition ← Expr.renderOption d indent condition
    return left ++ "\n" ++ blanks indent ++ kind.keyword ++ " " ++ right
      ++ (match condition with
          | none => ""
          | some text => " ON " ++ text)

def Source.renderOption (d : Dialect) (indent : Nat) :
    Option Source → Except Failure (Option String)
  | none => .ok none
  | some s => do
    let text ← s.render d indent
    return some text

def Select.render (d : Dialect) (indent : Nat) (place : SelectPlace) :
    Select → Except Failure String
  | s@⟨_, columns, source, filter, ordering, grouping, clustering, distinct, _, _, _⟩ => do
    s.accept d place
    let columns ← Column.renderList d indent columns
    let source ← Source.renderOption d indent source
    let filter ← Expr.renderOption d indent filter
    let grouping ← Expr.renderList d indent grouping
    let clustering ← Expr.renderList d indent clustering
    let ordering ← OrderTerm.renderList d indent ordering
    return String.intercalate "\n"
      ((blanks indent ++ "SELECT " ++ (if distinct then "DISTINCT " else "") ++ listed columns)
        :: (clause indent "FROM" source.toList
          ++ clause indent "WHERE" filter.toList
          ++ clause indent "GROUP BY" grouping
          ++ clause indent "CLUSTER BY" clustering
          ++ clause indent "ORDER BY" ordering
          ++ s.limitClause indent))

end

/-- The texts of queries, in order. -/
def Projection.renderList (d : Dialect) : List Projection → Except Failure (List String)
  | [] => .ok []
  | p :: ps => do
    let text ← p.select.render d 0 .top
    let texts ← Projection.renderList d ps
    return text :: texts

/-- The text of a statement: its one query, or several if the dialect admits them. -/
def Statement.render (d : Dialect) (s : Statement) : Except Failure String :=
  match s.queries with
  | [] => .error .noQuery
  | [p] => p.select.render d 0 .top
  | ps =>
    if d.allowsSeveralQueries then (Projection.renderList d ps).map (String.intercalate ";\n")
    else .error (.severalQueries d.name ps.length)

end HiveQuery
