import HiveQuery.Tree.Encoding
/-!
# Reading trees from documents

The readers of the document form. Fields that a node does not have are ignored; a required field
that is missing, a value of the wrong kind and an unknown code make the document unreadable. Some
fields may be missing or null, others may be missing but not null. Each reader follows the nesting
of its document as deep as the first argument says, and the depth of a document is deep enough.
-/

namespace HiveQuery

/-- A literal: an integer token that fits is an integer, every other number is rounded to the
nearest floating-point number. -/
def Literal.ofJson? : Json → Option Literal
  | .null => some .null
  | .bool value => some (.bool value)
  | .int value =>
    if Int64.minValue.toInt ≤ value && value ≤ Int64.maxValue.toInt then some (.int (Int64.ofInt value))
    else some (.float (.ofInt value))
  | .float value => some (.float value)
  | .str value => some (.string value)
  | .arr _ | .obj _ => none

/-- What a code stands for. Instead of the code itself, an object may stand with the code as its only
field and null in it. Inside of a node that names its kind, the field may also be an empty object. -/
def Json.code? {α : Type} (inNode : Bool) (ofCode? : String → Option α) : Json → Option α
  | .str code | .obj [(code, .null)] => ofCode? code
  | .obj [(code, .obj [])] => if inNode then ofCode? code else none
  | _ => none

def Json.uint8? (json : Json) : Option UInt8 :=
  (json.natBelow? UInt8.size).map UInt8.ofNat

def Json.uint32? (json : Json) : Option UInt32 :=
  (json.natBelow? UInt32.size).map UInt32.ofNat

def Json.uint64? (json : Json) : Option UInt64 :=
  (json.natBelow? UInt64.size).map UInt64.ofNat

namespace DataType

/-- The types that have no parameters. -/
def simple : List DataType :=
  [boolean, tinyInt, smallInt, int, bigInt, float, double, string, binary, date, timestamp, unknown]

def ofSimpleCode? (code : String) : Option DataType :=
  simple.find? (·.simpleCode? == some code)

/-- A type, inside of a node that names its kind or by itself. -/
def read (inNode : Bool) : Nat → Json → Option DataType
  | 0, _ => none
  | _ + 1, .str code => ofSimpleCode? code
  | depth + 1, .obj [(code, body)] =>
    match code with
    | "Decimal" => do
      let precision ← body.required "precision" Json.uint8?
      let scale ← body.required "scale" Json.uint8?
      return decimal precision scale
    | "Varchar" => body.uint32?.map varchar
    | "Char" => body.uint32?.map char
    | "Array" => (read inNode depth body).map array
    | "Map" => do
      let key ← body.required "key" (read inNode depth)
      let value ← body.required "value" (read inNode depth)
      return map key value
    | "Struct" => do
      let fields ← body.list? fun field => do
        let name ← field.required "name" Json.string?
        let type ← field.required "data_type" (read inNode depth)
        return StructField.mk name type
      return struct fields
    | _ => Json.code? inNode ofSimpleCode? (.obj [(code, body)])
  | _ + 1, _ => none

def ofJson? (json : Json) : Option DataType :=
  read false json.depth json

end DataType

mutual

def Expr.read : Nat → Json → Option Expr
  | 0, _ => none
  | depth + 1, json => do
    match ← json.required "type" Json.string? with
    | "Column" => do
      let label ← json.required "alias" Json.string?
      let name ← json.required "name" Json.string?
      return .column label name
    | "Literal" => do
      let value ← json.required "value" Literal.ofJson?
      return .literal value
    | "Binary" => do
      let op ← json.required "op" (Json.code? true BinaryOp.ofCode?)
      let left ← json.required "left" (Expr.read depth)
      let right ← json.required "right" (Expr.read depth)
      return .binary op left right
    | "Unary" => do
      let op ← json.required "op" (Json.code? true UnaryOp.ofCode?)
      let operand ← json.required "expr" (Expr.read depth)
      return .unary op operand
    | "IsNull" => do
      let operand ← json.required "expr" (Expr.read depth)
      let negated ← json.required "negated" Json.bool?
      return .isNull operand negated
    | "Cast" => do
      let operand ← json.required "expr" (Expr.read depth)
      let type ← json.required "data_type" (DataType.read true depth)
      return .cast operand type
    | "Case" => do
      let branches ← json.required "whens" (Json.list? (Branch.read depth))
      let otherwise ← json.optional "otherwise" (Expr.read depth)
      return .caseWhen branches otherwise
    | "Function" => do
      let name ← json.required "name" Json.string?
      let args ← json.required "args" (Json.list? (Expr.read depth))
      let resource ← json.optional "resource" Json.string?
      return .call name args resource
    | "Aggregate" => do
      let function ← json.required "func" (Json.code? true AggregateFunction.ofCode?)
      let arg ← json.optional "arg" (Expr.read depth)
      let distinct ← json.withDefault "distinct" false Json.bool?
      return .aggregate function arg distinct
    | "RowNumber" => do
      let order ← json.required "order_by" (Json.list? (OrderTerm.read true depth))
      return .rowNumber order
    | "ScalarSubquery" => do
      let query ← json.required "select" (Select.read depth)
      return .scalarQuery query
    | "Exists" => do
      let query ← json.required "select" (Select.read depth)
      return .existsQuery query
    | "InSubquery" => do
      let operand ← json.required "expr" (Expr.read depth)
      let query ← json.required "select" (Select.read depth)
      return .inQuery operand query
    | "GeneratedId" => do
      let member ← json.required "member" Json.string?
      return .generatedId member
    | _ => none

def Branch.read : Nat → Json → Option Branch
  | 0, _ => none
  | depth + 1, json => do
    let condition ← json.required "condition" (Expr.read depth)
    let result ← json.required "result" (Expr.read depth)
    return ⟨condition, result⟩

def OrderTerm.read (inNode : Bool) : Nat → Json → Option OrderTerm
  | 0, _ => none
  | depth + 1, json => do
    let expr ← json.required "expr" (Expr.read depth)
    let direction ←
      json.withDefault "direction" Direction.ascending (Json.code? inNode Direction.ofCode?)
    return ⟨expr, direction⟩

def Column.read (inNode : Bool) : Nat → Json → Option Column
  | 0, _ => none
  | depth + 1, json => do
    let name ← json.required "name" Json.string?
    let expr ← json.required "expr" (Expr.read depth)
    let type ← json.required "data_type" (DataType.read inNode depth)
    return ⟨name, expr, type⟩

def Source.read : Nat → Json → Option Source
  | 0, _ => none
  | depth + 1, json => do
    match ← json.required "type" Json.string? with
    | "Table" => do
      let name ← json.required "name" Json.string?
      let label ← json.required "alias" Json.string?
      return .table name label
    | "Subquery" => do
      let query ← json.required "select" (Select.read depth)
      return .subquery query
    | "Join" => do
      let kind ← json.required "kind" (Json.code? true JoinKind.ofCode?)
      let left ← json.required "left" (Source.read depth)
      let right ← json.required "right" (Source.read depth)
      let condition ← json.optional "on" (Expr.read depth)
      return .join kind left right condition
    | _ => none

def Select.read : Nat → Json → Option Select
  | 0, _ => none
  | depth + 1, json => do
    let label ← json.required "alias" Json.string?
    let columns ← json.required "columns" (Json.list? (Column.read true depth))
    let source ← json.optional "from" (Source.read depth)
    let filter ← json.optional "filter" (Expr.read depth)
    let ordering ← json.withDefault "order_by" [] (Json.list? (OrderTerm.read true depth))
    let grouping ← json.withDefault "group_by" [] (Json.list? (Expr.read depth))
    let clustering ← json.withDefault "cluster_by" [] (Json.list? (Expr.read depth))
    let distinct ← json.withDefault "distinct" false Json.bool?
    let skip ← json.optional "skip" Json.uint64?
    let take ← json.optional "take" Json.uint64?
    let reversed ← json.withDefault "reverse" false Json.bool?
    return ⟨label, columns, source, filter, ordering, grouping, clustering, distinct, skip, take,
      reversed⟩

end

def Expr.ofJson? (json : Json) : Option Expr :=
  Expr.read json.depth json

def OrderTerm.ofJson? (json : Json) : Option OrderTerm :=
  OrderTerm.read false json.depth json

def Column.ofJson? (json : Json) : Option Column :=
  Column.read false json.depth json

def Source.ofJson? (json : Json) : Option Source :=
  Source.read json.depth json

def Select.ofJson? (json : Json) : Option Select :=
  Select.read json.depth json

def Binding.ofJson? (json : Json) : Option Binding := do
  let member ← json.required "member" Json.string?
  let expr ← json.required "expr" Expr.ofJson?
  return ⟨member, expr⟩

def Projector.ofJson? (json : Json) : Option Projector := do
  match ← json.required "kind" Json.string? with
  | "Entity" => do
    let name ← json.required "entity" Json.string?
    let bindings ← json.required "members" (Json.list? Binding.ofJson?)
    return .entity name bindings
  | "Scalar" => do
    let expr ← json.required "expr" Expr.ofJson?
    return .scalar expr
  | _ => none

namespace Statement

def read : Nat → Json → Option Statement
  | 0, _ => none
  | depth + 1, json => do
    match ← json.required "type" Json.string? with
    | "Query" => do
      let select ← json.required "select" Select.ofJson?
      let projector ← json.required "projector" Projector.ofJson?
      return query ⟨select, projector⟩
    | "Batch" => do
      let statements ← json.required "statements" (Json.list? (read depth))
      return batch statements
    | _ => none

def ofJson? (json : Json) : Option Statement :=
  read json.depth json

end Statement

end HiveQuery
