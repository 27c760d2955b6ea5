import HiveQuery.Digest.Sha256
import HiveQuery.Json.Writer
import HiveQuery.Tree.Codes
/-!
# The document form of trees

Every tree is written as a JSON document. A node with several forms carries its form in the field
`type` (a projector in `kind`), which comes first. The clauses of a select that it does not have are
left out. The fingerprint of a statement is the digest of its compact document.
-/

namespace HiveQuery

/-- A field that is left out when there is nothing to write. -/
def Json.optionField (name : String) : Option Json → List (String × Json)
  | none => []
  | some value => [(name, value)]

/-- A field that is left out when its list is empty. -/
def Json.listField (name : String) : List Json → List (String × Json)
  | [] => []
  | items => [(name, .arr items)]

def Json.ofNat (n : Nat) : Json :=
  .int n

def Literal.toJson : Literal → Json
  | null => .null
  | bool value => .bool value
  | int value => .int value.toInt
  | float value => .float value
  | string value => .str value

namespace DataType

/-- The code of a type that has no parameters. -/
def simpleCode? : DataType → Option String
  | boolean => some "Boolean"
  | tinyInt => some "TinyInt"
  | smallInt => some "SmallInt"
  | int => some "Int"
  | bigInt => some "BigInt"
  | float => some "Float"
  | double => some "Double"
  | string => some "String"
  | binary => some "Binary"
  | date => some "Date"
  | timestamp => some "Timestamp"
  | unknown => some "Unknown"
  | _ => none

mutual

/-- A type without parameters is its code; one with parameters is an object with its code as the
only field. -/
def toJson : DataType → Json
  | decimal precision scale =>
    .obj [("Decimal",
      .obj [("precision", .ofNat precision.toNat), ("scale", .ofNat scale.toNat)])]
  | varchar length => .obj [("Varchar", .ofNat length.toNat)]
  | char length => .obj [("Char", .ofNat length.toNat)]
  | array element => .obj [("Array", element.toJson)]
  | map key value => .obj [("Map", .obj [("key", key.toJson), ("value", value.toJson)])]
  | struct fields => .obj [("Struct", .arr (toJsonFields fields))]
  | type => .str (type.simpleCode?.getD "")

def toJsonFields : List StructField → List Json
  | [] => []
  | ⟨name, type⟩ :: fields =>
    .obj [("name", .str name), ("data_type", type.toJson)] :: toJsonFields fields

end

end DataType

mutual

def Expr.toJson : Expr → Json
  | .column label name =>
    .obj [("type", .str "Column"), ("alias", .str label), ("name", .str name)]
  | .literal value => .obj [("type", .str "Literal"), ("value", value.toJson)]
  | .binary op left right =>
    .obj [("type", .str "Binary"), ("op", .str op.code), ("left", left.toJson),
      ("right", right.toJson)]
  | .unary op operand =>
    .obj [("type", .str "Unary"), ("op", .str op.code), ("expr", operand.toJson)]
  | .isNull operand negated =>
    .obj [("type", .str "IsNull"), ("expr", operand.toJson), ("negated", .bool negated)]
  | .cast operand type =>
    .obj [("type", .str "Cast"), ("expr", operand.toJson), ("data_type", type.toJson)]
  | .caseWhen branches otherwise =>
    .obj [("type", .str "Case"), ("whens", .arr (Branch.toJsonList branches)),
      ("otherwise", (Expr.toJsonOption otherwise).getD .null)]
  | .call name args resource =>
    .obj ([("type", .str "Function"), ("name", .str name), ("args", .arr (Expr.toJsonList args))]
      ++ Json.optionField "resource" (resource.map .str))
  | .aggregate function arg distinct =>
    .obj [("type", .str "Aggregate"), ("func", .str function.code),
      ("arg", (Expr.toJsonOption arg).getD .null), ("distinct", .bool distinct)]
  | .rowNumber order =>
    .obj [("type", .str "RowNumber"), ("order_by", .arr (OrderTerm.toJsonList order))]
  | .scalarQuery query => .obj [("type", .str "ScalarSubquery"), ("select", query.toJson)]
  | .existsQuery query => .obj [("type", .str "Exists"), ("select", query.toJson)]
  | .inQuery operand query =>
    .obj [("type", .str "InSubquery"), ("expr", operand.toJson), ("select", query.toJson)]
  | .generatedId member => .obj [("type", .str "GeneratedId"), ("member", .str member)]

def Expr.toJsonList : List Expr → List Json
  | [] => []
  | e :: es => e.toJson :: Expr.toJsonList es

def Expr.toJsonOption : Option Expr → Option Json
  | none => none
  | some e => some e.toJson

def Branch.toJsonList : List Branch → List Json
  | [] => []
  | ⟨condition, result⟩ :: bs =>
    .obj [("condition", condition.toJson), ("result", result.toJson)] :: Branch.toJsonList bs

def OrderTerm.toJsonList : List OrderTerm → List Json
  | [] => []
  | ⟨expr, direction⟩ :: ts =>
    .obj [("expr", expr.toJson), ("direction", .str direction.code)] :: OrderTerm.toJsonList ts

def Column.toJsonList : List Column → List Json
  | [] => []
  | ⟨name, expr, type⟩ :: cs =>
    .obj [("name", .str name), ("expr", expr.toJson), ("data_type", type.toJson)]
      :: Column.toJsonList cs

def Source.toJson : Source → Json
  | .table name label =>
    .obj [("type", .str "Table"), ("name", .str name), ("alias", .str label)]
  | .subquery query => .obj [("type", .str "Subquery"), ("select", query.toJson)]
  | .join kind left right condition =>
    .obj ([("type", .str "Join"), ("kind", .str kind.code), ("left", left.toJson),
      ("right", right.toJson)] ++ Json.optionField "on" (Expr.toJsonOption condition))

def Source.toJsonOption : Option Source → Option Json
  | none => none
  | some s => some s.toJson

def Select.toJson : Select → Json
  | ⟨label, columns, source, filter, ordering, grouping, clustering, distinct, skip, take,
      reversed⟩ =>
    .obj ([("alias", .str label), ("columns", .arr (Column.toJsonList columns))]
      ++ Json.optionField "from" (Source.toJsonOption source)
      ++ Json.optionField "filter" (Expr.toJsonOption filter)
      ++ Json.listField "order_by" (OrderTerm.toJsonList ordering)
      ++ Json.listField "group_by" (Expr.toJsonList grouping)
      ++ Json.listField "cluster_by" (Expr.toJsonList clustering)
      ++ [("distinct", .bool distinct)]
      ++ Json.optionField "skip" (skip.map fun n => .ofNat n.toNat)
      ++ Json.optionField "take" (take.map fun n => .ofNat n.toNat)
      ++ [("reverse", .bool reversed)])

end

def Column.toJson (c : Column) : Json :=
  .obj [("name", .str c.name), ("expr", c.expr.toJson), ("data_type", c.type.toJson)]

def Binding.toJson (b : Binding) : Json :=
  .obj [("member", .str b.member), ("expr", b.expr.toJson)]

def Projector.toJson : Projector → Json
  | entity name bindings =>
    .obj [("kind", .str "Entity"), ("entity", .str name),
      ("members", .arr (bindings.map Binding.toJson))]
  | scalar expr => .obj [("kind", .str "Scalar"), ("expr", expr.toJson)]

namespace Statement

mutual

def toJson : Statement → Json
  | query ⟨select, projector⟩ =>
    .obj [("type", .str "Query"), ("select", select.toJson), ("projector", projector.toJson)]
  | batch statements =>
    .obj [("type", .str "Batch"), ("statements", .arr (toJsonList statements))]

def toJsonList : List Statement → List Json
  | [] => []
  | s :: ss => s.toJson :: toJsonList ss

end

/-- The digest of a statement's compact document, the same for equal documents. -/
def fingerprint (s : Statement) : String :=
  Sha256.hex s.toJson.compact

end Statement

end HiveQuery
