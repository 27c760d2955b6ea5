/-!
# Column types

The types a column can be declared with, and their names in a query text.
-/

namespace HiveQuery

mutual

inductive DataType where
  | boolean
  | tinyInt
  | smallInt
  | int
  | bigInt
  | float
  | double
  | decimal (precision scale : UInt8)
  | string
  | varchar (length : UInt32)
  | char (length : UInt32)
  | binary
  | date
  | timestamp
  | array (element : DataType)
  | map (key value : DataType)
  | struct (fields : List StructField)
  /-- The type of a column that a pass has added. -/
  | unknown

/-- A named part of a structure type. -/
structure StructField where
  name : String
  type : DataType

end

namespace DataType

mutual

/-- Equality of types, part by part. -/
def beq : DataType → DataType → Bool
  | boolean, boolean | tinyInt, tinyInt | smallInt, smallInt | int, int | bigInt, bigInt
  | float, float | double, double | string, string | binary, binary | date, date
  | timestamp, timestamp | unknown, unknown => true
  | decimal p s, decimal p' s' => p == p' && s == s'
  | varchar n, varchar n' => n == n'
  | char n, char n' => n == n'
  | array e, array e' => e.beq e'
  | map k v, map k' v' => k.beq k' && v.beq v'
  | struct fs, struct fs' => beqFields fs fs'
  | _, _ => false

def beqFields : List StructField → List StructField → Bool
  | [], [] => true
  | ⟨n, t⟩ :: fs, ⟨n', t'⟩ :: fs' => n == n' && t.beq t' && beqFields fs fs'
  | _, _ => false

end

instance : BEq DataType := ⟨beq⟩

mutual

/-- The name of a type. A column of unknown type is cast to a string. -/
def text : DataType → String
  | boolean => "BOOLEAN"
  | tinyInt => "TINYINT"
  | smallInt => "SMALLINT"
  | int => "INT"
  | bigInt => "BIGINT"
  | float => "FLOAT"
  | double => "DOUBLE"
  | decimal precision scale =>
    "DECIMAL(" ++ precision.toNat.repr ++ "," ++ scale.toNat.repr ++ ")"
  | string => "STRING"
  | varchar length => "VARCHAR(" ++ length.toNat.repr ++ ")"
  | char length => "CHAR(" ++ length.toNat.repr ++ ")"
  | binary => "BINARY"
  | date => "DATE"
  | timestamp => "TIMESTAMP"
  | array element => "ARRAY<" ++ element.text ++ ">"
  | map key value => "MAP<" ++ key.text ++ "," ++ value.text ++ ">"
  | struct fields => "STRUCT<" ++ String.intercalate "," (textFields fields) ++ ">"
  | unknown => "STRING"

def textFields : List StructField → List String
  | [] => []
  | ⟨name, type⟩ :: fields => (name ++ ":" ++ type.text) :: textFields fields

end

end DataType

end HiveQuery
