import HiveQuery.Tree.Basic
/-!
# Codes of the enumerations

The code under which each operator, function, kind and direction is written in a document, and the
look-up of a code. A look-up finds every code that is written.
-/

namespace HiveQuery

namespace BinaryOp

def code : BinaryOp → String
  | add => "Add"
  | sub => "Sub"
  | mul => "Mul"
  | div => "Div"
  | mod => "Mod"
  | eq => "Eq"
  | ne => "Ne"
  | lt => "Lt"
  | le => "Le"
  | gt => "Gt"
  | ge => "Ge"
  | and => "And"
  | or => "Or"
  | like => "Like"

def all : List BinaryOp :=
  [add, sub, mul, div, mod, eq, ne, lt, le, gt, ge, and, or, like]

def ofCode? (code : String) : Option BinaryOp :=
  all.find? (·.code == code)

@[simp] theorem ofCode?_code (op : BinaryOp) : ofCode? op.code = some op := by
  cases op <;> decide

end BinaryOp

namespace UnaryOp

def code : UnaryOp → String
  | neg => "Neg"
  | not => "Not"

def all : List UnaryOp :=
  [neg, not]

def ofCode? (code : String) : Option UnaryOp :=
  all.find? (·.code == code)

@[simp] theorem ofCode?_code (op : UnaryOp) : ofCode? op.code = some op := by
  cases op <;> decide

end UnaryOp

namespace AggregateFunction

def code : AggregateFunction → String
  | count => "Count"
  | sum => "Sum"
  | avg => "Avg"
  | min => "Min"
  | max => "Max"

def all : List AggregateFunction :=
  [count, sum, avg, min, max]

def ofCode? (code : String) : Option AggregateFunction :=
  all.find? (·.code == code)

@[simp] theorem ofCode?_code (f : AggregateFunction) : ofCode? f.code = some f := by
  cases f <;> decide

end AggregateFunction

namespace JoinKind

def code : JoinKind → String
  | inner => "Inner"
  | leftOuter => "LeftOuter"
  | rightOuter => "RightOuter"
  | fullOuter => "FullOuter"
  | cross => "Cross"
  | leftSemi => "LeftSemi"

def all : List JoinKind :=
  [inner, leftOuter, rightOuter, fullOuter, cross, leftSemi]

def ofCode? (code : String) : Option JoinKind :=
  all.find? (·.code == code)

@[simp] theorem ofCode?_code (kind : JoinKind) : ofCode? kind.code = some kind := by
  cases kind <;> decide

end JoinKind

namespace Direction

def code : Direction → String
  | ascending => "Ascending"
  | descending => "Descending"

def all : List Direction :=
  [ascending, descending]

def ofCode? (code : String) : Option Direction :=
  all.find? (·.code == code)

@[simp] theorem ofCode?_code (d : Direction) : ofCode? d.code = some d := by
  cases d <;> decide

end Direction

end HiveQuery
