import HiveQuery.Paging
import HiveQuery.Proofs.Comparison
import HiveQuery.Proofs.Ranks
import Mathlib
/-!
# The rows that selects yield

Nothing is known of the tables, so the rows of one select, the base, are given: each gives a value
to every expression. A select over them, or over a select that yields records, is evaluated in the
order of its clauses: it reads the rows of its source, keeps those that satisfy its filter, numbers
them if its last column is a row number, sorts them stably by its terms and projects them to its
columns. Columns of a subquery are read by name.

The base stands for what a source, a filter, a grouping and `DISTINCT` make of the tables. Another
select with the same four yields the same rows whatever it projects, except under `DISTINCT`, where
the columns decide which rows there are. A row number in a grouped or distinct select takes part in
the grouping, so only a plain select numbers its rows.
-/

namespace HiveQuery

/-- Values in a linear order, the integers among them in their order. -/
class Values (V : Type) extends LinearOrder V where
  number : Int → V
  number_strictMono : ∀ {m n : Int}, m < n → number m < number n
  /-- The value of what a record does not hold. -/
  null : V

instance : Values Int where
  number n := n
  number_strictMono h := h
  null := 0

/-- A row of the base: a value for every expression, one for equal expressions. -/
structure Row (V : Type) where
  value : Expr → V
  congr : ∀ {e e' : Expr}, (e == e') = true → value e = value e'

/-- A row with any values for the columns of tables, and one value for all else. -/
def Row.ofColumns {V : Type} (column : String → String → V) (other : V) : Row V where
  value e := (e.ref?.map fun r => column r.1 r.2).getD other
  congr h := by rw [Expr.ref?_of_beq h]

/-- A row of a select that has been evaluated: the names of its columns and their values. -/
abbrev Record (V : Type) := List (String × V)

section Evaluation

variable {V : Type} [Values V]

/-- The values that a record gives to the expressions of a select that reads it under a label. -/
def Record.reading (label : String) (record : Record V) : Expr → V
  | .column l name => if l = label then (record.lookup name).getD Values.null else Values.null
  | .literal (.int n) => Values.number n.toInt
  | _ => Values.null

/-- Whether a row satisfies a condition. -/
def holds (x : Expr → V) : Expr → Bool
  | .binary .and left right => holds x left && holds x right
  | .binary .or left right => holds x left || holds x right
  | .binary .eq left right => decide (x left = x right)
  | .binary .ne left right => decide (x left ≠ x right)
  | .binary .lt left right => decide (x left < x right)
  | .binary .le left right => decide (x left ≤ x right)
  | .binary .gt left right => decide (x right < x left)
  | .binary .ge left right => decide (x right ≤ x left)
  | .unary .not operand => !holds x operand
  | _ => false

/-- Whether one row comes before another or compares alike. -/
def rowLe (terms : List OrderTerm) (x y : Expr → V) : Bool :=
  (OrderTerm.compareAll x y terms).isLE

namespace Select

/-- The terms of the row number that a plain select has as its last column. -/
def window? (s : Select) : Option (List OrderTerm) :=
  if s.distinct || !s.grouping.isEmpty then none
  else s.columns.getLast?.bind fun c =>
    match c.expr with
    | .rowNumber order => some order
    | _ => none

/-- A row projected to the columns of a select, given its rank. -/
def record (s : Select) (x : Expr → V) (rank : Nat) : Record V :=
  match s.window? with
  | none => s.columns.map fun c => (c.name, x c.expr)
  | some _ =>
    s.columns.dropLast.map (fun c => (c.name, x c.expr)) ++
      s.columns.getLast?.toList.map fun c => (c.name, Values.number rank)

/-- The records that a select makes of the rows it has read and kept. -/
def output (s : Select) (rows : List (Expr → V)) : List (Record V) :=
  ((rows.zip (ranks (rowLe (s.window?.getD [])) rows)).mergeSort
    fun a b => rowLe s.ordering a.1 b.1).map fun a => s.record a.1 a.2

/-- Nothing is left to be done to the rows of the select. -/
def Direct (s : Select) : Prop :=
  s.hasPaging = false ∧ s.reversed = false

/-- **What a select yields**, the rows of a base select being given. -/
inductive Yields (base : Select) (rows : List (Row V)) : Select → List (Record V) → Prop
  | base {q : Select} (source : q.source = base.source) (filter : q.filter = base.filter)
      (grouping : q.grouping = base.grouping) (distinct : q.distinct = base.distinct)
      (columns : q.distinct = true → q.columns = base.columns) (direct : q.Direct) :
      Yields base rows q (q.output (rows.map Row.value))
  | reads {q t : Select} {records : List (Record V)} (source : t.source = some (.subquery q))
      (plain : t.collapses = false) (direct : t.Direct) (yields : Yields base rows q records) :
      Yields base rows t
        (t.output ((records.map (Record.reading q.label)).filter fun x => t.filter.all (holds x)))

end Select

end Evaluation

end HiveQuery
