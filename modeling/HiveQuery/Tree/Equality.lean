import HiveQuery.Tree.Basic
/-!
# Equality of trees

Two trees are equal when they have the same shape and equal literals. Floating-point literals are
compared by value, so a tree that holds a NaN equals nothing, itself included, and the two zeros are
not told apart.
-/

namespace HiveQuery

/-- Equality of literals. An integer never equals a floating-point number. -/
def Literal.beq : Literal → Literal → Bool
  | null, null => true
  | bool b, bool b' => b == b'
  | int n, int n' => n == n'
  | float x, float x' => x == x'
  | string s, string s' => s == s'
  | _, _ => false

instance : BEq Literal := ⟨Literal.beq⟩

mutual

def Expr.beq : Expr → Expr → Bool
  | .column l n, .column l' n' => l == l' && n == n'
  | .literal v, .literal v' => v == v'
  | .binary op l r, .binary op' l' r' => op == op' && l.beq l' && r.beq r'
  | .unary op e, .unary op' e' => op == op' && e.beq e'
  | .isNull e n, .isNull e' n' => e.beq e' && n == n'
  | .cast e t, .cast e' t' => e.beq e' && t == t'
  | .caseWhen bs o, .caseWhen bs' o' => Branch.beqList bs bs' && Expr.beqOption o o'
  | .call f as r, .call f' as' r' => f == f' && Expr.beqList as as' && r == r'
  | .aggregate f a d, .aggregate f' a' d' => f == f' && Expr.beqOption a a' && d == d'
  | .rowNumber ts, .rowNumber ts' => OrderTerm.beqList ts ts'
  | .scalarQuery s, .scalarQuery s' => s.beq s'
  | .existsQuery s, .existsQuery s' => s.beq s'
  | .inQuery e s, .inQuery e' s' => e.beq e' && s.beq s'
  | .generatedId m, .generatedId m' => m == m'
  | _, _ => false

def Expr.beqList : List Expr → List Expr → Bool
  | [], [] => true
  | e :: es, e' :: es' => e.beq e' && Expr.beqList es es'
  | _, _ => false

def Expr.beqOption : Option Expr → Option Expr → Bool
  | none, none => true
  | some e, some e' => e.beq e'
  | _, _ => false

def Branch.beqList : List Branch → List Branch → Bool
  | [], [] => true
  | ⟨c, r⟩ :: bs, ⟨c', r'⟩ :: bs' => c.beq c' && r.beq r' && Branch.beqList bs bs'
  | _, _ => false

def OrderTerm.beqList : List OrderTerm → List OrderTerm → Bool
  | [], [] => true
  | ⟨e, d⟩ :: ts, ⟨e', d'⟩ :: ts' => e.beq e' && d == d' && OrderTerm.beqList ts ts'
  | _, _ => false

def Column.beqList : List Column → List Column → Bool
  | [], [] => true
  | ⟨n, e, t⟩ :: cs, ⟨n', e', t'⟩ :: cs' =>
    n == n' && e.beq e' && t == t' && Column.beqList cs cs'
  | _, _ => false

def Source.beq : Source → Source → Bool
  | .table n l, .table n' l' => n == n' && l == l'
  | .subquery s, .subquery s' => s.beq s'
  | .join k l r c, .join k' l' r' c' =>
    k == k' && l.beq l' && r.beq r' && Expr.beqOption c c'
  | _, _ => false

def Source.beqOption : Option Source → Option Source → Bool
  | none, none => true
  | some s, some s' => s.beq s'
  | _, _ => false

def Select.beq : Select → Select → Bool
  | ⟨label, columns, source, filter, ordering, grouping, clustering, distinct, skip, take, reversed⟩,
    ⟨label', columns', source', filter', ordering', grouping', clustering', distinct', skip', take',
      reversed'⟩ =>
    label == label' && Column.beqList columns columns' && Source.beqOption source source'
      && Expr.beqOption filter filter' && OrderTerm.beqList ordering ordering'
      && Expr.beqList grouping grouping' && Expr.beqList clustering clustering'
      && distinct == distinct' && skip == skip' && take == take' && reversed == reversed'

end

instance : BEq Expr := ⟨Expr.beq⟩

instance : BEq Select := ⟨Select.beq⟩

/-- The first column that declares an expression. -/
def Select.columnFor? (s : Select) (expr : Expr) : Option Column :=
  s.columns.find? (·.expr == expr)

end HiveQuery
