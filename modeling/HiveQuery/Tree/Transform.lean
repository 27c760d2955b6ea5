import HiveQuery.Tree.Basic
/-!
# Transforming a tree

A transformation of a tree gives an action for its leaves, which are the column references, the
literals and the generated identities, and one for its selects. The tree is rebuilt from below: the
parts of a select are transformed before the select itself, and its source before anything else of
it. The action on a select is told how many selects enclose it.
-/

namespace HiveQuery

/-- What a transformation does at the nodes it can change. -/
structure Transform (m : Type → Type) where
  leaf : Expr → m Expr
  /-- The action on a select whose parts are transformed; the number counts the enclosing
  selects. -/
  select : Nat → Select → m Select

variable {m : Type → Type} [Monad m]

mutual

def Expr.transform (t : Transform m) (depth : Nat) : Expr → m Expr
  | e@(.column ..) | e@(.literal _) | e@(.generatedId _) => t.leaf e
  | .binary op left right => do
    let left ← left.transform t depth
    let right ← right.transform t depth
    return .binary op left right
  | .unary op operand => do
    let operand ← operand.transform t depth
    return .unary op operand
  | .isNull operand negated => do
    let operand ← operand.transform t depth
    return .isNull operand negated
  | .cast operand type => do
    let operand ← operand.transform t depth
    return .cast operand type
  | .caseWhen branches otherwise => do
    let branches ← Branch.transformList t depth branches
    let otherwise ← Expr.transformOption t depth otherwise
    return .caseWhen branches otherwise
  | .call name args resource => do
    let args ← Expr.transformList t depth args
    return .call name args resource
  | .aggregate function arg distinct => do
    let arg ← Expr.transformOption t depth arg
    return .aggregate function arg distinct
  | .rowNumber order => do
    let order ← OrderTerm.transformList t depth order
    return .rowNumber order
  | .scalarQuery query => do
    let query ← query.transform t depth
    return .scalarQuery query
  | .existsQuery query => do
    let query ← query.transform t depth
    return .existsQuery query
  | .inQuery operand query => do
    let operand ← operand.transform t depth
    let query ← query.transform t depth
    return .inQuery operand query

def Expr.transformList (t : Transform m) (depth : Nat) : List Expr → m (List Expr)
  | [] => pure []
  | e :: es => do
    let e ← e.transform t depth
    let es ← Expr.transformList t depth es
    return e :: es

def Expr.transformOption (t : Transform m) (depth : Nat) : Option Expr → m (Option Expr)
  | none => pure none
  | some e => do
    let e ← e.transform t depth
    return some e

def Branch.transformList (t : Transform m) (depth : Nat) : List Branch → m (List Branch)
  | [] => pure []
  | ⟨condition, result⟩ :: bs => do
    let condition ← condition.transform t depth
    let result ← result.transform t depth
    let bs ← Branch.transformList t depth bs
    return ⟨condition, result⟩ :: bs

def OrderTerm.transformList (t : Transform m) (depth : Nat) : List OrderTerm → m (List OrderTerm)
  | [] => pure []
  | ⟨expr, direction⟩ :: ts => do
    let expr ← expr.transform t depth
    let ts ← OrderTerm.transformList t depth ts
    return ⟨expr, direction⟩ :: ts

def Column.transformList (t : Transform m) (depth : Nat) : List Column → m (List Column)
  | [] => pure []
  | ⟨name, expr, type⟩ :: cs => do
    let expr ← expr.transform t depth
    let cs ← Column.transformList t depth cs
    return ⟨name, expr, type⟩ :: cs

def Source.transform (t : Transform m) (depth : Nat) : Source → m Source
  | .table name label => pure (.table name label)
  | .subquery query => do
    let query ← query.transform t depth
    return .subquery query
  | .join kind left right condition => do
    let left ← left.transform t depth
    let right ← right.transform t depth
    let condition ← Expr.transformOption t depth condition
    return .join kind left right condition

def Source.transformOption (t : Transform m) (depth : Nat) : Option Source → m (Option Source)
  | none => pure none
  | some s => do
    let s ← s.transform t depth
    return some s

def Select.transform (t : Transform m) (depth : Nat) : Select → m Select
  | ⟨label, columns, source, filter, ordering, grouping, clustering, distinct, skip, take,
      reversed⟩ => do
    let source ← Source.transformOption t (depth + 1) source
    let columns ← Column.transformList t (depth + 1) columns
    let filter ← Expr.transformOption t (depth + 1) filter
    let ordering ← OrderTerm.transformList t (depth + 1) ordering
    let grouping ← Expr.transformList t (depth + 1) grouping
    let clustering ← Expr.transformList t (depth + 1) clustering
    t.select depth
      ⟨label, columns, source, filter, ordering, grouping, clustering, distinct, skip, take,
        reversed⟩

end

/-- The bindings of a projector, in order. -/
def Binding.transformList (t : Transform m) : List Binding → m (List Binding)
  | [] => pure []
  | ⟨member, expr⟩ :: bs => do
    let expr ← expr.transform t 0
    let bs ← Binding.transformList t bs
    return ⟨member, expr⟩ :: bs

/-- A projector's expressions stand beside the select that it reads, so no select encloses them. -/
def Projector.transform (t : Transform m) : Projector → m Projector
  | .entity name bindings => do
    let bindings ← Binding.transformList t bindings
    return .entity name bindings
  | .scalar expr => do
    let expr ← expr.transform t 0
    return .scalar expr

/-- The select first, then the projector. -/
def Projection.transform (t : Transform m) (p : Projection) : m Projection := do
  let select ← p.select.transform t 0
  let projector ← p.projector.transform t
  return ⟨select, projector⟩

def Statement.transform (t : Transform m) (s : Statement) : m Statement :=
  s.mapQueriesM (Projection.transform t)

/-! ## Renaming references -/

/-- The transformation that replaces each column reference. -/
def Transform.renaming (f : String × String → String × String) : Transform Id where
  leaf
    | .column label name => .column (f (label, name)).1 (f (label, name)).2
    | e => e
  select _ s := s

/-- The statement with every column reference replaced by its image. -/
def Statement.renameRefs (f : String × String → String × String) (s : Statement) : Statement :=
  s.transform (.renaming f)

end HiveQuery
