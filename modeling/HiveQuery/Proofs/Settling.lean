import HiveQuery.Ordering.Placement
import HiveQuery.Proofs.Outcome
import HiveQuery.Proofs.Traversal
import HiveQuery.Proofs.Validity
/-!
# Settled trees

Placing orderings moves terms and checks that they resolve. The two can be told apart: `settled`
moves the terms and knows no scope, and the scope decides only whether the pass fails.
`Select.placeOrderings_eq_ok_iff` puts them together again. What the pass does to a tree is then
proved of `settled`, a plain recursion, and what it demands of a tree is `Select.Resolvable`.
-/

namespace HiveQuery

/-! ## Moving the terms -/

mutual

def Expr.settled : Expr → Expr
  | e@(.column ..) | e@(.literal _) | e@(.generatedId _) => e
  | .binary op left right => .binary op left.settled right.settled
  | .unary op operand => .unary op operand.settled
  | .isNull operand negated => .isNull operand.settled negated
  | .cast operand type => .cast operand.settled type
  | .caseWhen branches otherwise =>
    .caseWhen (Branch.settledList branches) (Expr.settledOption otherwise)
  | .call name args resource => .call name (Expr.settledList args) resource
  | .aggregate function arg distinct => .aggregate function (Expr.settledOption arg) distinct
  | .rowNumber order => .rowNumber (OrderTerm.settledList order)
  | .scalarQuery query => .scalarQuery (query.settled .expression).1
  | .existsQuery query => .existsQuery (query.settled .expression).1
  | .inQuery operand query => .inQuery operand.settled (query.settled .expression).1

def Expr.settledList : List Expr → List Expr
  | [] => []
  | e :: es => e.settled :: Expr.settledList es

def Expr.settledOption : Option Expr → Option Expr
  | none => none
  | some e => some e.settled

def Branch.settledList : List Branch → List Branch
  | [] => []
  | ⟨condition, result⟩ :: bs => ⟨condition.settled, result.settled⟩ :: Branch.settledList bs

def OrderTerm.settledList : List OrderTerm → List OrderTerm
  | [] => []
  | ⟨expr, direction⟩ :: ts => ⟨expr.settled, direction⟩ :: OrderTerm.settledList ts

def Column.settledList : List Column → List Column
  | [] => []
  | ⟨name, expr, type⟩ :: cs => ⟨name, expr.settled, type⟩ :: Column.settledList cs

/-- A source with its subqueries settled, and the terms that they pass on. -/
def Source.settled : Source → Source × List OrderTerm
  | .table name label => (.table name label, [])
  | .subquery query =>
    let (query, passed) := query.settled .source
    (.subquery (query.exposing passed).1, (query.exposing passed).2)
  | .join kind left right condition =>
    (.join kind left.settled.1 right.settled.1 (Expr.settledOption condition),
      left.settled.2 ++ right.settled.2)

def Source.settledOption : Option Source → Option Source × List OrderTerm
  | none => (none, [])
  | some source => (some source.settled.1, source.settled.2)

/-- A select with its orderings settled, and the terms that it passes on. -/
def Select.settled (placement : Placement) : Select → Select × List OrderTerm
  | ⟨label, columns, source, filter, ordering, grouping, clustering, distinct, skip, take,
      reversed⟩ =>
    let gathered := (Source.settledOption source).2
    let s : Select := ⟨label, Column.settledList columns, (Source.settledOption source).1,
      Expr.settledOption filter, OrderTerm.settledList ordering, Expr.settledList grouping,
      Expr.settledList clustering, distinct, skip, take, reversed⟩
    (s.arranged placement gathered, s.passed placement gathered)

end

/-! ## Reading off the parts -/

theorem Expr.settledList_eq (es : List Expr) : Expr.settledList es = es.map Expr.settled := by
  induction es with
  | nil => rfl
  | cons e es ih => simp [Expr.settledList, ih]

theorem Expr.settledOption_eq (o : Option Expr) : Expr.settledOption o = o.map Expr.settled := by
  cases o <;> rfl

/-- The term with its expression settled. -/
def OrderTerm.settled (t : OrderTerm) : OrderTerm :=
  ⟨t.expr.settled, t.direction⟩

/-- The column with its expression settled. -/
def Column.settled (c : Column) : Column :=
  ⟨c.name, c.expr.settled, c.type⟩

theorem OrderTerm.settledList_eq (ts : List OrderTerm) :
    OrderTerm.settledList ts = ts.map OrderTerm.settled := by
  induction ts with
  | nil => rfl
  | cons t ts ih => cases t; simp [OrderTerm.settledList, OrderTerm.settled, ih]

theorem Column.settledList_eq (cs : List Column) :
    Column.settledList cs = cs.map Column.settled := by
  induction cs with
  | nil => rfl
  | cons c cs ih => cases c; simp [Column.settledList, Column.settled, ih]

/-- Of a branch, the condition and the result are settled. -/
theorem Branch.settledList_eq (bs : List Branch) :
    Branch.settledList bs = bs.map fun b => ⟨b.condition.settled, b.result.settled⟩ := by
  induction bs with
  | nil => rfl
  | cons b bs ih => cases b; simp [Branch.settledList, ih]

/-- An expression is settled by settling its parts and its select. -/
theorem Expr.settled_eq (e : Expr) :
    e.settled = e.mapParts Expr.settled fun q => (q.settled .expression).1 := by
  cases e with
  | caseWhen branches otherwise =>
    have h := Expr.refill_map Expr.settled branches (otherwise.toList.map Expr.settled)
    simp only [Expr.settled, Expr.mapParts, Expr.parts, Expr.withParts, List.map_append, h,
      Branch.settledList_eq, Expr.settledOption_eq]
    cases otherwise <;> rfl
  | aggregate function arg distinct => cases arg <;> rfl
  | rowNumber order =>
    simp only [Expr.settled, Expr.mapParts, Expr.parts, Expr.withParts, OrderTerm.settledList_eq,
      List.map_map, List.zipWith_map_right, List.zipWith_self]
    rfl
  | call name args resource => simp [Expr.settled, Expr.mapParts, Expr.parts, Expr.withParts,
      Expr.settledList_eq]
  | _ => rfl

/-- The select with its source and its clauses settled, its own ordering not yet placed. -/
def Select.renewed (s : Select) : Select :=
  { s with
    columns := s.columns.map Column.settled
    source := s.source.map fun source => source.settled.1
    filter := s.filter.map Expr.settled
    ordering := s.ordering.map OrderTerm.settled
    grouping := s.grouping.map Expr.settled
    clustering := s.clustering.map Expr.settled }

/-- The terms that the subqueries in the source of a select pass on. -/
def Select.gathered (s : Select) : List OrderTerm :=
  s.source.toList.flatMap fun source => source.settled.2

/-- A select is settled from below: first its source and clauses, then its ordering is arranged with
what the source passes on. -/
theorem Select.settled_eq (placement : Placement) (s : Select) :
    s.settled placement =
      (s.renewed.arranged placement s.gathered, s.renewed.passed placement s.gathered) := by
  obtain ⟨label, columns, source, filter, ordering, grouping, clustering, distinct, skip, take,
    reversed⟩ := s
  cases source <;>
    simp [Select.settled, Select.renewed, Select.gathered, Source.settledOption,
      Column.settledList_eq, Expr.settledOption_eq, OrderTerm.settledList_eq, Expr.settledList_eq]

/-! ### What settling keeps -/

/-- Settling the subqueries of an expression changes nothing that it refers to itself. -/
@[simp] theorem Expr.localRefs_settled (e : Expr) : e.settled.localRefs = e.localRefs := by
  induction e using Expr.parts_induction with
  | step e ih =>
    rw [Expr.localRefs_eq, Expr.localRefs_eq e, Expr.settled_eq, Expr.parts_mapParts,
      Expr.ref?_mapParts, List.flatMap_map, List.flatMap_congr ih]

/-- The subqueries of a settled expression are the settled subqueries. -/
@[simp] theorem Expr.subqueries_settled (e : Expr) :
    e.settled.subqueries = e.subqueries.map fun q => (q.settled .expression).1 := by
  induction e using Expr.parts_induction with
  | step e ih =>
    rw [Expr.subqueries_eq, Expr.subqueries_eq e, Expr.settled_eq, Expr.parts_mapParts,
      Expr.query?_mapParts, List.flatMap_map, List.flatMap_congr ih, List.map_append,
      List.map_flatMap, Option.toList_map]

/-- Settling makes no aggregate and removes none. -/
@[simp] theorem Expr.aggregates_settled (e : Expr) : e.settled.aggregates = e.aggregates := by
  induction e using Expr.parts_induction with
  | step e ih =>
    rw [Expr.aggregates_eq, Expr.aggregates_eq e, Expr.settled_eq, Expr.parts_mapParts,
      Expr.isAggregate_mapParts, Expr.isRowNumber_mapParts, List.any_map]
    congr 2
    rw [Bool.eq_iff_iff, List.any_eq_true, List.any_eq_true]
    exact exists_congr fun p => and_congr_right fun hp => by rw [Function.comp_apply, ih p hp]

/-- An expression whose subqueries are settled is settled. -/
theorem Expr.settled_eq_self {e : Expr} (h : ∀ q ∈ e.subqueries, (q.settled .expression).1 = q) :
    e.settled = e := by
  induction e using Expr.parts_induction with
  | step e ih =>
    rw [Expr.subqueries_eq] at h
    simp only [List.forall_mem_append, List.forall_mem_flatMap, Option.mem_toList] at h
    rw [Expr.settled_eq]
    exact Expr.mapParts_eq_self (fun p hp => ih p hp (h.1 p hp)) h.2

theorem Expr.settled_of_subqueries_eq_nil {e : Expr} (h : e.subqueries = []) : e.settled = e :=
  Expr.settled_eq_self fun q hq => absurd hq (by simp [h])

/-! ## What the pass demands -/

/-- The conditions of the joins of a source, each with the labels of the two sides that it joins. -/
def Source.framedConditions : Source → List (Frame × Expr)
  | .table .. | .subquery _ => []
  | .join kind left right condition =>
    left.framedConditions ++ right.framedConditions
      ++ condition.toList.map ((Source.join kind left.settled.1 right.settled.1 none).frame, ·)

/-- **What the pass demands of a select**: its order terms resolve in the scope of its settled
source, and the same is true of every select below it. -/
inductive Select.Resolvable : Scope → Select → Prop
  | intro {scope : Scope} {s : Select} (sources : ∀ q ∈ s.sources, Resolvable scope q)
      (conditions : ∀ source ∈ s.source, ∀ c ∈ source.framedConditions, ∀ q ∈ c.2.subqueries,
        Resolvable (c.1 :: scope) q)
      (clauses : ∀ e ∈ s.clauses, ∀ q ∈ e.subqueries, Resolvable (s.renewed.frame :: scope) q)
      (terms : ∀ t ∈ s.ordering, ∀ r ∈ t.expr.localRefs,
        Scope.error? (s.renewed.frame :: scope) r = none) :
      Resolvable scope s

/-! ## The pass, taken apart -/

section Pass

variable (scope : Scope)

/-- The pass goes through a list item by item. -/
theorem Expr.placeOrderingsList_eq (es : List Expr) :
    Expr.placeOrderingsList scope es = es.mapM (Expr.placeOrderings scope) := by
  induction es with
  | nil => simp [Expr.placeOrderingsList]
  | cons e es ih => simp [Expr.placeOrderingsList, ih]

theorem Expr.placeOrderingsOption_eq (o : Option Expr) :
    Expr.placeOrderingsOption scope o =
      (do return (← o.toList.mapM (Expr.placeOrderings scope)).head?) := by
  cases o <;> simp [Expr.placeOrderingsOption]

/-- The pass goes through the condition of a branch before its result. -/
theorem Branch.placeOrderingsList_eq (bs : List Branch) :
    Branch.placeOrderingsList scope bs = bs.mapM fun (b : Branch) => do
      let condition ← b.condition.placeOrderings scope
      let result ← b.result.placeOrderings scope
      return Branch.mk condition result := by
  induction bs with
  | nil => simp [Branch.placeOrderingsList]
  | cons b bs ih => cases b; simp [Branch.placeOrderingsList, ih]

theorem OrderTerm.placeOrderingsList_eq (ts : List OrderTerm) :
    OrderTerm.placeOrderingsList scope ts = ts.mapM fun (t : OrderTerm) => do
      let expr ← t.expr.placeOrderings scope
      return OrderTerm.mk expr t.direction := by
  induction ts with
  | nil => simp [OrderTerm.placeOrderingsList]
  | cons t ts ih => cases t; simp [OrderTerm.placeOrderingsList, ih]

theorem Column.placeOrderingsList_eq (cs : List Column) :
    Column.placeOrderingsList scope cs = cs.mapM fun (c : Column) => do
      let expr ← c.expr.placeOrderings scope
      return Column.mk c.name expr c.type := by
  induction cs with
  | nil => simp [Column.placeOrderingsList]
  | cons c cs ih => cases c; simp [Column.placeOrderingsList, ih]

/-- The pass goes through the parts of an expression and then through its select, whose ordering it
places as that of an expression. -/
theorem Expr.placeOrderings_eq (e : Expr) :
    e.placeOrderings scope = e.traverseParts (Expr.placeOrderings scope) fun q => do
      return (← q.placeOrderings scope .expression).1 := by
  cases e with
  | caseWhen branches otherwise =>
    simp only [Expr.placeOrderings, Branch.placeOrderingsList_eq, Expr.placeOrderingsOption_eq,
      bind_assoc, pure_bind, Expr.traverseParts, Expr.parts, Expr.query?, Expr.withParts,
      Option.toList_none, List.mapM_nil]
    exact (Expr.mapM_refill branches otherwise.toList fun r =>
      pure (Expr.caseWhen r.1 r.2.head?)).symm
  | rowNumber order =>
    simp only [Expr.placeOrderings, OrderTerm.placeOrderingsList_eq, Expr.traverseParts,
      Expr.parts, Expr.query?, Expr.withParts, Option.toList_none, List.mapM_nil, pure_bind]
    exact (Expr.mapM_zipWith order fun ts => pure (Expr.rowNumber ts)).symm
  | _ =>
    simp [Expr.placeOrderings, Expr.traverseParts, Expr.parts, Expr.query?, Expr.withParts,
      Expr.placeOrderingsList_eq, Expr.placeOrderingsOption_eq]

end Pass

/-- A step whose value is determined, and what is built from that value. -/
theorem Traced.result_bind_pure_eq_ok_iff {α β : Type} {x : Traced α} {a : α} {A : Prop}
    (h : ∀ a', x.result = .ok a' ↔ A ∧ a' = a) (k : α → β) (b : β) :
    (x >>= fun a => pure (k a)).result = .ok b ↔ A ∧ b = k a := by
  simp only [Traced.result_bind_eq_ok, h, Traced.result_pure, Except.ok.injEq]
  constructor
  · rintro ⟨_, ⟨hA, rfl⟩, rfl⟩
    exact ⟨hA, rfl⟩
  · rintro ⟨hA, rfl⟩
    exact ⟨_, ⟨hA, rfl⟩, rfl⟩

/-- Going through a list succeeds exactly if every step does. -/
theorem Traced.result_mapM_eq_ok_iff {α β : Type} {f : α → Traced β} {g : α → β} {A : α → Prop}
    {as : List α} (h : ∀ a ∈ as, ∀ b, (f a).result = .ok b ↔ A a ∧ b = g a) :
    ∀ bs, (as.mapM f).result = .ok bs ↔ (∀ a ∈ as, A a) ∧ bs = as.map g := by
  induction as with
  | nil => simp [eq_comm]
  | cons a as ih =>
    intro bs
    have rest := ih fun a ha => h a (by simp [ha])
    simp only [List.mapM_cons, Traced.result_bind_eq_ok, h a (by simp), rest, Traced.result_pure,
      Except.ok.injEq, List.forall_mem_cons, List.map_cons]
    constructor
    · rintro ⟨b, ⟨ha, rfl⟩, bs', ⟨has, rfl⟩, rfl⟩
      exact ⟨⟨ha, has⟩, rfl⟩
    · rintro ⟨⟨ha, has⟩, rfl⟩
      exact ⟨_, ⟨ha, rfl⟩, _, ⟨has, rfl⟩, rfl⟩

/-- What the pass does to an expression, given what it does to the subqueries in it. -/
theorem Expr.placeOrderings_eq_ok_iff {scope : Scope} {e : Expr}
    (h : ∀ q ∈ e.subqueries, ∀ r, (q.placeOrderings scope .expression).result = .ok r ↔
      q.Resolvable scope ∧ r = q.settled .expression) :
    ∀ e', (e.placeOrderings scope).result = .ok e' ↔
      (∀ q ∈ e.subqueries, q.Resolvable scope) ∧ e' = e.settled := by
  induction e using Expr.parts_induction with
  | step e ih =>
    intro e'
    rw [Expr.subqueries_eq] at h ⊢
    have parts := Traced.result_mapM_eq_ok_iff fun p hp => ih p hp fun q hq =>
      h q (List.mem_append_left _ (List.mem_flatMap_of_mem hp hq))
    have query : ∀ qs, (e.query?.toList.mapM fun (q : Select) => (do
          return (← q.placeOrderings scope .expression).1 : Traced Select)).result = .ok qs ↔
        (∀ q ∈ e.query?.toList, q.Resolvable scope) ∧
          qs = e.query?.toList.map fun q => (q.settled .expression).1 := by
      refine Traced.result_mapM_eq_ok_iff fun q hq => ?_
      exact Traced.result_bind_pure_eq_ok_iff (h q (List.mem_append_right _ hq)) Prod.fst
    have filled : (e.query?.toList.map fun q => (q.settled .expression).1).head? =
        e.query?.map fun q => (q.settled .expression).1 := by
      cases e.query? <;> rfl
    rw [Expr.placeOrderings_eq, Expr.settled_eq]
    simp only [Expr.traverseParts, Traced.result_bind_eq_ok, parts, query, Traced.result_pure,
      Except.ok.injEq, List.forall_mem_append, List.forall_mem_flatMap]
    constructor
    · rintro ⟨_, ⟨hparts, rfl⟩, _, ⟨hquery, rfl⟩, rfl⟩
      exact ⟨⟨hparts, hquery⟩, by rw [filled, Expr.mapParts]⟩
    · rintro ⟨⟨hparts, hquery⟩, rfl⟩
      exact ⟨_, ⟨hparts, rfl⟩, _, ⟨hquery, rfl⟩, by rw [filled, Expr.mapParts]⟩

/-- What the pass does to one select: it succeeds exactly if the select is resolvable, and then
settles it. -/
def Select.Places (q : Select) : Prop :=
  ∀ scope placement r, (q.placeOrderings scope placement).result = .ok r ↔
    q.Resolvable scope ∧ r = q.settled placement

section Places

variable {scope : Scope}

/-- The pass succeeds on an expression that may be missing if it does on each of its subqueries. -/
theorem Expr.placeOrderingsOption_eq_ok_iff {o : Option Expr}
    (h : ∀ e ∈ o, ∀ q ∈ e.subqueries, q.Places) (o' : Option Expr) :
    (Expr.placeOrderingsOption scope o).result = .ok o' ↔
      (∀ e ∈ o, ∀ q ∈ e.subqueries, q.Resolvable scope) ∧ o' = o.map Expr.settled := by
  cases o with
  | none => simp [Expr.placeOrderingsOption, eq_comm]
  | some e =>
    have he := Expr.placeOrderings_eq_ok_iff fun q hq => h e rfl q hq scope .expression
    simp only [Option.mem_some, forall_eq', Option.map_some]
    exact Traced.result_bind_pure_eq_ok_iff he some o'

/-- The pass succeeds on columns if it does on each subquery in them, and leaves the settled
columns. -/
theorem Column.placeOrderingsList_eq_ok_iff {cs : List Column}
    (h : ∀ c ∈ cs, ∀ q ∈ c.expr.subqueries, q.Places) (cs' : List Column) :
    (Column.placeOrderingsList scope cs).result = .ok cs' ↔
      (∀ c ∈ cs, ∀ q ∈ c.expr.subqueries, q.Resolvable scope) ∧ cs' = cs.map Column.settled := by
  rw [Column.placeOrderingsList_eq]
  refine Traced.result_mapM_eq_ok_iff (fun c hc => ?_) cs'
  have hexpr := Expr.placeOrderings_eq_ok_iff fun q hq => h c hc q hq scope .expression
  exact Traced.result_bind_pure_eq_ok_iff hexpr (fun e => Column.mk c.name e c.type)

/-- The same of the terms of an ordering. -/
theorem OrderTerm.placeOrderingsList_eq_ok_iff {ts : List OrderTerm}
    (h : ∀ t ∈ ts, ∀ q ∈ t.expr.subqueries, q.Places) (ts' : List OrderTerm) :
    (OrderTerm.placeOrderingsList scope ts).result = .ok ts' ↔
      (∀ t ∈ ts, ∀ q ∈ t.expr.subqueries, q.Resolvable scope) ∧
        ts' = ts.map OrderTerm.settled := by
  rw [OrderTerm.placeOrderingsList_eq]
  refine Traced.result_mapM_eq_ok_iff (fun t ht => ?_) ts'
  have hexpr := Expr.placeOrderings_eq_ok_iff fun q hq => h t ht q hq scope .expression
  exact Traced.result_bind_pure_eq_ok_iff hexpr (fun e => OrderTerm.mk e t.direction)

/-- The same of a list of expressions. -/
theorem Expr.placeOrderingsList_eq_ok_iff {es : List Expr}
    (h : ∀ e ∈ es, ∀ q ∈ e.subqueries, q.Places) (es' : List Expr) :
    (Expr.placeOrderingsList scope es).result = .ok es' ↔
      (∀ e ∈ es, ∀ q ∈ e.subqueries, q.Resolvable scope) ∧ es' = es.map Expr.settled := by
  rw [Expr.placeOrderingsList_eq]
  exact Traced.result_mapM_eq_ok_iff (fun e he => Expr.placeOrderings_eq_ok_iff
    fun q hq => h e he q hq scope .expression) es'

/-- Lifting never fails; without terms there is nothing to expose. -/
theorem Select.result_lifted (s : Select) (terms : List OrderTerm) :
    (s.lifted terms).result = .ok (.subquery (s.exposing terms).1, (s.exposing terms).2) := by
  unfold Select.lifted
  cases terms with
  | nil => rfl
  | cons t ts => rfl

/-- **When the pass succeeds on a source**: if it does on its subqueries, in the scope around it,
and on the subqueries of its conditions, in the scope of the two sides that they join. -/
theorem Source.placeOrderings_eq_ok_iff {source : Source} (hs : ∀ q ∈ source.selects, q.Places)
    (hc : ∀ e ∈ source.conditions, ∀ q ∈ e.subqueries, q.Places) :
    ∀ r, (source.placeOrderings scope).result = .ok r ↔
      ((∀ q ∈ source.selects, q.Resolvable scope) ∧
        ∀ c ∈ source.framedConditions, ∀ q ∈ c.2.subqueries, q.Resolvable (c.1 :: scope)) ∧
      r = source.settled := by
  induction source using Source.join_induction with
  | table name label =>
    simp [Source.placeOrderings, Source.settled, Source.selects, Source.framedConditions, eq_comm]
  | subquery query =>
    intro r
    simp only [Source.placeOrderings, Traced.result_bind_eq_ok,
      hs query (by simp [Source.selects]) scope .source, Select.result_lifted, Except.ok.injEq,
      Source.selects, List.forall_mem_singleton, Source.framedConditions, List.not_mem_nil,
      false_imp_iff, implies_true, and_true, Source.settled]
    constructor
    · rintro ⟨_, ⟨resolvable, rfl⟩, rfl⟩
      exact ⟨resolvable, rfl⟩
    · rintro ⟨resolvable, rfl⟩
      exact ⟨_, ⟨resolvable, rfl⟩, rfl⟩
  | join kind left right condition ihl ihr =>
    intro r
    simp only [Source.selects, Source.conditions, List.forall_mem_append] at hs hc
    have hcond : ∀ (frame : Frame) (o' : Option Expr),
        (Expr.placeOrderingsOption (frame :: scope) condition).result = .ok o' ↔
          (∀ e ∈ condition, ∀ q ∈ e.subqueries, q.Resolvable (frame :: scope)) ∧
            o' = condition.map Expr.settled :=
      fun frame => Expr.placeOrderingsOption_eq_ok_iff fun e he => hc.2 e (by simpa using he)
    simp only [Source.placeOrderings, Traced.result_bind_eq_ok, ihl hs.1 hc.1.1, ihr hs.2 hc.1.2,
      hcond, Traced.result_pure, Except.ok.injEq, Source.selects, Source.framedConditions,
      List.forall_mem_append, List.forall_mem_map, Option.mem_toList, Source.settled,
      Expr.settledOption_eq]
    constructor
    · rintro ⟨_, ⟨⟨sl, cl⟩, rfl⟩, _, ⟨⟨sr, cr⟩, rfl⟩, _, ⟨c, rfl⟩, rfl⟩
      exact ⟨⟨⟨sl, sr⟩, ⟨cl, cr⟩, c⟩, rfl⟩
    · rintro ⟨⟨⟨sl, sr⟩, ⟨cl, cr⟩, c⟩, rfl⟩
      exact ⟨_, ⟨⟨sl, cl⟩, rfl⟩, _, ⟨⟨sr, cr⟩, rfl⟩, _, ⟨c, rfl⟩, rfl⟩

end Places

/-- The order terms of a select are checked in the scope that its clauses see. -/
theorem Select.arrange_eq_ok_iff {scope : Scope} {placement : Placement} {s : Select}
    {gathered : List OrderTerm} {r : Select × List OrderTerm} :
    (s.arrange scope placement gathered).result = .ok r ↔
      (∀ t ∈ s.ordering, ∀ ref ∈ t.expr.localRefs, scope.error? ref = none) ∧
        r = (s.arranged placement gathered, s.passed placement gathered) := by
  have found : (s.ordering.findSome? fun t => scope.exprError? t.expr) = none ↔
      ∀ t ∈ s.ordering, ∀ ref ∈ t.expr.localRefs, scope.error? ref = none := by
    simp only [List.findSome?_eq_none_iff, Scope.exprError?_eq_none_iff]
  unfold Select.arrange
  split
  · next error h =>
    rw [← found, h]
    simp
  · next h =>
    rw [← found, h]
    simp [eq_comm]

/-- The pass on a select, clause by clause: its source first, then the clauses in the scope of the
new source, and its own ordering last. -/
theorem Select.placeOrderings_eq (scope : Scope) (placement : Placement) (s : Select) :
    s.placeOrderings scope placement = (do
      let r ← Source.placeOrderingsOption scope s.source
      let inner := Source.frameOption r.1 :: scope
      let columns ← Column.placeOrderingsList inner s.columns
      let filter ← Expr.placeOrderingsOption inner s.filter
      let grouping ← Expr.placeOrderingsList inner s.grouping
      let clustering ← Expr.placeOrderingsList inner s.clustering
      let ordering ← OrderTerm.placeOrderingsList inner s.ordering
      Select.arrange inner placement
        { s with columns, source := r.1, filter, ordering, grouping, clustering } r.2) := by
  cases s
  rfl

/-- **The pass succeeds exactly on resolvable selects, and then returns the settled select.** -/
theorem Select.placeOrderings_eq_ok_iff (s : Select) : s.Places := by
  induction s using Select.children_induction with
  | step s ih =>
    intro scope placement r
    simp only [Select.children, List.forall_mem_append, List.forall_mem_flatMap] at ih
    obtain ⟨⟨hsources, hconditions⟩, hclauses⟩ := ih
    simp only [Select.clauses, List.forall_mem_append, List.forall_mem_map, Option.mem_toList]
      at hclauses
    obtain ⟨⟨⟨⟨hcolumns, hfilter⟩, hordering⟩, hgrouping⟩, hclustering⟩ := hclauses
    have hsource : ∀ r, (Source.placeOrderingsOption scope s.source).result = .ok r ↔
        ((∀ q ∈ s.sources, q.Resolvable scope) ∧
          ∀ source ∈ s.source, ∀ c ∈ source.framedConditions, ∀ q ∈ c.2.subqueries,
            q.Resolvable (c.1 :: scope)) ∧
        r = (s.renewed.source, s.gathered) := by
      unfold Select.sources Select.renewed Select.gathered
      unfold Select.sources at hsources
      unfold Select.conditions at hconditions
      cases hsrc : s.source with
      | none => simp [Source.placeOrderingsOption, eq_comm]
      | some source =>
        rw [hsrc] at hsources hconditions
        simp only [Option.toList_some, List.flatMap_singleton] at hsources hconditions ⊢
        simp only [Option.mem_some, forall_eq', Option.map_some]
        exact Traced.result_bind_pure_eq_ok_iff
          (Source.placeOrderings_eq_ok_iff hsources hconditions) fun r => (some r.1, r.2)
    have resolvable : s.Resolvable scope ↔
        ((∀ q ∈ s.sources, q.Resolvable scope) ∧
          ∀ source ∈ s.source, ∀ c ∈ source.framedConditions, ∀ q ∈ c.2.subqueries,
            q.Resolvable (c.1 :: scope)) ∧
        (∀ e ∈ s.clauses, ∀ q ∈ e.subqueries, q.Resolvable (s.renewed.frame :: scope)) ∧
        ∀ t ∈ s.ordering, ∀ ref ∈ t.expr.localRefs,
          Scope.error? (s.renewed.frame :: scope) ref = none := by
      constructor
      · rintro ⟨h1, h2, h3, h4⟩
        exact ⟨⟨h1, h2⟩, h3, h4⟩
      · rintro ⟨⟨h1, h2⟩, h3, h4⟩
        exact ⟨h1, h2, h3, h4⟩
    -- The clauses run in one scope, that of the settled source, so each is read off in turn.
    rw [resolvable, Select.settled_eq, Select.placeOrderings_eq]
    simp only [Traced.result_bind_eq_ok, hsource, Column.placeOrderingsList_eq_ok_iff hcolumns,
      Expr.placeOrderingsOption_eq_ok_iff hfilter, Expr.placeOrderingsList_eq_ok_iff hgrouping,
      Expr.placeOrderingsList_eq_ok_iff hclustering,
      OrderTerm.placeOrderingsList_eq_ok_iff hordering, Select.arrange_eq_ok_iff]
    simp only [Select.clauses, List.forall_mem_append, List.forall_mem_map, Option.mem_toList]
    constructor
    · rintro ⟨_, ⟨source, rfl⟩, _, ⟨cs, rfl⟩, _, ⟨f, rfl⟩, _, ⟨g, rfl⟩, _, ⟨k, rfl⟩, _, ⟨o, rfl⟩,
        terms, rfl⟩
      refine ⟨⟨source, ⟨⟨⟨⟨cs, f⟩, o⟩, g⟩, k⟩, fun t ht => ?_⟩, rfl⟩
      simpa [OrderTerm.settled, Select.frame] using terms t.settled (List.mem_map_of_mem ht)
    · rintro ⟨⟨source, ⟨⟨⟨⟨cs, f⟩, o⟩, g⟩, k⟩, terms⟩, rfl⟩
      refine ⟨_, ⟨source, rfl⟩, _, ⟨cs, rfl⟩, _, ⟨f, rfl⟩, _, ⟨g, rfl⟩, _, ⟨k, rfl⟩, _, ⟨o, rfl⟩,
        ?_, rfl⟩
      intro t ht
      obtain ⟨own, hown, rfl⟩ := List.mem_map.1 ht
      simpa [OrderTerm.settled, Select.frame] using terms own hown

end HiveQuery
