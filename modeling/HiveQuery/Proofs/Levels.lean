import HiveQuery.Tree.Nodes
import Mathlib.Data.List.Basic
/-!
# Levels of a tree

The passes treat the constructors of an expression alike: they go through its parts in order and
then, for a subquery, through its select. This file says so once. `Expr.parts` are the expressions
directly below an expression on its own level, and `Expr.subqueries` the selects directly below that
level; what a reader asks of an expression is then one equation over its parts. The same is done for
sources and selects, down to `Select.children`, the selects directly below a select. Facts about
whole trees are proved by induction on parts and on children, and neither induction has a case for
each constructor.
-/

namespace HiveQuery

/-! ## The parts of an expression -/

/-- The two expressions of a branch. -/
def Branch.parts (b : Branch) : List Expr :=
  [b.condition, b.result]

@[simp] theorem Branch.parts_eq (b : Branch) : b.parts = [b.condition, b.result] :=
  rfl

namespace Expr

/-- The expressions directly below an expression, those inside a subquery apart. -/
def parts : Expr → List Expr
  | column .. | literal _ | generatedId _ | scalarQuery _ | existsQuery _ => []
  | binary _ left right => [left, right]
  | unary _ operand | isNull operand _ | cast operand _ | inQuery operand _ => [operand]
  | caseWhen branches otherwise =>
    branches.flatMap Branch.parts ++ otherwise.toList
  | call _ args _ => args
  | aggregate _ arg _ => arg.toList
  | rowNumber order => order.map (·.expr)

/-- The selects of the subqueries that an expression holds on its own level. -/
def subqueries (e : Expr) : List Select :=
  e.level.filterMap query?

/-- The parts of an expression are smaller than it, so that one can recurse on them. -/
theorem sizeOf_lt_of_mem_parts {e p : Expr} (h : p ∈ e.parts) : sizeOf p < sizeOf e := by
  cases e with
  | column | literal | generatedId | scalarQuery | existsQuery => simp [parts] at h
  | binary op left right =>
    simp only [parts, List.mem_cons, List.not_mem_nil, or_false] at h
    simp only [binary.sizeOf_spec]
    rcases h with rfl | rfl <;> omega
  | unary | isNull | cast | inQuery =>
    simp only [parts, List.mem_singleton] at h
    subst h
    simp only [unary.sizeOf_spec, isNull.sizeOf_spec, cast.sizeOf_spec, inQuery.sizeOf_spec]
    omega
  | caseWhen branches otherwise =>
    simp only [parts, List.mem_append, List.mem_flatMap, Branch.parts_eq, List.mem_cons,
      List.not_mem_nil, or_false, Option.mem_toList] at h
    rcases h with ⟨b, hb, hp⟩ | rfl
    · have hlt := List.sizeOf_lt_of_mem hb
      obtain ⟨condition, result⟩ := b
      simp only [Branch.mk.sizeOf_spec] at hlt
      simp only [caseWhen.sizeOf_spec]
      rcases hp with rfl | rfl <;> omega
    · simp only [caseWhen.sizeOf_spec, Option.some.sizeOf_spec]
      omega
  | call name args resource =>
    have hlt := List.sizeOf_lt_of_mem (show p ∈ args from h)
    simp only [call.sizeOf_spec]
    omega
  | aggregate function arg distinct =>
    simp only [parts, Option.mem_toList] at h
    subst h
    simp only [aggregate.sizeOf_spec, Option.some.sizeOf_spec]
    omega
  | rowNumber order =>
    simp only [parts, List.mem_map] at h
    obtain ⟨t, ht, rfl⟩ := h
    have hlt := List.sizeOf_lt_of_mem ht
    obtain ⟨expr, direction⟩ := t
    simp only [OrderTerm.mk.sizeOf_spec] at hlt
    simp only [rowNumber.sizeOf_spec]
    omega

/-- Induction on the parts of an expression. -/
@[elab_as_elim]
theorem parts_induction {motive : Expr → Prop}
    (step : ∀ e, (∀ p ∈ e.parts, motive p) → motive e) (e : Expr) : motive e :=
  step e fun p _ => parts_induction step p
termination_by sizeOf e
decreasing_by exact sizeOf_lt_of_mem_parts ‹_›

end Expr

/-! ## Reading off the parts -/

theorem Expr.nodesOption_eq (o : Option Expr) :
    Expr.nodesOption o = o.toList.flatMap Expr.nodes := by
  cases o <;> simp [Expr.nodesOption]

/-- The nodes of branches are those of their conditions and results, branch by branch. -/
theorem Branch.nodesList_eq (bs : List Branch) :
    Branch.nodesList bs = (bs.flatMap Branch.parts).flatMap Expr.nodes := by
  induction bs with
  | nil => rfl
  | cons b bs ih => cases b; simp [Branch.nodesList, ih]

namespace Expr

theorem levelList_eq (es : List Expr) : levelList es = es.flatMap level := by
  induction es with
  | nil => rfl
  | cons e es ih => simp [levelList, ih]

theorem levelOption_eq (o : Option Expr) : levelOption o = o.toList.flatMap level := by
  cases o <;> simp [levelOption]

/-- The level of branches is that of their conditions and results. -/
theorem levelBranches_eq (bs : List Branch) :
    levelBranches bs = (bs.flatMap Branch.parts).flatMap level := by
  induction bs with
  | nil => rfl
  | cons b bs ih => cases b; simp [levelBranches, ih]

theorem levelTerms_eq (ts : List OrderTerm) :
    levelTerms ts = (ts.map (·.expr)).flatMap level := by
  induction ts with
  | nil => rfl
  | cons t ts ih => cases t; simp [levelTerms, ih]

/-- The level of an expression is the levels of its parts and the expression itself. -/
theorem level_eq (e : Expr) : e.level = e.parts.flatMap level ++ [e] := by
  cases e <;>
    simp [level, parts, levelList_eq, levelOption_eq, levelBranches_eq, levelTerms_eq]

/-- On the level of an expression there are the expression and the levels of its parts. -/
theorem mem_level {e x : Expr} : x ∈ e.level ↔ x = e ∨ ∃ p ∈ e.parts, x ∈ p.level := by
  rw [level_eq, List.mem_append, List.mem_flatMap, List.mem_singleton, or_comm]

/-- An expression refers to what its parts refer to, and to a column if it is a reference. -/
theorem localRefs_eq (e : Expr) :
    e.localRefs = e.parts.flatMap localRefs ++ e.ref?.toList := by
  rw [localRefs, level_eq, List.filterMap_append, List.filterMap_flatMap]
  cases h : e.ref? <;> simp [h] <;> rfl

/-- The subqueries of an expression are those of its parts, and its own. -/
theorem subqueries_eq (e : Expr) :
    e.subqueries = e.parts.flatMap subqueries ++ e.query?.toList := by
  rw [subqueries, level_eq, List.filterMap_append, List.filterMap_flatMap]
  cases h : e.query? <;> simp [h] <;> rfl

/-- An expression comes before the nodes of its parts, and these before the nodes of its select. -/
theorem nodes_eq (e : Expr) :
    e.nodes = .expr e :: (e.parts.flatMap nodes ++ e.query?.toList.flatMap Select.nodes) := by
  cases e <;>
    simp [nodes, parts, query?, nodesOption_eq, Branch.nodesList_eq, List.flatMap_map]

/-- Whether the expression is an aggregate itself. -/
def isAggregate : Expr → Bool
  | aggregate .. => true
  | _ => false

/-- Whether the expression is a row number itself. -/
def isRowNumber : Expr → Bool
  | rowNumber _ => true
  | _ => false

theorem aggregatesOption_eq (o : Option Expr) :
    aggregatesOption o = o.toList.any aggregates := by
  cases o <;> simp [aggregatesOption]

theorem aggregatesBranches_eq (bs : List Branch) :
    aggregatesBranches bs = (bs.flatMap Branch.parts).any aggregates := by
  induction bs with
  | nil => rfl
  | cons b bs ih => cases b; simp [aggregatesBranches, ih, Bool.or_assoc]

/-- An expression aggregates if it is an aggregate or one of its parts aggregates; but the order of
a row number does not count. -/
theorem aggregates_eq (e : Expr) :
    e.aggregates = (e.isAggregate || !e.isRowNumber && e.parts.any aggregates) := by
  cases e <;>
    simp [aggregates, parts, isAggregate, isRowNumber, aggregatesOption_eq, aggregatesBranches_eq]

/-! ## Putting other parts in -/

/-- The branches with other conditions and results, and the expressions that are left over. -/
def refill : List Branch → List Expr → List Branch × List Expr
  | _ :: bs, condition :: result :: ps =>
    (⟨condition, result⟩ :: (refill bs ps).1, (refill bs ps).2)
  | _, ps => ([], ps)

/-- The expression with other parts and another select, as many of them as it has. -/
def withParts : Expr → List Expr → Option Select → Expr
  | binary op _ _, [left, right], _ => binary op left right
  | unary op _, [operand], _ => unary op operand
  | isNull _ negated, [operand], _ => isNull operand negated
  | cast _ type, [operand], _ => cast operand type
  | caseWhen branches _, ps, _ => caseWhen (refill branches ps).1 (refill branches ps).2.head?
  | call name _ resource, ps, _ => call name ps resource
  | aggregate function _ distinct, ps, _ => aggregate function ps.head? distinct
  | rowNumber order, ps, _ => rowNumber (List.zipWith (fun t p => ⟨p, t.direction⟩) order ps)
  | scalarQuery _, _, some query => scalarQuery query
  | existsQuery _, _, some query => existsQuery query
  | inQuery _ _, [operand], some query => inQuery operand query
  | e, _, _ => e

/-- Parts and a select that can take the place of those of an expression. -/
structure Fits (e : Expr) (ps : List Expr) (query : Option Select) : Prop where
  length_eq : ps.length = e.parts.length
  isSome_eq : query.isSome = e.query?.isSome

variable {e : Expr} {ps : List Expr} {query : Option Select}

/-- Refilling loses nothing. -/
theorem refill_parts (bs : List Branch) (ps : List Expr) :
    (refill bs ps).1.flatMap Branch.parts ++ (refill bs ps).2 = ps := by
  induction bs, ps using refill.induct with
  | case1 b bs condition result ps ih => simp [refill, ih]
  | case2 bs ps h => simp [refill]

/-- Refilling takes two expressions for each branch and leaves the rest. -/
theorem length_refill (bs : List Branch) (ps : List Expr)
    (h : (bs.flatMap Branch.parts).length ≤ ps.length) :
    (refill bs ps).2.length + (bs.flatMap Branch.parts).length
      = ps.length := by
  induction bs generalizing ps with
  | nil => simp [refill]
  | cons b bs ih =>
    match ps with
    | [] => simp at h
    | [_] => simp at h
    | condition :: result :: ps =>
      have hlen := ih ps (by simpa using h)
      simp only [refill, List.flatMap_cons, Branch.parts_eq, List.length_append, List.length_cons,
        List.length_nil] at hlen ⊢
      omega

/-- Branches that are refilled with the images of their own expressions are mapped. -/
theorem refill_map (f : Expr → Expr) (bs : List Branch) (rest : List Expr) :
    refill bs ((bs.flatMap Branch.parts).map f ++ rest) =
      (bs.map fun b => ⟨f b.condition, f b.result⟩, rest) := by
  induction bs with
  | nil => cases rest <;> rfl
  | cons b bs ih => simp [refill, ih]

theorem toList_head? {α : Type} {l : List α} (h : l.length ≤ 1) : l.head?.toList = l := by
  match l with
  | [] => rfl
  | [_] => rfl
  | _ :: _ :: _ => simp at h

/-- Terms with other expressions order by these. -/
theorem map_expr_zipWith (order : List OrderTerm) (ps : List Expr)
    (h : ps.length = order.length) :
    (List.zipWith (fun (t : OrderTerm) p => (⟨p, t.direction⟩ : OrderTerm)) order ps).map (·.expr)
      = ps := by
  induction order generalizing ps with
  | nil => simpa using h
  | cons t order ih =>
    cases ps with
    | nil => simp at h
    | cons p ps => simpa using ih ps (by simpa using h)

theorem length_toList_le (o : Option Expr) : o.toList.length ≤ 1 := by
  cases o <;> simp

/-- What the expression becomes: the new parts and select stand where the old ones stood, and it is
of the same kind. -/
theorem withParts_spec (h : e.Fits ps query) :
    (e.withParts ps query).parts = ps ∧ (e.withParts ps query).query? = query ∧
      (e.withParts ps query).ref? = e.ref? ∧
      (e.withParts ps query).isAggregate = e.isAggregate ∧
      (e.withParts ps query).isRowNumber = e.isRowNumber := by
  obtain ⟨hlen, hsome⟩ := h
  cases e with
  | column | literal | generatedId =>
    obtain rfl := List.eq_nil_of_length_eq_zero hlen
    obtain rfl := Option.not_isSome_iff_eq_none.1 (by rw [hsome]; exact Bool.false_ne_true)
    exact ⟨rfl, rfl, rfl, rfl, rfl⟩
  | scalarQuery | existsQuery =>
    obtain ⟨q, rfl⟩ := Option.isSome_iff_exists.1 hsome
    obtain rfl := List.eq_nil_of_length_eq_zero hlen
    exact ⟨rfl, rfl, rfl, rfl, rfl⟩
  | inQuery =>
    obtain ⟨q, rfl⟩ := Option.isSome_iff_exists.1 hsome
    obtain ⟨o, rfl⟩ := List.length_eq_one_iff.1 hlen
    exact ⟨rfl, rfl, rfl, rfl, rfl⟩
  | binary =>
    obtain ⟨l, r, rfl⟩ := List.length_eq_two.1 hlen
    obtain rfl := Option.not_isSome_iff_eq_none.1 (by rw [hsome]; exact Bool.false_ne_true)
    exact ⟨rfl, rfl, rfl, rfl, rfl⟩
  | unary | isNull | cast =>
    obtain ⟨o, rfl⟩ := List.length_eq_one_iff.1 hlen
    obtain rfl := Option.not_isSome_iff_eq_none.1 (by rw [hsome]; exact Bool.false_ne_true)
    exact ⟨rfl, rfl, rfl, rfl, rfl⟩
  | caseWhen branches otherwise =>
    obtain rfl := Option.not_isSome_iff_eq_none.1 (by rw [hsome]; exact Bool.false_ne_true)
    refine ⟨?_, rfl, rfl, rfl, rfl⟩
    simp only [parts, List.length_append] at hlen
    have hone : (refill branches ps).2.length ≤ 1 := by
      have := length_refill branches ps (by omega)
      have := length_toList_le otherwise
      omega
    rw [withParts, parts, toList_head? hone]
    exact refill_parts branches ps
  | call =>
    obtain rfl := Option.not_isSome_iff_eq_none.1 (by rw [hsome]; exact Bool.false_ne_true)
    exact ⟨rfl, rfl, rfl, rfl, rfl⟩
  | aggregate function arg distinct =>
    obtain rfl := Option.not_isSome_iff_eq_none.1 (by rw [hsome]; exact Bool.false_ne_true)
    have := length_toList_le arg
    exact ⟨toList_head? (by simp only [parts] at hlen; omega), rfl, rfl, rfl, rfl⟩
  | rowNumber order =>
    obtain rfl := Option.not_isSome_iff_eq_none.1 (by rw [hsome]; exact Bool.false_ne_true)
    exact ⟨map_expr_zipWith order ps (by simpa [parts] using hlen), rfl, rfl, rfl, rfl⟩

/-- With its own parts an expression is what it was. -/
theorem withParts_self (e : Expr) : e.withParts e.parts e.query? = e := by
  cases e with
  | caseWhen branches otherwise =>
    have h := refill_map id branches otherwise.toList
    simp only [List.map_id] at h
    simp only [withParts, parts, h, id_eq, Option.head?_toList, caseWhen.injEq, and_true]
    exact List.map_id'' (fun b => by cases b; rfl) branches
  | aggregate function arg distinct => simp [withParts, parts]
  | rowNumber order =>
    rw [withParts, parts]
    congr 1
    induction order with
    | nil => rfl
    | cons t order ih => cases t; simpa using ih
  | _ => rfl

/-- The expression with its parts and its select replaced. -/
def mapParts (f : Expr → Expr) (g : Select → Select) (e : Expr) : Expr :=
  e.withParts (e.parts.map f) (e.query?.map g)

/-- The images of the parts of an expression can take their places. -/
theorem fits_map (f : Expr → Expr) (g : Select → Select) (e : Expr) :
    e.Fits (e.parts.map f) (e.query?.map g) :=
  ⟨by simp, by simp⟩

variable {f : Expr → Expr} {g : Select → Select}

/-- The parts of the new expression are the images of the old ones. -/
@[simp] theorem parts_mapParts : (e.mapParts f g).parts = e.parts.map f :=
  (withParts_spec (fits_map f g e)).1

/-- The select of the new expression is the image of the old one. -/
@[simp] theorem query?_mapParts : (e.mapParts f g).query? = e.query?.map g :=
  (withParts_spec (fits_map f g e)).2.1

/-- Replacing parts makes no reference and removes none. -/
@[simp] theorem ref?_mapParts : (e.mapParts f g).ref? = e.ref? :=
  (withParts_spec (fits_map f g e)).2.2.1

/-- Replacing parts does not make an aggregate of anything else, nor the reverse. -/
@[simp] theorem isAggregate_mapParts : (e.mapParts f g).isAggregate = e.isAggregate :=
  (withParts_spec (fits_map f g e)).2.2.2.1

@[simp] theorem isRowNumber_mapParts : (e.mapParts f g).isRowNumber = e.isRowNumber :=
  (withParts_spec (fits_map f g e)).2.2.2.2

/-- Where nothing is replaced, nothing changes. -/
theorem mapParts_eq_self (hf : ∀ p ∈ e.parts, f p = p) (hg : ∀ q ∈ e.query?, g q = q) :
    e.mapParts f g = e := by
  rw [mapParts, List.map_congr_left hf, List.map_id', Option.map_congr hg, Option.map_id']
  exact withParts_self e

end Expr

/-! ## Sources -/

namespace Source

/-- Induction on the joins of a source. -/
@[elab_as_elim]
theorem join_induction {motive : Source → Prop}
    (table : ∀ name label, motive (table name label))
    (subquery : ∀ query, motive (subquery query))
    (join : ∀ kind left right condition, motive left → motive right →
      motive (join kind left right condition)) : ∀ source, motive source
  | .table name label => table name label
  | .subquery query => subquery query
  | .join kind left right condition =>
    join kind left right condition (join_induction table subquery join left)
      (join_induction table subquery join right)

/-- The selects that a source reads, from left to right. -/
def selects : Source → List Select
  | table .. => []
  | subquery query => [query]
  | join _ left right _ => left.selects ++ right.selects

/-- The conditions of the joins of a source. -/
def conditions : Source → List Expr
  | table .. | subquery _ => []
  | join _ left right condition => left.conditions ++ right.conditions ++ condition.toList

/-- The subqueries of a source are smaller than it. -/
theorem sizeOf_lt_of_mem_selects {source : Source} {q : Select} (h : q ∈ source.selects) :
    sizeOf q < sizeOf source := by
  induction source using join_induction with
  | table => simp [selects] at h
  | subquery query =>
    obtain rfl := List.mem_singleton.1 h
    simp only [subquery.sizeOf_spec]
    omega
  | join kind left right condition hl hr =>
    rcases List.mem_append.1 h with h | h
    · have := hl h
      simp only [join.sizeOf_spec]
      omega
    · have := hr h
      simp only [join.sizeOf_spec]
      omega

/-- The conditions of a source are smaller than it. -/
theorem sizeOf_lt_of_mem_conditions {source : Source} {e : Expr} (h : e ∈ source.conditions) :
    sizeOf e < sizeOf source := by
  induction source using join_induction with
  | table | subquery => simp [conditions] at h
  | join kind left right condition hl hr =>
    simp only [conditions, List.mem_append, Option.mem_toList] at h
    rcases h with (h | h) | rfl
    · have := hl h
      simp only [join.sizeOf_spec]
      omega
    · have := hr h
      simp only [join.sizeOf_spec]
      omega
    · simp only [join.sizeOf_spec, Option.some.sizeOf_spec]
      omega

end Source

/-! ## Selects -/

namespace Select

/-- The selects that the source of a select reads. -/
def sources (s : Select) : List Select :=
  s.source.toList.flatMap Source.selects

/-- The conditions of the joins in the source of a select. -/
def conditions (s : Select) : List Expr :=
  s.source.toList.flatMap Source.conditions

/-- The expressions of the clauses of a select, its source apart. -/
def clauses (s : Select) : List Expr :=
  s.columns.map (·.expr) ++ s.filter.toList ++ s.ordering.map (·.expr) ++ s.grouping ++ s.clustering

/-- The expression of a column stands in a clause. -/
theorem mem_clauses_of_columns {s : Select} {c : Column} (h : c ∈ s.columns) :
    c.expr ∈ s.clauses := by
  simp only [clauses, List.append_assoc]
  exact List.mem_append_left _ (List.mem_map_of_mem h)

theorem mem_clauses_of_filter {s : Select} {e : Expr} (h : e ∈ s.filter) : e ∈ s.clauses := by
  simp only [clauses, List.mem_append, Option.mem_toList]
  exact .inl (.inl (.inl (.inr h)))

theorem mem_clauses_of_ordering {s : Select} {t : OrderTerm} (h : t ∈ s.ordering) :
    t.expr ∈ s.clauses := by
  simp only [clauses, List.mem_append]
  exact .inl (.inl (.inr (List.mem_map_of_mem h)))

theorem mem_clauses_of_grouping {s : Select} {e : Expr} (h : e ∈ s.grouping) : e ∈ s.clauses :=
  List.mem_append_left _ (List.mem_append_right _ h)

theorem mem_clauses_of_clustering {s : Select} {e : Expr} (h : e ∈ s.clustering) :
    e ∈ s.clauses :=
  List.mem_append_right _ h

/-- The expressions of the clauses of a select other than its filter. -/
def others (s : Select) : List Expr :=
  s.columns.map (·.expr) ++ s.ordering.map (·.expr) ++ s.grouping ++ s.clustering

/-- The columns are a clause other than the filter. -/
theorem mem_others_of_columns {s : Select} {c : Column} (h : c ∈ s.columns) :
    c.expr ∈ s.others := by
  simp only [others, List.append_assoc]
  exact List.mem_append_left _ (List.mem_map_of_mem h)

theorem mem_others_of_ordering {s : Select} {t : OrderTerm} (h : t ∈ s.ordering) :
    t.expr ∈ s.others := by
  simp only [others, List.append_assoc]
  exact List.mem_append_right _ (List.mem_append_left _ (List.mem_map_of_mem h))

/-- An expression of a clause stands in the filter or in another one. -/
theorem mem_clauses_iff {s : Select} {e : Expr} :
    e ∈ s.clauses ↔ e ∈ s.others ∨ e ∈ s.filter := by
  simp only [clauses, others, List.mem_append, Option.mem_toList]
  tauto

/-- The selects directly below a select. -/
def children (s : Select) : List Select :=
  s.sources ++ s.conditions.flatMap Expr.subqueries ++ s.clauses.flatMap Expr.subqueries

end Select

/-- The subqueries of an expression are smaller than it, however deep on its level they stand. -/
theorem Expr.sizeOf_lt_of_mem_subqueries {e : Expr} {q : Select} (h : q ∈ e.subqueries) :
    sizeOf q < sizeOf e := by
  induction e using parts_induction with
  | step e ih =>
    rw [subqueries_eq, List.mem_append, List.mem_flatMap, Option.mem_toList] at h
    rcases h with ⟨p, hp, hq⟩ | hq
    · exact Nat.lt_trans (ih p hp hq) (sizeOf_lt_of_mem_parts hp)
    · cases e with
      | scalarQuery | existsQuery | inQuery =>
        obtain rfl := Option.some.inj hq
        simp only [scalarQuery.sizeOf_spec, existsQuery.sizeOf_spec, inQuery.sizeOf_spec]
        omega
      | _ => cases hq

namespace Select

/-- The expressions of a select are smaller than it. -/
theorem sizeOf_lt_of_mem_clauses {s : Select} {e : Expr} (h : e ∈ s.clauses) :
    sizeOf e < sizeOf s := by
  obtain ⟨label, columns, source, filter, ordering, grouping, clustering, distinct, skip, take,
    reversed⟩ := s
  simp only [clauses, List.mem_append, List.mem_map, Option.mem_toList] at h
  simp only [mk.sizeOf_spec]
  rcases h with (((⟨c, hc, rfl⟩ | rfl) | ⟨t, ht, rfl⟩) | h) | h
  · have hlt := List.sizeOf_lt_of_mem hc
    cases c
    simp only [Column.mk.sizeOf_spec] at hlt ⊢
    omega
  · simp only [Option.some.sizeOf_spec]
    omega
  · have hlt := List.sizeOf_lt_of_mem ht
    cases t
    simp only [OrderTerm.mk.sizeOf_spec] at hlt ⊢
    omega
  · have hlt := List.sizeOf_lt_of_mem h
    omega
  · have hlt := List.sizeOf_lt_of_mem h
    omega

/-- The source of a select is smaller than it. -/
theorem sizeOf_lt_of_source {s : Select} {source : Source} (h : source ∈ s.source) :
    sizeOf source < sizeOf s := by
  cases s
  obtain rfl := Option.mem_def.1 h
  simp only [mk.sizeOf_spec, Option.some.sizeOf_spec]
  omega

/-- The selects directly below a select are smaller than it: the induction on them rests on this. -/
theorem sizeOf_lt_of_mem_children {s q : Select} (h : q ∈ s.children) : sizeOf q < sizeOf s := by
  simp only [children, sources, conditions, List.mem_append, List.mem_flatMap,
    Option.mem_toList] at h
  rcases h with (⟨source, hs, hq⟩ | ⟨e, ⟨source, hs, he⟩, hq⟩) | ⟨e, he, hq⟩
  · exact Nat.lt_trans (Source.sizeOf_lt_of_mem_selects hq) (sizeOf_lt_of_source hs)
  · exact Nat.lt_trans (Expr.sizeOf_lt_of_mem_subqueries hq)
      (Nat.lt_trans (Source.sizeOf_lt_of_mem_conditions he) (sizeOf_lt_of_source hs))
  · exact Nat.lt_trans (Expr.sizeOf_lt_of_mem_subqueries hq) (sizeOf_lt_of_mem_clauses he)

/-- A select holds itself and what the selects directly below it hold. -/
inductive Holds : Select → Select → Prop
  | self (s : Select) : Holds s s
  | child {s c q : Select} (hc : c ∈ s.children) (hq : Holds c q) : Holds s q

/-- Induction on the selects directly below a select. -/
@[elab_as_elim]
theorem children_induction {motive : Select → Prop}
    (step : ∀ s, (∀ q ∈ s.children, motive q) → motive s) (s : Select) : motive s :=
  step s fun q _ => children_induction step q
termination_by sizeOf s
decreasing_by exact sizeOf_lt_of_mem_children ‹_›

end Select

end HiveQuery
