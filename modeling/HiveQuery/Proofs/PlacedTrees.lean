import HiveQuery.Proofs.OrderingLabels
import HiveQuery.Proofs.Rebuilding
import HiveQuery.Proofs.Stability
import Mathlib
/-!
# The trees that placing makes

What placing the orderings of a valid statement returns is valid but for its labels
(`Statement.placeOrderings_keeps_references`): a lifted term refers to a column that the subquery
has been given for it, and what could be seen before can still be seen.

What it returns for any statement is in a normal form (`Statement.placeOrderings_normal`). No select
is reversed or has a term twice, and below the top only a page is ordered. Each select is the one
that stood in its place, rebuilt from below: it may have lost its ordering or taken terms from its
source, and where it is read by another select it may have been given columns behind its own.
-/

namespace HiveQuery

/-! ## References -/

/-- The answer for a query whose references resolve is that about its labels. -/
theorem Projection.check_eq_checkLabels {p : Projection} (select : p.select.check [] = .ok ())
    (projector : p.checkProjector = .ok ()) : p.check = p.checkLabels := by
  rw [Projection.check, select, projector]
  cases p.checkLabels <;> rfl

/-- **The references of a valid query resolve when its orderings have been placed.** -/
theorem Projection.Checks.placed {p : Projection} (h : p.Checks) :
    p.placed.select.check [] = .ok () ∧ p.placed.checkProjector = .ok () := by
  refine ⟨Select.check_exposed (nodup_select_labels h.labels) h.select .nil .outermost, ?_⟩
  rw [checkProjector_eq_ok_iff, Projection.placed, Source.frame_subquery_exposed (by decide)]
  exact h.projector

/-- If the selects and the projectors pass, all that can go wrong is a label that is declared
twice. -/
theorem Statement.check_eq_forM_checkLabels {s : Statement}
    (h : ∀ p ∈ s.queries, p.select.check [] = .ok () ∧ p.checkProjector = .ok ()) :
    s.check = s.queries.forM Projection.checkLabels := by
  rw [Statement.check]
  generalize s.queries = ps at h
  induction ps with
  | nil => rfl
  | cons p ps ih =>
    rw [List.forall_mem_cons] at h
    have first := Projection.check_eq_checkLabels h.1.1 h.1.2
    exact congrArg₂ (fun x y : Except Failure Unit => x >>= fun _ => y) first (ih h.2)

/-- **Placing keeps references resolvable.** What it returns for a valid statement fails no check
but that of the labels. Wherever a select stands in it, the column names of the select differ, and
what its clauses and join conditions refer to can be seen there, lifted terms included; and the
projector refers to columns of the top select. -/
theorem Statement.placeOrderings_keeps_references {s s' : Statement} (valid : s.check = .ok ())
    (h : s.placeOrderings.result = .ok s') :
    s'.check = s'.queries.forM Projection.checkLabels ∧
      ∀ p ∈ s'.queries,
        (∀ around q, p.select.Within [] around q → q.Resolves around) ∧
        ∀ e ∈ p.projector.exprs, ∀ r ∈ e.localRefs,
          r.1 = p.select.label ∧ r.2 ∈ p.select.columnNames := by
  have resolved : ∀ p ∈ s'.queries, p.select.check [] = .ok () ∧ p.checkProjector = .ok () := by
    intro p' hp'
    obtain ⟨p, hp, rfl⟩ := exists_of_forall₂_of_mem (forall₂_placed h) hp'
    exact (Statement.check_eq_ok_iff.1 valid p hp).placed
  refine ⟨check_eq_forM_checkLabels resolved, fun p hp => ⟨?_, fun e he r hr => ?_⟩⟩
  · exact Select.check_eq_ok_iff_within.1 (resolved p hp).1
  · have projector := Projection.checkProjector_eq_ok_iff.1 (resolved p hp).2
    exact Projection.error?_top_eq_none_iff.1 (projector e he r hr)

/-- Customers and their orders, of which some have been paid in part. `dated` and `paid` are the
columns that the orders and the payments declare for their terms alone, and the other parameters
the terms by which the four selects order. -/
def customersByOrder (dated paid : List Column) (orders payments part top : List OrderTerm) :
    Statement :=
  let orders : Select :=
    ⟨"t", [⟨"id", .column "o" "id", .int⟩, ⟨"customer", .column "o" "customer", .int⟩] ++ dated,
      some (.table "orders" "o"), none, orders, [], [], false, none, none, false⟩
  let payments : Select :=
    ⟨"u", [⟨"order", .column "p" "order", .int⟩] ++ paid, some (.table "payments" "p"), none,
      payments, [], [], false, none, none, false⟩
  let part : Select :=
    ⟨"s", [⟨"order", .column "u" "order", .int⟩], some (.subquery payments),
      some (.binary .eq (.column "u" "order") (.column "t" "id")), part, [], [], false, none,
      some 1, false⟩
  .query ⟨⟨"q", [⟨"name", .column "c" "name", .string⟩],
    some (.join .inner (.table "customers" "c") (.subquery orders)
      (some (.binary .eq (.column "c" "id") (.column "t" "customer")))),
    some (.existsQuery part), top, [], [], false, none, none, false⟩, .scalar (.column "q" "name")⟩

theorem Statement.placeOrderings_keeps_references_customersByOrder :
    let before := customersByOrder [] [] [⟨.column "o" "date", .descending⟩]
      [⟨.column "p" "amount", .ascending⟩] [⟨.column "t" "customer", .ascending⟩]
      [⟨.column "c" "name", .ascending⟩]
    let after := customersByOrder [⟨"c0", .column "o" "date", .unknown⟩]
      [⟨"c0", .column "p" "amount", .unknown⟩] [] []
      [⟨.column "t" "customer", .ascending⟩, ⟨.column "u" "c0", .ascending⟩]
      [⟨.column "c" "name", .ascending⟩, ⟨.column "t" "c0", .descending⟩]
    before.check = .ok () ∧ before.placeOrderings.result = .ok after ∧
      ∀ p ∈ after.queries, ∀ around q, p.select.Within [] around q → q.Resolves around := by
  intro before after
  have valid : before.check = .ok () := by cbv
  have placed : before.placeOrderings.result = .ok after := by cbv
  exact ⟨valid, placed, fun p hp =>
    ((Statement.placeOrderings_keeps_references valid placed).2 p hp).1⟩

/-! ## Settled parts -/

/-- Where the pass takes a select to stand. -/
def SelectPlace.placement : SelectPlace → Placement
  | .top => .outermost
  | .source => .source
  | .expression => .expression

/-- A select stands where another one stood and is that one, settled. -/
def Select.SettlesTo (place : SelectPlace) (q q' : Select) : Prop :=
  q' = q.exposed place.placement

/-- A settled expression is over its settled subqueries, -/
theorem Expr.over_settled (e : Expr) : e.Over (Select.SettlesTo .expression) e.settled := by
  induction e using parts_induction with
  | step e ih =>
    rw [settled_eq, mapParts]
    refine .intro (List.forall₂_map_right_iff.2 (List.forall₂_same.2 ih)) ?_
    cases e.query? with
    | none => exact .none
    | some q => exact .some (Select.exposed_of_ne_source (by decide) q).symm

theorem Expr.rel_settled (o : Option Expr) :
    Option.Rel (Expr.Over (Select.SettlesTo .expression)) o (o.map Expr.settled) := by
  cases o with
  | none => exact .none
  | some e => exact .some e.over_settled

/-- and so is a settled source. -/
theorem Source.over_settled (source : Source) : source.Over Select.SettlesTo source.settled.1 := by
  induction source using join_induction with
  | table name label => exact .table name label
  | subquery query =>
    rw [settled_subquery]
    exact .subquery rfl
  | join kind left right condition ihl ihr =>
    rw [settled, Expr.settledOption_eq]
    exact .join ihl ihr (Expr.rel_settled condition)

namespace Select

variable {s : Select} {placement : Placement}

/-- A select that passes nothing on is given no columns. -/
theorem columns_exposed_of_not_passesOn (keeps : s.passesOn placement = false) :
    (s.exposed placement).columns = s.renewed.columns := by
  rw [exposed, (s.flatMap_subqueries_passed placement).2 keeps, exposing, settled_eq]
  rfl

/-- A renewed select has the settled clauses. -/
theorem clauses_renewed (s : Select) : s.renewed.clauses = s.clauses.map Expr.settled := by
  simp only [clauses, renewed, List.map_append, List.map_map, Option.toList_map]
  rfl

/-- **A renewed select is the select with settled ones below it.** -/
theorem over_renewed (s : Select) : s.Over SettlesTo s.renewed where
  label := rfl
  columns := List.forall₂_map_right_iff.2 (List.forall₂_same.2 fun c _ =>
    ⟨rfl, rfl, c.expr.over_settled⟩)
  filter := Expr.rel_settled s.filter
  ordering := List.forall₂_map_right_iff.2 (List.forall₂_same.2 fun t _ =>
    ⟨rfl, t.expr.over_settled⟩)
  grouping := List.forall₂_map_right_iff.2 (List.forall₂_same.2 fun e _ => e.over_settled)
  clustering := List.forall₂_map_right_iff.2 (List.forall₂_same.2 fun e _ => e.over_settled)
  distinct := rfl
  skip := rfl
  take := rfl
  reversed := rfl
  source := by
    rw [renewed]
    cases s.source with
    | none => exact .none
    | some source => exact .some source.over_settled

/-! ## The normal form -/

/-- **A select is as it was but for its ordering and for columns behind its own.** It is given such
columns only where it is read by another select, and not if it is distinct, grouped or aggregating.
What it did not hold before are references to columns. -/
structure Extends (place : SelectPlace) (s t : Select) : Prop where
  columns : s.columns <+: t.columns
  closed : place ≠ .source ∨ s.collapses → t.columns = s.columns
  clauses : ∀ e ∈ t.clauses, e ∈ s.clauses ∨ ∃ label name, e = .column label name
  others : t = { s with columns := t.columns, ordering := t.ordering, reversed := t.reversed }

/-- Exposing terms adds columns, replaces the ordering and takes the reversal back, and does nothing
else. -/
theorem extends_exposed (place : SelectPlace) (s : Select) :
    Extends place s.renewed (s.exposed place.placement) := by
  obtain ⟨cs, hcs, -⟩ := s.exposed_eq place.placement
  refine ⟨⟨cs, by rw [hcs]; rfl⟩, fun closed => ?_, fun e he => ?_, ?_⟩
  · refine columns_exposed_of_not_passesOn ?_
    rw [collapses_renewed] at closed
    cases place <;> simp_all [passesOn, SelectPlace.placement]
  · rcases mem_clauses_exposed he with ⟨e₀, he₀, rfl⟩ | ⟨t, ht, rfl⟩
    · refine .inl ?_
      rw [clauses_renewed]
      exact List.mem_map_of_mem he₀
    · exact .inr (expr_of_mem_gathered ht)
  · rw [hcs]
    rfl

/-- **A select is settled by rebuilding it from below.** -/
theorem rebuilt_exposed (place : SelectPlace) (s : Select) :
    s.Rebuilt Extends place (s.exposed place.placement) := by
  induction s using children_induction generalizing place with
  | step s ih =>
    -- settled selects are put in below, which renews the select; its ordering is arranged last
    refine .intro (R := fun place q q' => q ∈ s.children ∧ q.SettlesTo place q') ?_
      (s.over_renewed.imp ?_ ?_) (extends_exposed place s)
    · rintro place q q' ⟨hq, rfl⟩
      exact ih q hq place
    · exact fun q hq q' settled => ⟨mem_children_iff.2 (.inl hq), settled⟩
    · exact fun e he q hq q' settled => ⟨mem_children_iff.2 (.inr ⟨e, he, hq⟩), settled⟩

/-- No term of a placed ordering repeats another one. -/
theorem differ_ordering_exposed (placement : Placement) (s : Select) :
    OrderTerm.Differ (s.exposed placement).ordering := by
  obtain ⟨cs, hcs, -⟩ := s.exposed_eq placement
  rw [hcs, ← OrderTerm.new_nil_iff]
  simp only [adding, arranged]
  split
  · exact new_allTerms _ _
  · split
    · exact new_ownTerms _
    · trivial

/-- Below the top a settled select is ordered only if it is paged, and so are those below it. -/
theorem everywhere_paged_exposed (below : placement ≠ .outermost) (s : Select) :
    (s.exposed placement).Everywhere fun q => q.ordering ≠ [] → q.hasPaging := by
  induction s using children_induction generalizing placement with
  | step s ih =>
    refine everywhere_iff.2 ⟨fun ordered => ?_, fun c hc => ?_⟩
    · by_contra unpaged
      refine ordered (ordering_exposed_of_unpaged below ?_)
      rwa [hasPaging, skip_exposed, take_exposed, ← hasPaging, Bool.not_eq_true] at unpaged
    · obtain ⟨c₀, hc₀, placement', inner, rfl⟩ := exists_of_mem_children_exposed hc
      exact ih c₀ hc₀ inner

end Select

/-- **The normal form of placed orderings.** Of a query the select alone is changed. In what it
becomes no select is reversed, the expressions by which a select orders differ from each other, and
below the top only a select with a page is ordered. The tree is the old one, rebuilt from below:
where a select stood, one stands that declares the same columns under the same names and types, and
only where `Select.Extends` lets it more behind them. -/
theorem Statement.placeOrderings_normal {s s' : Statement} (h : s.placeOrderings.result = .ok s') :
    List.Forall₂ (fun p p' : Projection =>
      p'.projector = p.projector ∧
      (p'.select.Everywhere fun q => q.reversed = false ∧ OrderTerm.Differ q.ordering) ∧
      (∀ c ∈ p'.select.children, c.Everywhere fun q => q.ordering ≠ [] → q.hasPaging) ∧
      p.select.Rebuilt Select.Extends .top p'.select) s.queries s'.queries := by
  refine (forall₂_placed h).imp ?_
  rintro p _ rfl
  refine ⟨rfl, fun q hq => ?_, fun c hc => ?_, p.select.rebuilt_exposed .top⟩
  · obtain ⟨q₀, placement, -, rfl⟩ := hq.exists_of_exposed
    exact ⟨q₀.reversed_exposed placement, q₀.differ_ordering_exposed placement⟩
  · obtain ⟨c₀, -, placement, below, rfl⟩ := Select.exists_of_mem_children_exposed hc
    exact c₀.everywhere_paged_exposed below

/-- The subquery is reversed and repeats a term. After the pass nothing is reversed, and no term is
repeated. -/
theorem Statement.placeOrderings_normal_latestOrders :
    latestOrders.placeOrderings.result = .ok latestOrdersPlaced ∧
      List.Forall₂ (fun p p' : Projection =>
        (p'.select.Everywhere fun q => q.reversed = false ∧ OrderTerm.Differ q.ordering) ∧
        p.select.Rebuilt Select.Extends .top p'.select)
        latestOrders.queries latestOrdersPlaced.queries := by
  have placed : latestOrders.placeOrderings.result = .ok latestOrdersPlaced := by cbv
  refine ⟨placed, (Statement.placeOrderings_normal placed).imp ?_⟩
  rintro p p' ⟨-, here, -, rebuilt⟩
  exact ⟨here, rebuilt⟩

end HiveQuery
