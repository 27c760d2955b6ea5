import HiveQuery.Proofs.Page
import HiveQuery.Proofs.Placement
import HiveQuery.Proofs.Traversal
/-!
# Why a select cannot be paged

Paging is the one transformation that can fail. It fails at a select whose parts are done, after its
orderings were placed, yet the cause is one that the select had from the start
(`Select.Unpageable`): placing orderings takes no column and no term from a paged select and gives a
distinct one none.
-/

namespace HiveQuery

open Outcome

namespace Select

/-- The bounds by which row numbers are compared for a page. -/
inductive Bound (s : Select) : Nat → Prop
  | skip {n : UInt64} (h : s.skip = some n) : Bound s n.toNat
  | take {n : UInt64} (h : s.take = some n) : Bound s n.toNat
  | last {k n : UInt64} (hk : s.skip = some k) (hn : s.take = some n) : Bound s (k.toNat + n.toNat)

/-- **Why a select cannot be paged**: it has nothing to order by, it is distinct and ordered by an
expression that none of its columns declares, or a bound is too large. -/
inductive Unpageable (s : Select) : Failure → Prop
  | noOrder (columns : s.columns = []) (ordering : s.ordering = []) :
      Unpageable s (.noPagingOrder s.label)
  | notProjected {t : OrderTerm} {label : String} (distinct : s.distinct = true)
      (ht : t ∈ s.ordering) (absent : s.columnFor? t.expr = none) :
      Unpageable s (.orderNotProjected label)
  | endTooLarge {k n : UInt64} (hk : s.skip = some k) (hn : s.take = some n)
      (h : UInt64.size ≤ k.toNat + n.toNat) : Unpageable s (.pageEndTooLarge k n)
  | boundTooLarge {n : Nat} (bound : s.Bound n) (h : Int64.maxValue.toInt < n) :
      Unpageable s (.boundTooLarge n)

variable {s : Select} {failure : Failure}

/-! ## Failures of a page -/

/-- Among plain columns there is always one to order by, unless there is no column at all. -/
theorem unpageable_of_pageOrder (plain : ∀ c ∈ s.columns, c.expr.query? = none)
    (h : s.pageOrder.result = .error failure) : s.Unpageable failure := by
  unfold pageOrder at h
  split at h
  · next empty =>
    rw [Traced.result_bind] at h
    by_cases none : s.defaultOrder.isEmpty
    · simp only [none, if_true] at h
      obtain rfl := (Except.error.inj h).symm
      have columns : s.columns = [] := by
        refine List.eq_nil_iff_forall_not_mem.2 fun c hc => ?_
        have kept : c ∈ s.columns.filter (·.expr.query?.isNone) :=
          List.mem_filter.2 ⟨hc, by rw [plain c hc]; rfl⟩
        rw [defaultOrder, List.isEmpty_iff, List.map_eq_nil_iff] at none
        rw [none] at kept
        cases kept
      exact .noOrder columns (List.isEmpty_iff.1 empty)
    · simp only [none] at h
      cases h
  · cases h

/-- The terms of a page that is given no order are found among the columns. -/
theorem unpageable_of_pageBase {label : String} {supply : LabelSupply}
    (reflexive : s.distinct = true → ∀ c ∈ s.columns, (c.expr == c.expr) = true)
    (h : outcome (s.pageBase label s.pageTerms) supply = .error failure) :
    s.Unpageable failure := by
  unfold pageBase at h
  split at h
  · obtain ⟨rfl, distinct, t, ht, absent⟩ := outcome_wrap_eq_error_iff.1 h
    unfold pageTerms at ht
    split at ht
    · obtain ⟨c, hc, rfl⟩ := List.mem_map.1 ht
      have mem := List.mem_of_mem_filter hc
      exact absurd (reflexive distinct c mem) (List.find?_eq_none.1 absent c mem)
    · exact .notProjected distinct ht absent
  · exact absurd h outcome_pure_ne_error

/-- A bound that is too large says so. -/
theorem unpageable_of_pageBound {n : Nat} {f : Expr → Expr} (bound : s.Bound n)
    (h : (pageBound n).map f = .error failure) : s.Unpageable failure := by
  unfold pageBound at h
  split at h
  · cases h
  · next large =>
    obtain rfl := (Except.error.inj h).symm
    exact .boundTooLarge bound (not_le.1 large)

/-- The condition of a page fails at one of its bounds. -/
theorem unpageable_of_pagePredicate {rowNumber : Expr}
    (paged : ¬ (s.effectiveSkip.isNone && s.take.isNone))
    (h : pagePredicate rowNumber s.effectiveSkip s.take = .error failure) :
    s.Unpageable failure := by
  have skip : ∀ {k}, s.effectiveSkip = some k → s.skip = some k := fun hk =>
    (Option.filter_eq_some_iff.1 hk).1
  cases hk : s.effectiveSkip with
  | none =>
    rw [hk] at h paged
    cases hn : s.take with
    | none => simp [hn] at paged
    | some n =>
      rw [hn] at h
      exact unpageable_of_pageBound (.take hn) h
  | some k =>
    rw [hk] at h
    cases hn : s.take with
    | none =>
      rw [hn] at h
      exact unpageable_of_pageBound (.skip (skip hk)) h
    | some n =>
      rw [hn, pagePredicate] at h
      split at h
      · next large =>
        obtain rfl := (Except.error.inj h).symm
        exact .endTooLarge (skip hk) hn large
      · cases hafter : afterBound rowNumber k.toNat with
        | error e =>
          rw [hafter] at h
          exact unpageable_of_pageBound (.skip (skip hk)) (hafter.trans h)
        | ok a =>
          cases hupTo : upToBound rowNumber (k.toNat + n.toNat) with
          | error e =>
            rw [hafter, hupTo] at h
            exact unpageable_of_pageBound (.last (skip hk) hn) (hupTo.trans h)
          | ok b =>
            rw [hafter, hupTo] at h
            cases h

/-- **A page fails only for these causes.** -/
theorem unpageable_of_page {rowNumberColumn : String} {supply : LabelSupply}
    (plain : ∀ c ∈ s.columns, c.expr.query? = none)
    (reflexive : s.distinct = true → ∀ c ∈ s.columns, (c.expr == c.expr) = true)
    (h : outcome (s.page rowNumberColumn) supply = .error failure) : s.Unpageable failure := by
  rw [page_eq] at h
  split at h
  · exact absurd h outcome_pure_ne_error
  · next paged =>
    rcases outcome_bind_eq_error_iff.1 h with h | ⟨terms, st₁, horder, h⟩
    · exact unpageable_of_pageOrder plain (outcome_lift_eq_error_iff.1 h)
    obtain ⟨hterms, rfl⟩ := outcome_lift.1 horder
    obtain rfl := of_pageOrder hterms
    rcases outcome_bind_eq_error_iff.1 h with h | ⟨label, st₂, -, h⟩
    · cases h
    rcases outcome_bind_eq_error_iff.1 h with h | ⟨base, st₃, -, h⟩
    · exact unpageable_of_pageBase reflexive h
    rcases outcome_bind_eq_error_iff.1 h with h | ⟨filter, st₄, -, h⟩
    · exact unpageable_of_pagePredicate paged (outcome_lift_eq_error_iff.1 h)
    rcases outcome_bind_eq_error_iff.1 h with h | ⟨_, _, -, h⟩
    · cases outcome_lift_eq_error_iff.1 h
    · exact absurd h outcome_pure_ne_error

/-! ## The select it comes from -/

variable {placement : Placement}

theorem distinct_exposed (placement : Placement) (s : Select) :
    (s.exposed placement).distinct = s.distinct := by
  obtain ⟨cs, hcs, -⟩ := s.exposed_eq placement
  rw [hcs]
  rfl

theorem skip_exposed (placement : Placement) (s : Select) :
    (s.exposed placement).skip = s.skip := by
  obtain ⟨cs, hcs, -⟩ := s.exposed_eq placement
  rw [hcs]
  rfl

theorem take_exposed (placement : Placement) (s : Select) :
    (s.exposed placement).take = s.take := by
  obtain ⟨cs, hcs, -⟩ := s.exposed_eq placement
  rw [hcs]
  rfl

/-- Nothing is reversed once orderings are placed. -/
theorem reversed_exposed (placement : Placement) (s : Select) :
    (s.exposed placement).reversed = false := by
  obtain ⟨cs, hcs, -⟩ := s.exposed_eq placement
  rw [hcs]
  rfl

/-- Below the top only a paged select keeps an ordering. -/
theorem ordering_exposed_of_unpaged (below : placement ≠ .outermost)
    (unpaged : s.hasPaging = false) : (s.exposed placement).ordering = [] := by
  have may : s.renewed.mayOrder placement = false := by
    have renewed : s.renewed.hasPaging = false := unpaged
    rw [mayOrder, renewed, Bool.or_false, beq_eq_false_iff_ne]
    exact below
  obtain ⟨cs, hcs, -⟩ := s.exposed_eq placement
  rw [hcs]
  show (s.renewed.arranged placement s.gathered).ordering = _
  simp [arranged, receives, may]

/-- The ordering of a paged select is what it has and what it receives. -/
theorem ordering_exposed (paged : s.hasPaging) (placement : Placement) :
    (s.exposed placement).ordering =
      if s.renewed.collapses then s.renewed.ownTerms else s.renewed.allTerms s.gathered := by
  have may : s.renewed.mayOrder placement = true := by
    have renewed : s.renewed.hasPaging = true := paged
    rw [mayOrder, renewed, Bool.or_true]
  obtain ⟨cs, hcs, -⟩ := s.exposed_eq placement
  rw [hcs]
  show (s.renewed.arranged placement s.gathered).ordering = _
  simp only [arranged, receives, may, Bool.true_and]
  cases s.renewed.collapses <;> rfl

/-- A paged select without terms had none. -/
theorem ordering_eq_nil_of_exposed (paged : s.hasPaging)
    (h : (s.exposed placement).ordering = []) : s.ordering = [] := by
  have first : ∀ t ts, OrderTerm.withoutRepeats (t :: ts) = t :: OrderTerm.keepNew [t] ts :=
    fun _ _ => rfl
  have ordering : s.renewed.ordering = [] := by
    cases hr : s.renewed.ordering with
    | nil => rfl
    | cons t ts =>
      rw [ordering_exposed paged] at h
      simp only [ownTerms, allTerms, hr, first, List.cons_append, OrderTerm.flipAll] at h
      split at h <;> split at h <;> cases h
  exact List.map_eq_nil_iff.1 ordering

/-- The columns and the terms of a tidy select are settled as they are. -/
theorem Tidy.renewed_eq (tidy : s.Tidy) :
    s.renewed.columns = s.columns ∧ s.renewed.ordering = s.ordering := by
  have others := tidy.others
  simp only [Select.others, List.forall_mem_append, List.forall_mem_map] at others
  obtain ⟨⟨⟨columns, ordering⟩, -⟩, -⟩ := others
  exact ⟨map_settled_columns fun c hc => Expr.settled_of_subqueries_eq_nil (columns c hc),
    map_settled_terms fun t ht => Expr.settled_of_subqueries_eq_nil (ordering t ht)⟩

/-- A distinct select is given no columns and no terms. -/
theorem exposed_of_distinct (placement : Placement) (tidy : s.Tidy) (distinct : s.distinct = true)
    (paged : s.hasPaging) :
    (s.exposed placement).columns = s.columns ∧
      (s.exposed placement).ordering = s.renewed.ownTerms := by
  have collapses : s.renewed.collapses = true := by
    have renewed : s.renewed.distinct = true := distinct
    rw [Select.collapses, renewed, Bool.or_true, Bool.true_or]
  have nothing : (s.settled placement).2 = [] := by
    rw [settled_eq, passed, passesOn, collapses]
    simp
  constructor
  · rw [exposed, nothing, exposing, settled_eq]
    exact tidy.renewed_eq.1
  · rw [ordering_exposed paged, if_pos collapses]

/-- The cause lies in what the select has itself. -/
theorem Unpageable.of_alike {R : Expr → Expr → Prop} {s' : Select} (alike : s.Alike R s')
    (columns : s'.columns = s.columns) (ordering : s'.ordering = s.ordering)
    (h : s'.Unpageable failure) : s.Unpageable failure := by
  cases h with
  | noOrder hcolumns hordering =>
    rw [alike.label]
    exact .noOrder (columns ▸ hcolumns) (ordering ▸ hordering)
  | notProjected distinct ht absent =>
    rw [columnFor?, columns] at absent
    exact .notProjected (alike.distinct ▸ distinct) (ordering ▸ ht) absent
  | endTooLarge hk hn h => exact .endTooLarge (alike.skip ▸ hk) (alike.take ▸ hn) h
  | boundTooLarge bound h =>
    refine .boundTooLarge ?_ h
    cases bound with
    | skip hk => exact .skip (alike.skip ▸ hk)
    | take hn => exact .take (alike.take ▸ hn)
    | last hk hn => exact .last (alike.skip ▸ hk) (alike.take ▸ hn)

/-- **Placing orderings gives a select no new cause.** -/
theorem Unpageable.of_exposed (tidy : s.Tidy) (paged : s.hasPaging)
    (h : (s.exposed placement).Unpageable failure) : s.Unpageable failure := by
  cases h with
  | noOrder columns ordering =>
    rw [label_exposed]
    refine .noOrder ?_ (ordering_eq_nil_of_exposed paged ordering)
    obtain ⟨names, hnames⟩ := s.columnNames_exposed placement
    rw [columnNames, columns, List.map_nil, eq_comm, List.append_eq_nil_iff] at hnames
    exact List.map_eq_nil_iff.1 hnames.1
  | @notProjected t label distinct ht absent =>
    rw [distinct_exposed] at distinct
    obtain ⟨columns, ordering⟩ := exposed_of_distinct placement tidy distinct paged
    rw [ordering] at ht
    obtain ⟨u, hu, same⟩ := exists_of_mem_ownTerms ht
    rw [tidy.renewed_eq.2] at hu
    refine .notProjected distinct hu ?_
    rw [columnFor?, columns] at absent
    rw [columnFor?, ← same, absent]
  | endTooLarge hk hn h =>
    rw [skip_exposed] at hk
    rw [take_exposed] at hn
    exact .endTooLarge hk hn h
  | boundTooLarge bound h =>
    refine .boundTooLarge ?_ h
    cases bound with
    | skip hk => exact .skip (skip_exposed placement s ▸ hk)
    | take hn => exact .take (take_exposed placement s ▸ hn)
    | last hk hn => exact .last (skip_exposed placement s ▸ hk) (take_exposed placement s ▸ hn)

end Select

/-! ## Queries -/

/-- **Where paging a query fails, one of its selects cannot be paged.** -/
theorem Projection.Sound.exists_unpageable {p : Projection} (h : p.Sound) (noNaN : p.select.NaNFree)
    {rowNumberColumn : String} {supply : LabelSupply} {failure : Failure}
    (hp : outcome (Projection.transform (.paging rowNumberColumn)
      { p with select := p.select.exposed .outermost }) supply = .error failure) :
    ∃ q, p.select.Holds q ∧ q.hasPaging ∧ q.Unpageable failure := by
  have hleaf : ∀ e : Expr, e.isLeaf → ∀ st failure,
      outcome ((Transform.paging rowNumberColumn).leaf e) st ≠ .error failure :=
    fun e _ st failure => outcome_pure_ne_error
  obtain ⟨top, htop, st, hselect⟩ := Projection.exists_of_transform_eq_error hleaf hp
  have projector : p.projector.exprs.flatMap Expr.subqueries = [] :=
    List.flatMap_eq_nil_iff.2 h.projector
  obtain rfl : top = p.select.exposed .outermost := by
    simpa [projector] using htop
  obtain ⟨placed, hplaced, depth, st₁, q₁, st₂, hparts, hpage⟩ :=
    Select.exists_of_transform_eq_error hleaf hselect
  obtain ⟨q, placement, holds, rfl⟩ := hplaced.exists_of_exposed
  obtain ⟨-, -, -, alike⟩ := Select.of_outcome_transformParts hparts
  have tidy := h.tidy q holds
  have others := (tidy.exposed placement).others
  obtain ⟨columns, ordering⟩ := alike.columns_eq fun e he e' ⟨_, _, he'⟩ =>
    Expr.eq_of_transform (fun _ => rfl) (others e he) he'
  simp only [Transform.paging] at hpage
  split at hpage
  · next paged =>
    have paged : q.hasPaging := by
      rwa [Select.hasPaging, alike.skip, alike.take, Select.skip_exposed,
        Select.take_exposed] at paged
    have plain : ∀ c ∈ q₁.columns, c.expr.query? = none := by
      intro c hc
      have queries := others c.expr (Select.mem_others_of_columns (columns ▸ hc))
      rw [Expr.subqueries_eq, List.append_eq_nil_iff] at queries
      simpa using queries.2
    have reflexive : q₁.distinct = true → ∀ c ∈ q₁.columns, (c.expr == c.expr) = true := by
      intro distinct c hc
      rw [alike.distinct, Select.distinct_exposed] at distinct
      rw [columns, (Select.exposed_of_distinct placement tidy distinct paged).1] at hc
      have free : q.NaNFree := fun n hn => noNaN n (holds.nodes_subset hn)
      exact ((Select.naNFree_iff.1 free).2.2 c.expr (Select.mem_clauses_of_columns hc)).beq_self
    exact ⟨q, holds, paged, .of_exposed tidy paged
      (.of_alike alike columns ordering (Select.unpageable_of_page plain reflexive hpage))⟩
  · exact absurd hpage outcome_pure_ne_error

end HiveQuery
