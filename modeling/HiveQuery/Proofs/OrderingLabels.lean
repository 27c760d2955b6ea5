import HiveQuery.Proofs.Shape
/-!
# Placing orderings and the labels of a query

Placing orderings draws no label, but it can copy one. A paged subquery of a source keeps its
ordering and passes it on as well, as columns for its terms. A term that holds a subquery then
stands in the select twice (`Select.RepeatsOrdering`). Every other term is kept, passed on or
dropped, so all else that a tree declares it declares at most as often as before.
`Statement.placeOrderings_nodup_labels_iff` says so for every valid statement, and
`Statement.placeOrderings_repeats_labels` is such a subquery.
-/

namespace HiveQuery

/-- Whatever is dropped from a list of terms, a kept one declares the same labels. -/
theorem OrderTerm.exists_labels_keepNew (kept : List OrderTerm) {ts : List OrderTerm}
    {t : OrderTerm} (ht : t ∈ ts) :
    ∃ u ∈ kept ++ keepNew kept ts, u.expr.labels = t.expr.labels := by
  induction ts generalizing kept with
  | nil => cases ht
  | cons v ts ih =>
    by_cases h : covers kept v.expr
    · rw [keepNew_cons_of_covers h]
      rcases List.mem_cons.1 ht with rfl | ht
      · obtain ⟨u, hu, same⟩ := covers_iff.1 h
        exact ⟨u, List.mem_append_left _ hu, (Expr.labels_of_beq same).symm⟩
      · exact ih kept ht
    · rw [keepNew_cons_of_not_covers h]
      rcases List.mem_cons.1 ht with rfl | ht
      · exact ⟨t, by simp, rfl⟩
      · simpa using ih (kept ++ [v]) ht

/-- A term that is dropped as a repeat declares the labels of the one that stays. -/
theorem OrderTerm.exists_labels_withoutRepeats {ts : List OrderTerm} {t : OrderTerm} (ht : t ∈ ts) :
    ∃ u ∈ withoutRepeats ts, u.expr.labels = t.expr.labels := by
  simpa [withoutRepeats] using exists_labels_keepNew [] ht

namespace Select

variable {placement : Placement} {s q : Select}

/-! ## Where the subqueries of a select go -/

/-- The subqueries of the expressions of a select other than its order terms. -/
def standing (s : Select) : List Select :=
  s.conditions.flatMap Expr.subqueries ++ (s.columns.flatMap (·.expr.subqueries) ++
    (s.filter.toList.flatMap Expr.subqueries ++ (s.grouping.flatMap Expr.subqueries ++
      s.clustering.flatMap Expr.subqueries)))

/-- The subqueries of the order terms of a select. -/
def sorting (s : Select) : List Select :=
  s.ordering.flatMap (·.expr.subqueries)

/-- The selects below a select stand in its source, in its order terms or elsewhere. -/
theorem children_perm (s : Select) : s.children.Perm (s.sources ++ (s.standing ++ s.sorting)) := by
  refine Multiset.coe_eq_coe.1 ?_
  simp only [children, standing, sorting, flatMap_subqueries_clauses, ← Multiset.coe_add]
  ac_rfl

/-- The subqueries of terms whose expressions are those of settled own terms or gathered. -/
theorem flatMap_subqueries_sublist {ts : List OrderTerm} (h : (ts.map (·.expr)).Sublist
      ((s.renewed.ordering ++ s.gathered).map (·.expr))) :
    (ts.flatMap (·.expr.subqueries)).Sublist (s.sorting.map (exposed .expression)) := by
  have own : (s.renewed.ordering.map (·.expr)).flatMap Expr.subqueries =
      s.sorting.map (exposed .expression) := by
    have settled : exposed .expression = fun q => (q.settled .expression).1 :=
      funext fun q => q.exposed_of_ne_source (by decide)
    simp [sorting, renewed, OrderTerm.settled, List.flatMap_map, List.map_flatMap, settled]
  have gathered : (s.gathered.map (·.expr)).flatMap Expr.subqueries = [] := by
    rw [List.flatMap_eq_nil_iff, List.forall_mem_map]
    exact fun t ht => subqueries_of_mem_gathered ht
  have all := h.flatMap Expr.subqueries
  rw [List.map_append, List.flatMap_append, own, gathered, List.append_nil] at all
  simpa [List.flatMap_map] using all

theorem map_expr_flipAll (ts : List OrderTerm) :
    (OrderTerm.flipAll ts).map (·.expr) = ts.map (·.expr) := by
  simp [OrderTerm.flipAll, OrderTerm.flip, Function.comp_def]

/-- Whether a select is reversed does not bear on what its terms order by. -/
theorem map_expr_allTerms (s : Select) (gathered : List OrderTerm) :
    (s.allTerms gathered).map (·.expr) = (OrderTerm.withoutRepeats
      (OrderTerm.withoutRepeats s.ordering ++ gathered)).map (·.expr) := by
  unfold allTerms
  split
  · rw [map_expr_flipAll]
  · rfl

theorem map_expr_ownTerms (s : Select) :
    s.ownTerms.map (·.expr) = (OrderTerm.withoutRepeats s.ordering).map (·.expr) := by
  unfold ownTerms
  split
  · rw [map_expr_flipAll]
  · rfl

/-- The subqueries of the terms that a select orders by are among those of its own ordering. -/
theorem flatMap_subqueries_allTerms (s : Select) :
    ((s.renewed.allTerms s.gathered).flatMap (·.expr.subqueries)).Sublist
      (s.sorting.map (exposed .expression)) := by
  refine flatMap_subqueries_sublist ?_
  rw [map_expr_allTerms]
  have own := OrderTerm.keepNew_sublist [] s.renewed.ordering
  exact ((OrderTerm.keepNew_sublist [] _).trans (own.append_right s.gathered)).map _

theorem flatMap_subqueries_ownTerms (s : Select) :
    (s.renewed.ownTerms.flatMap (·.expr.subqueries)).Sublist
      (s.sorting.map (exposed .expression)) := by
  refine flatMap_subqueries_sublist ?_
  rw [map_expr_ownTerms]
  have own := OrderTerm.keepNew_sublist [] s.renewed.ordering
  exact (own.trans (List.sublist_append_left _ _)).map _

/-- The subqueries of the ordering that a select keeps. -/
theorem flatMap_subqueries_arranged (placement : Placement) (s : Select) :
    ((s.renewed.arranged placement s.gathered).ordering.flatMap (·.expr.subqueries)).Sublist
        (s.sorting.map (exposed .expression)) ∧
      (s.mayOrder placement = false →
        (s.renewed.arranged placement s.gathered).ordering = []) := by
  have may : s.renewed.mayOrder placement = s.mayOrder placement := rfl
  simp only [arranged, receives, may]
  cases s.mayOrder placement with
  | false => exact ⟨List.nil_sublist _, fun _ => rfl⟩
  | true =>
    refine ⟨?_, fun none => by cases none⟩
    split
    · exact flatMap_subqueries_allTerms s
    · exact flatMap_subqueries_ownTerms s

/-- Settling does not make a select distinct, grouped or aggregating. -/
theorem collapses_renewed (s : Select) : s.renewed.collapses = s.collapses := by
  simp [collapses, hasAggregates, renewed, Column.settled, List.any_map, Function.comp_def]

/-- The subqueries of the terms that a select passes on. -/
theorem flatMap_subqueries_passed (placement : Placement) (s : Select) :
    ((s.settled placement).2.flatMap (·.expr.subqueries)).Sublist
        (s.sorting.map (exposed .expression)) ∧
      (s.passesOn placement = false → (s.settled placement).2 = []) := by
  rw [settled_eq]
  have passes : s.renewed.passesOn placement = s.passesOn placement := by
    rw [passesOn, passesOn, collapses_renewed]
  simp only [passed, passes]
  cases s.passesOn placement with
  | false => exact ⟨List.nil_sublist _, fun _ => rfl⟩
  | true => exact ⟨flatMap_subqueries_allTerms s, fun none => by cases none⟩

/-! ## What is declared twice -/

/-- **The select keeps an ordering that it also passes on**, as a paged subquery of a source does
unless it is grouped, distinct or aggregating, and a term of that ordering holds a subquery. -/
def RepeatsOrdering (s : Select) : Prop :=
  s.hasPaging ∧ s.collapses = false ∧ ∃ t ∈ s.ordering, t.expr.subqueries ≠ []

/-- A select repeats its ordering if it may keep it, passes it on, and there is a subquery in it. -/
theorem repeatsOrdering_iff :
    s.RepeatsOrdering ↔ s.mayOrder .source ∧ s.passesOn .source ∧ s.sorting ≠ [] := by
  simp [RepeatsOrdering, mayOrder, passesOn, sorting]

/-- **What is left below a select once its orderings are placed**, with the place it has there. The
subqueries of order terms are left if the select keeps the terms or passes them on. -/
inductive Retains : Placement → Select → Placement → Select → Prop
  | self (placement : Placement) (s : Select) : Retains placement s placement s
  | source {placement place : Placement} {s c q : Select} (hc : c ∈ s.sources)
      (hq : Retains .source c place q) : Retains placement s place q
  | standing {placement place : Placement} {s c q : Select} (hc : c ∈ s.standing)
      (hq : Retains .expression c place q) : Retains placement s place q
  | sorting {placement place : Placement} {s c q : Select}
      (used : s.mayOrder placement ∨ s.passesOn placement) (hc : c ∈ s.sorting)
      (hq : Retains .expression c place q) : Retains placement s place q

/-- What is retained was held. -/
theorem Retains.holds {place : Placement} (h : s.Retains placement place q) : s.Holds q := by
  have child : ∀ {s c : Select}, c ∈ s.sources ++ (s.standing ++ s.sorting) → c ∈ s.children :=
    fun hc => (children_perm _).mem_iff.2 hc
  induction h with
  | self placement s => exact .self s
  | source hc _ ih => exact .child (child (List.mem_append_left _ hc)) ih
  | standing hc _ ih =>
    exact .child (child (List.mem_append_right _ (List.mem_append_left _ hc))) ih
  | sorting _ hc _ ih =>
    exact .child (child (List.mem_append_right _ (List.mem_append_right _ hc))) ih

/-- A further column brings its subqueries along. -/
theorem standing_adding (s : Select) (cs : List Column) :
    (s.adding cs).standing.Perm (s.standing ++ cs.flatMap (·.expr.subqueries)) := by
  refine Multiset.coe_eq_coe.1 ?_
  simp only [standing, adding, List.flatMap_append, ← Multiset.coe_add]
  ac_rfl

/-- The subqueries outside of the ordering are exposed where they stand. -/
theorem standing_renewed (s : Select) :
    s.renewed.standing = s.standing.map (exposed .expression) := by
  have settled : exposed .expression = fun q => (q.settled .expression).1 :=
    funext fun q => q.exposed_of_ne_source (by decide)
  have conditions : s.renewed.conditions = s.conditions.map Expr.settled := by
    rw [← conditions_exposed .expression, Select.conditions, Select.conditions, source_exposed]
    rfl
  rw [standing, conditions, settled]
  simp [standing, renewed, Column.settled, Option.toList_map, List.map_flatMap, List.flatMap_map]

/-- **Where the subqueries of a select are once its orderings are placed.** Those of the order terms
are in the ordering that is kept and in the columns for the terms that are passed on. -/
theorem exists_children_exposed (placement : Placement) (s : Select) :
    ∃ kept exposed, (s.exposed placement).children.Perm
        (s.sources.map (Select.exposed .source) ++ (s.standing.map (Select.exposed .expression) ++
          (kept ++ exposed))) ∧
      (kept.Sublist (s.sorting.map (Select.exposed .expression)) ∧
        (s.mayOrder placement = false → kept = [])) ∧
      (exposed.Sublist (s.sorting.map (Select.exposed .expression)) ∧
        (s.passesOn placement = false → exposed = [])) := by
  obtain ⟨cs, eq, sublist, -⟩ := (s.settled placement).1.exposing_adds_new (s.settled placement).2
  obtain ⟨keeps, unkept⟩ := s.flatMap_subqueries_arranged placement
  obtain ⟨passes, unpassed⟩ := s.flatMap_subqueries_passed placement
  have columns : (cs.flatMap (·.expr.subqueries)).Sublist
      ((s.settled placement).2.flatMap (·.expr.subqueries)) := by
    simpa [List.flatMap_map] using sublist.flatMap Expr.subqueries
  set arranged := s.renewed.arranged placement s.gathered with harranged
  have exposed : s.exposed placement = arranged.adding cs := by
    rw [Select.exposed, eq, settled_eq]
  have standing : (s.exposed placement).standing.Perm
      (s.standing.map (Select.exposed .expression) ++ cs.flatMap (·.expr.subqueries)) := by
    have same : arranged.standing = s.renewed.standing := rfl
    rw [exposed, ← standing_renewed, ← same]
    exact standing_adding arranged cs
  have sorting : (s.exposed placement).sorting = arranged.sorting := by
    rw [exposed]
    rfl
  refine ⟨arranged.sorting, cs.flatMap (·.expr.subqueries), ?_, ⟨keeps, fun no => ?_⟩,
    columns.trans passes, fun no => ?_⟩
  · refine (children_perm _).trans ?_
    rw [sources_exposed, sorting]
    refine .append_left _ ((standing.append_right _).trans ?_)
    rw [List.append_assoc]
    exact List.perm_append_comm.append_left _
  · rw [Select.sorting, unkept no, List.flatMap_nil]
  · rw [unpassed no, List.flatMap_nil] at columns
    exact List.sublist_nil.1 columns

/-- If each select declares no more than before, they declare no more together. -/
theorem flatMap_labels_subperm {f : Select → Select} {qs : List Select}
    (h : ∀ q ∈ qs, (f q).labels.Subperm q.labels) :
    ((qs.map f).flatMap labels).Subperm (qs.flatMap labels) := by
  induction qs with
  | nil => exact List.Subperm.refl _
  | cons q qs ih =>
    rw [List.forall_mem_cons] at h
    exact h.1.append (ih h.2)

/-- The kept terms and the columns of those passed on share no subquery unless the select repeats
its ordering. -/
theorem subperm_of_not_repeats (spares : placement = .source → ¬ s.RepeatsOrdering)
    {all kept exposed : List Select} (hkept : kept.Sublist all)
    (unkept : s.mayOrder placement = false → kept = []) (hexposed : exposed.Sublist all)
    (unexposed : s.passesOn placement = false → exposed = [])
    (none : s.sorting = [] → all = []) : (kept ++ exposed).Subperm all := by
  by_cases keeps : s.mayOrder placement
  · by_cases passes : s.passesOn placement
    · have source : placement = .source := by
        simp only [passesOn, Bool.and_eq_true, beq_iff_eq] at passes
        exact passes.1
      subst source
      have empty : s.sorting = [] := by
        by_contra nonempty
        exact spares rfl (repeatsOrdering_iff.2 ⟨keeps, passes, nonempty⟩)
      rw [none empty] at hkept hexposed ⊢
      rw [List.sublist_nil.1 hkept, List.sublist_nil.1 hexposed]
      exact List.Subperm.refl _
    · rw [unexposed (by simpa using passes), List.append_nil]
      exact hkept.subperm
  · rw [unkept (by simpa using keeps), List.nil_append]
    exact hexposed.subperm

/-- **Where no ordering is repeated, every label is declared at most as often as before.** -/
theorem labels_exposed_subperm (spares : ∀ q, s.Retains placement .source q → ¬ q.RepeatsOrdering) :
    (s.exposed placement).labels.Subperm s.labels := by
  induction s using children_induction generalizing placement with
  | step s ih =>
    have child : ∀ c, c ∈ s.sources ++ (s.standing ++ s.sorting) → c ∈ s.children :=
      fun c hc => s.children_perm.mem_iff.2 hc
    obtain ⟨kept, exposed, children, ⟨hkept, unkept⟩, hexposed, unexposed⟩ :=
      s.exists_children_exposed placement
    have sources : ∀ c ∈ s.sources, (c.exposed .source).labels.Subperm c.labels := fun c hc =>
      ih c (child c (List.mem_append_left _ hc)) fun q hq => spares q (.source hc hq)
    have standing : ∀ c ∈ s.standing, (c.exposed .expression).labels.Subperm c.labels :=
      fun c hc => ih c (child c (by simp [hc])) fun q hq => spares q (.standing hc hq)
    have sorting : ((kept ++ exposed).flatMap labels).Subperm (s.sorting.flatMap labels) := by
      by_cases used : s.mayOrder placement ∨ s.passesOn placement
      · have below : ∀ c ∈ s.sorting, (c.exposed .expression).labels.Subperm c.labels :=
          fun c hc => ih c (child c (by simp [hc])) fun q hq => spares q (.sorting used hc hq)
        have spared : placement = .source → ¬ s.RepeatsOrdering := by
          rintro rfl
          exact spares s (.self .source s)
        obtain ⟨l, perm, sublist⟩ := subperm_of_not_repeats spared hkept unkept hexposed unexposed
          fun none => by rw [none, List.map_nil]
        exact (show ((kept ++ exposed).flatMap labels).Subperm _ from
          ⟨_, perm.flatMap_right _, sublist.flatMap _⟩).trans (flatMap_labels_subperm below)
      · rw [not_or, Bool.not_eq_true, Bool.not_eq_true] at used
        rw [unkept used.1, unexposed used.2]
        exact List.nil_subperm
    -- label and tables stay, and what is below goes from the children before to those after
    have below : ((s.exposed placement).visited.flatMap labels).Subperm
        (s.visited.flatMap labels) := by
      refine (((visited_perm _).trans children).flatMap_right labels).subperm.trans ?_
      refine .trans ?_ ((s.visited_perm.trans s.children_perm).flatMap_right labels).symm.subperm
      simp only [List.flatMap_append] at sorting ⊢
      exact (flatMap_labels_subperm sources).append
        ((flatMap_labels_subperm standing).append sorting)
    refine (labels_perm _).subperm.trans (.trans ?_ s.labels_perm.symm.subperm)
    rw [label_exposed, List.subperm_cons, labelsBelow, labelsBelow, tables_exposed]
    exact (List.subperm_append_left _).2 below

/-! ### The copies -/

/-- Every label that an ordering declares is declared by one of the terms that are left of it. -/
theorem exists_labels_allTerms (gathered : List OrderTerm) {t : OrderTerm} (ht : t ∈ s.ordering) :
    ∃ u ∈ s.allTerms gathered, u.expr.labels = t.expr.labels := by
  obtain ⟨v, hv, first⟩ := OrderTerm.exists_labels_withoutRepeats ht
  obtain ⟨w, hw, second⟩ :=
    OrderTerm.exists_labels_withoutRepeats (List.mem_append_left gathered hv)
  have among := List.mem_map_of_mem (f := fun u : OrderTerm => u.expr) hw
  rw [← map_expr_allTerms] at among
  obtain ⟨u, hu, same⟩ := List.mem_map.1 among
  exact ⟨u, hu, by rw [same, second, first]⟩

theorem exists_labels_ownTerms {t : OrderTerm} (ht : t ∈ s.ordering) :
    ∃ u ∈ s.ownTerms, u.expr.labels = t.expr.labels := by
  obtain ⟨v, hv, same⟩ := OrderTerm.exists_labels_withoutRepeats ht
  have among := List.mem_map_of_mem (f := fun u : OrderTerm => u.expr) hv
  rw [← map_expr_ownTerms] at among
  obtain ⟨u, hu, declares⟩ := List.mem_map.1 among
  exact ⟨u, hu, by rw [declares, same]⟩

/-- Where a select may order, each of its terms is kept, or one with the same labels. -/
theorem exists_labels_ordering (may : s.mayOrder placement) {t : OrderTerm} (ht : t ∈ s.ordering) :
    ∃ u ∈ (s.exposed placement).ordering, u.expr.labels = t.expr.settled.labels := by
  have own : t.settled ∈ s.renewed.ordering := List.mem_map_of_mem ht
  have mayToo : s.renewed.mayOrder placement := may
  obtain ⟨cs, eq, -⟩ := s.exposed_eq placement
  have ordering : (s.exposed placement).ordering =
      if s.renewed.receives placement then s.renewed.allTerms s.gathered
      else s.renewed.ownTerms := by
    rw [eq, adding, arranged, if_pos mayToo]
  rw [ordering]
  split
  · exact exists_labels_allTerms s.gathered own
  · exact exists_labels_ownTerms own

/-- Where a select passes its terms on, each of them has a column, or one with the same labels. -/
theorem exists_labels_columns (passes : s.passesOn placement) {t : OrderTerm}
    (ht : t ∈ s.ordering) :
    ∃ c ∈ (s.exposed placement).columns, c.expr.labels = t.expr.settled.labels := by
  have own : t.settled ∈ s.renewed.ordering := List.mem_map_of_mem ht
  have passed : (s.settled placement).2 = s.renewed.allTerms s.gathered := by
    rw [settled_eq, Select.passed, passesOn, collapses_renewed, ← passesOn, if_pos passes]
  obtain ⟨u, hu, same⟩ := exists_labels_allTerms s.gathered own
  obtain ⟨cs, eq, -, -, -, each⟩ :=
    (s.settled placement).1.exposing_adds_new (s.settled placement).2
  rw [exposed, eq]
  rcases each u (passed ▸ hu) with ⟨c, hc, declares⟩ | ⟨c, hc, equal⟩
  · exact ⟨c, List.mem_append_right _ hc, by rw [declares, same]; rfl⟩
  · exact ⟨c, hc, by rw [← Expr.labels_of_beq equal, same]; rfl⟩

/-- **A select that repeats its ordering declares the labels in it twice.** -/
theorem RepeatsOrdering.not_nodup (h : s.RepeatsOrdering) :
    ¬ (s.exposed .source).labels.Nodup := by
  obtain ⟨t, ht, holds⟩ := h.2.2
  obtain ⟨may, passes, -⟩ := repeatsOrdering_iff.1 h
  obtain ⟨u, hu, term⟩ := exists_labels_ordering may ht
  obtain ⟨c, hc, column⟩ := exists_labels_columns passes ht
  obtain ⟨label, hlabel⟩ : ∃ label, label ∈ t.expr.settled.labels := by
    refine List.exists_mem_of_ne_nil _ fun none => holds ?_
    rw [Expr.labels_eq_nil_iff, Expr.subqueries_settled] at none
    exact List.map_eq_nil_iff.1 none
  intro nodup
  have both : ((s.exposed .source).columns.flatMap (·.expr.labels) ++
      (s.exposed .source).ordering.flatMap (·.expr.labels)).Sublist (s.exposed .source).labels := by
    rw [labels_eq, clauses]
    simp only [List.flatMap_append, List.flatMap_map, List.append_assoc]
    refine ((List.Sublist.append_left ?_ _).trans (List.sublist_append_right _ _)).cons _
    exact (List.sublist_append_left _ _).trans (List.sublist_append_right _ _)
  exact not_nodup_of_shared (List.mem_flatMap_of_mem hc (column ▸ hlabel))
    (List.mem_flatMap_of_mem hu (term ▸ hlabel)) (nodup.sublist both)

/-- What a clause declares, the select declares. -/
theorem labels_sublist_of_mem_clauses {e : Expr} (h : e ∈ s.clauses) :
    e.labels.Sublist s.labels := by
  rw [labels_eq]
  exact ((sublist_flatMap_of_mem h Expr.labels).trans (List.sublist_append_right _ _)).cons _

/-- **What is left below a select repeats its labels there.** -/
theorem Retains.not_nodup (h : s.Retains placement .source q) (repeats : q.RepeatsOrdering) :
    ¬ (s.exposed placement).labels.Nodup := by
  generalize hplace : Placement.source = place at h
  induction h with
  | self =>
    subst hplace
    exact repeats.not_nodup
  | @source placement _ s c _ hc _ ih =>
    have child : c.exposed .source ∈ (s.exposed placement).children := by
      refine List.mem_append_left _ (List.mem_append_left _ ?_)
      rw [sources_exposed]
      exact List.mem_map_of_mem hc
    exact fun nodup => ih repeats hplace (nodup.sublist (labels_sublist_of_mem_children child))
  | @standing placement _ s c _ hc _ ih =>
    obtain ⟨kept, exposed, children, -⟩ := s.exists_children_exposed placement
    have child : c.exposed .expression ∈ (s.exposed placement).children := by
      rw [children.mem_iff]
      exact List.mem_append_right _ (List.mem_append_left _ (List.mem_map_of_mem hc))
    exact fun nodup => ih repeats hplace (nodup.sublist (labels_sublist_of_mem_children child))
  | @sorting placement _ s c _ used hc _ ih =>
    obtain ⟨t, ht, hc⟩ := List.mem_flatMap.1 hc
    have declared : t.expr.settled.labels.Sublist (s.exposed placement).labels := by
      rcases used with may | passes
      · obtain ⟨u, hu, same⟩ := exists_labels_ordering may ht
        exact same ▸ labels_sublist_of_mem_clauses (mem_clauses_of_ordering hu)
      · obtain ⟨column, hcolumn, same⟩ := exists_labels_columns passes ht
        exact same ▸ labels_sublist_of_mem_clauses (mem_clauses_of_columns hcolumn)
    have below := Expr.labels_sublist_of_mem_subqueries (mem_subqueries_settled.2 ⟨c, hc, rfl⟩)
    exact fun nodup => ih repeats hplace (nodup.sublist (below.trans declared))

end Select

/-! ## Statements -/

namespace Projection

variable {p : Projection}

/-- Placing orderings leaves the projector and what it declares. -/
theorem labels_placed (p : Projection) : p.placed.labels =
    (p.select.exposed .outermost).labels ++ p.projector.exprs.flatMap Expr.labels :=
  p.placed.labels_eq

/-- **When placing orderings repeats no label**: if no subquery of a source that is left repeats its
ordering. -/
theorem nodup_labels_placed_iff (nodup : p.labels.Nodup) :
    p.placed.labels.Nodup ↔
      ∀ q, p.select.Retains .outermost .source q → ¬ q.RepeatsOrdering := by
  rw [labels_placed]
  constructor
  · intro unique q hq repeats
    exact hq.not_nodup repeats (unique.sublist (List.sublist_append_left _ _))
  · intro spares
    rw [labels_eq] at nodup
    have select := Select.labels_exposed_subperm spares
    obtain ⟨l, perm, sublist⟩ := (List.subperm_append_right _).2 select
    exact perm.nodup_iff.1 (nodup.sublist sublist)

end Projection

/-- **When placing the orderings keeps the labels of a valid statement apart**: unless a paged
subquery of a source, left in place, keeps an ordering by a subquery and passes it on as well. -/
theorem Statement.placeOrderings_nodup_labels_iff {s s' : Statement} (valid : s.check = .ok ())
    (h : s.placeOrderings.result = .ok s') :
    (∀ p ∈ s'.queries, p.labels.Nodup) ↔
      ∀ p ∈ s.queries, ∀ q, p.select.Retains .outermost .source q → ¬ q.RepeatsOrdering := by
  have placed := Statement.forall₂_placed h
  have each : ∀ p ∈ s.queries, p.labels.Nodup := fun p hp => (check_eq_ok_iff.1 valid p hp).labels
  constructor
  · intro nodup p hp
    obtain ⟨p', hp', rfl⟩ := exists_of_forall₂_of_mem_left placed hp
    exact (Projection.nodup_labels_placed_iff (each p hp)).1 (nodup _ hp')
  · intro spares p' hp'
    obtain ⟨p, hp, rfl⟩ := exists_of_forall₂_of_mem placed hp'
    exact (Projection.nodup_labels_placed_iff (each p hp)).2 (spares p hp)

/-- Orders, those with the highest payment first, all of them or as many as are taken. -/
def ordersByPayment (take : Option UInt64) : Select :=
  ⟨"t", [⟨"id", .column "o" "id", .int⟩], some (.table "orders" "o"), none,
    [⟨.scalarQuery paymentAmount, .descending⟩], [], [], false, none, take, false⟩

def ordersByPaymentQuery (take : Option UInt64) : Statement :=
  .query ⟨⟨"q", [⟨"id", .column "t" "id", .int⟩], some (.subquery (ordersByPayment take)), none, [],
    [], [], false, none, none, false⟩, .scalar (.column "q" "id")⟩

/-- Without a page the ordering is only passed on. -/
theorem Statement.placeOrderings_nodup_labels_iff_ordersByPayment :
    ∃ s', (ordersByPaymentQuery none).placeOrderings.result = .ok s' ∧
      ∀ p ∈ s'.queries, p.labels.Nodup := by
  have spares : ∀ p ∈ (ordersByPaymentQuery none).queries, ∀ q,
      p.select.Retains .outermost .source q → ¬ q.RepeatsOrdering := by
    intro p hp q hq repeats
    have unpaged : ∀ n ∈ (ordersByPaymentQuery none).nodes, ∀ s, n = .select s →
        s.hasPaging = false := by
      simp [ordersByPaymentQuery, ordersByPayment, paymentAmount, Statement.nodes,
        Statement.queries, Projection.nodes, Projector.exprs, Select.nodes, Source.nodesOption,
        Source.nodes, Expr.nodesOption, Expr.nodes, Select.hasPaging]
    have held : .select q ∈ (ordersByPaymentQuery none).nodes :=
      List.mem_flatMap_of_mem hp (List.mem_append_left _ hq.holds.mem_nodes)
    exact Bool.false_ne_true ((unpaged _ held q rfl).symm.trans repeats.1)
  have succeeds : (ordersByPaymentQuery none).placeOrderings.result.isOk := by cbv
  obtain ⟨s', run⟩ := isOk_iff_exists.1 succeeds
  exact ⟨s', run, (placeOrderings_nodup_labels_iff (by cbv) run).2 spares⟩

/-- **A page keeps its ordering and passes it on**, and what a term of it declares is declared
twice. -/
theorem Statement.placeOrderings_repeats_labels :
    (ordersByPaymentQuery (some 5)).check = .ok () ∧
      ∃ s', (ordersByPaymentQuery (some 5)).placeOrderings.result = .ok s' ∧
        ¬ ∀ p ∈ s'.queries, p.labels.Nodup := by
  refine ⟨by cbv, ?_⟩
  have repeated : ((ordersByPaymentQuery (some 5)).placeOrderings.result.map fun s' =>
      s'.queries.map Projection.labels) = .ok [["q", "t", "o", "s", "p", "s", "p"]] := by
    cbv
  cases run : (ordersByPaymentQuery (some 5)).placeOrderings.result with
  | error failure =>
    rw [run] at repeated
    cases repeated
  | ok s' =>
    rw [run] at repeated
    have labels : s'.queries.map Projection.labels = [["q", "t", "o", "s", "p", "s", "p"]] :=
      Except.ok.inj repeated
    refine ⟨s', rfl, fun nodup => ?_⟩
    have all : ∀ l ∈ s'.queries.map Projection.labels, l.Nodup := List.forall_mem_map.2 nodup
    rw [labels, List.forall_mem_singleton] at all
    exact absurd all (by decide)

end HiveQuery
