import HiveQuery.Proofs.Descent
import HiveQuery.Proofs.PagingSound
import Mathlib.Algebra.Order.Group.Multiset
/-!
# The levels of a page, in any tree

Paging takes a select apart into levels. What is below the lowest of them is what was below the
paged select, in other places: the terms of the page move from the ordering into the row number or
into further columns (`Select.Numbers.exists_level`). A page that was given no ordering is numbered
by its columns instead, and these are copied, with the subqueries they hold
(`Select.NumbersByQuery`).
-/

namespace HiveQuery

open Outcome

/-- The nodes of a part stand among those of the expression, in their order. -/
theorem Expr.nodes_sublist_of_mem_parts {e p : Expr} (h : p ∈ e.parts) :
    p.nodes.Sublist e.nodes := by
  rw [nodes_eq e]
  exact ((sublist_flatMap_of_mem h nodes).trans (List.sublist_append_left _ _)).cons _

namespace Select

variable {s q b : Select}

/-! ## The selects below -/

/-- A select over one subquery that holds no other. -/
theorem visited_of_subquery (source : q.source = some (.subquery b))
    (plain : ∀ e ∈ q.clauses, e.subqueries = []) : q.visited = [b] := by
  rw [visited, source, List.flatMap_eq_nil_iff.2 plain]
  rfl

theorem mem_children_of_subquery (source : q.source = some (.subquery b)) : b ∈ q.children := by
  simp [children, sources, source, Source.selects]

/-- A select that reads one subquery, and has no other, declares below it what the subquery
declares. -/
theorem labelsBelow_of_subquery (source : q.source = some (.subquery b))
    (plain : ∀ e ∈ q.clauses, e.subqueries = []) : q.labelsBelow = b.labels := by
  rw [labelsBelow, visited_of_subquery source plain, tables, source]
  simp [Source.tables]

/-- What holds of a level and everywhere in the subquery that it reads holds everywhere in it. -/
theorem everywhere_of_subquery {P : Select → Prop} (source : q.source = some (.subquery b))
    (plain : ∀ e ∈ q.clauses, e.subqueries = []) (here : P q) (below : b.Everywhere P) :
    q.Everywhere P := by
  refine everywhere_iff.2 ⟨here, fun c hc => ?_⟩
  rw [← mem_visited_iff, visited_of_subquery source plain, List.mem_singleton] at hc
  exact hc ▸ below

/-- Further columns for the terms of a page bring nothing new below the select. -/
theorem children_exposedBase_subset (s : Select) (label : String) :
    (s.exposedBase label).children ⊆ s.children := by
  obtain ⟨cs, eq, -⟩ := s.exposedBase_eq label
  have source : (s.exposedBase label).source = s.source := by rw [eq]; rfl
  have filter : (s.exposedBase label).filter = s.filter := by rw [eq]; rfl
  intro c hc
  simp only [children, sources, conditions, source, List.mem_append, List.mem_flatMap] at hc ⊢
  refine hc.imp_right ?_
  rintro ⟨e, he, hc⟩
  refine ⟨e, ?_, hc⟩
  rcases mem_clauses_iff.1 he with he | he
  · exact mem_clauses_iff.2 (.inl (mem_others_exposedBase he))
  · exact mem_clauses_of_filter (filter ▸ he)

/-- The subqueries that a page numbers its rows by without taking them from an ordering. -/
def copies (s : Select) : List Select :=
  if s.ordering.isEmpty then s.defaultOrder.flatMap (·.expr.subqueries) else []

/-- What is copied was below the select. -/
theorem copies_subset (s : Select) : s.copies ⊆ s.visited := by
  intro c hc
  unfold copies at hc
  split at hc
  · obtain ⟨term, hterm, hc⟩ := List.mem_flatMap.1 hc
    obtain ⟨column, hcolumn, rfl⟩ := List.mem_map.1 hterm
    exact List.mem_append_right _ (List.mem_flatMap_of_mem
      (mem_clauses_of_columns (List.mem_of_mem_filter hcolumn)) hc)
  · cases hc

/-- Where an ordering is given it is not copied: the terms of the page take its place. -/
theorem pageTerms_perm (s : Select) : (s.pageTerms.flatMap (·.expr.subqueries)).Perm
    (s.ordering.flatMap (·.expr.subqueries) ++ s.copies) := by
  unfold pageTerms copies
  split
  · next empty => simp [List.isEmpty_iff.1 empty]
  · simp

/-- The subqueries of a select clause by clause. -/
theorem flatMap_subqueries_clauses (s : Select) : s.clauses.flatMap Expr.subqueries =
    s.columns.flatMap (·.expr.subqueries) ++ (s.filter.toList.flatMap Expr.subqueries ++
      (s.ordering.flatMap (·.expr.subqueries) ++ (s.grouping.flatMap Expr.subqueries ++
        s.clustering.flatMap Expr.subqueries))) := by
  simp [clauses, List.flatMap_map]

/-- **What is below a numbered select** is what was below the paged one, and the copies. -/
theorem visited_numbering_perm (s : Select) (label name : String) :
    ((s.unpaged label).numbering name s.pageTerms).visited.Perm (s.visited ++ s.copies) := by
  have terms := Multiset.coe_eq_coe.2 s.pageTerms_perm
  refine Multiset.coe_eq_coe.1 ?_
  simp only [visited, flatMap_subqueries_clauses, numbering, unpaged, List.flatMap_append,
    List.flatMap_singleton, Expr.subqueries_rowNumber, List.flatMap_nil, ← Multiset.coe_add]
    at terms ⊢
  rw [terms, Multiset.coe_nil, zero_add]
  ac_rfl

/-- The select that is numbered has nothing new below it. -/
theorem children_numbering_subset (s : Select) (label name : String) :
    ((s.unpaged label).numbering name s.pageTerms).children ⊆ s.children := by
  intro c hc
  have held := (s.visited_numbering_perm label name).mem_iff.1 (mem_visited_iff.2 hc)
  rcases List.mem_append.1 held with held | copied
  · exact mem_visited_iff.1 held
  · exact mem_visited_iff.1 (s.copies_subset copied)

/-- The page numbers its rows by a column that holds a subquery without being one. A distinct or
grouped select finds its own columns, if these equal themselves. -/
def NumbersByQuery (s : Select) : Prop :=
  (s.effectiveSkip.isSome ∨ s.take.isSome) ∧ s.ordering = [] ∧ s.distinct = false ∧
    ∃ c ∈ s.columns, c.expr.query? = none ∧ c.expr.subqueries ≠ [] ∧
      (s.grouping = [] ∨ ¬ c.expr.NaNFree)

/-- A page without an ordering is ordered by columns that are no subqueries. -/
theorem exists_of_mem_defaultOrder {term : OrderTerm} (h : term ∈ s.defaultOrder) :
    ∃ c ∈ s.columns, c.expr.query? = none ∧ term.expr = c.expr := by
  obtain ⟨c, hc, rfl⟩ := List.mem_map.1 h
  obtain ⟨hc, whole⟩ := List.mem_filter.1 hc
  exact ⟨c, hc, Option.isNone_iff_eq_none.1 whole, rfl⟩

/-- A plain select whose rows are numbered copies no subquery unless it numbers by one. -/
theorem copies_eq_nil (paged : s.effectiveSkip.isSome ∨ s.take.isSome)
    (distinct : s.distinct = false) (grouping : s.grouping = []) (spares : ¬ s.NumbersByQuery) :
    s.copies = [] := by
  unfold copies
  split
  · next unordered =>
    refine List.flatMap_eq_nil_iff.2 fun term hterm => ?_
    obtain ⟨c, hc, whole, same⟩ := exists_of_mem_defaultOrder hterm
    by_contra holds
    rw [same] at holds
    exact spares ⟨paged, List.isEmpty_iff.1 unordered, distinct, c, hc, whole, holds, .inl grouping⟩
  · rfl

/-- **What is below the base of a collapsed select**: some of the copies at most, and none unless
the page numbers by a subquery. -/
theorem visited_exposedBase_subperm (paged : s.effectiveSkip.isSome ∨ s.take.isSome)
    (projected : s.distinct = true → ∀ t ∈ s.pageTerms, (s.columnFor? t.expr).isSome)
    (label : String) :
    ∃ copied, copied ⊆ s.copies ∧ (s.exposedBase label).visited.Subperm (s.visited ++ copied) ∧
      (¬ s.NumbersByQuery → copied = []) := by
  obtain ⟨cs, eq, sublist, new, -⟩ := (s.unpaged label).exposing_adds_new s.pageTerms
  have base : s.exposedBase label = (s.unpaged label).adding cs := eq
  have added : (cs.flatMap (·.expr.subqueries)).Sublist
      (s.pageTerms.flatMap (·.expr.subqueries)) := by
    simpa only [List.flatMap_map] using sublist.flatMap Expr.subqueries
  have below : (↑(s.exposedBase label).visited : Multiset Select) +
      ↑(s.ordering.flatMap (·.expr.subqueries)) =
      ↑s.visited + ↑(cs.flatMap (·.expr.subqueries)) := by
    rw [base]
    simp only [visited, flatMap_subqueries_clauses, adding, unpaged, List.flatMap_append,
      List.flatMap_nil, ← Multiset.coe_add]
    rw [Multiset.coe_nil, zero_add]
    ac_rfl
  cases ordered : s.ordering.isEmpty with
  | false =>
    -- the new columns take the subqueries of the ordering with them
    have none : s.copies = [] := by simp [copies, ordered]
    have terms : s.pageTerms = s.ordering := by simp [pageTerms, ordered]
    rw [terms] at added
    refine ⟨[], List.nil_subset _, ?_, fun _ => rfl⟩
    rw [List.append_nil, ← Multiset.coe_le]
    refine le_of_add_le_add_right
      (a := (↑(s.ordering.flatMap (·.expr.subqueries)) : Multiset Select)) ?_
    rw [below]
    exact add_le_add_right (Multiset.coe_le.2 added.subperm) _
  | true =>
    have unordered : s.ordering = [] := List.isEmpty_iff.1 ordered
    have terms : s.pageTerms = s.defaultOrder := by simp [pageTerms, ordered]
    have copies : s.copies = s.defaultOrder.flatMap (·.expr.subqueries) := by simp [copies, ordered]
    rw [unordered, List.flatMap_nil, Multiset.coe_nil, add_zero, Multiset.coe_add,
      Multiset.coe_eq_coe] at below
    rw [terms] at added
    refine ⟨_, copies ▸ added.subset, below.subperm, fun spares => ?_⟩
    refine List.flatMap_eq_nil_iff.2 fun c hc => ?_
    obtain ⟨term, hterm, same⟩ := List.mem_map.1 (sublist.subset (List.mem_map_of_mem hc))
    obtain ⟨c₀, hc₀, whole, same₀⟩ := exists_of_mem_defaultOrder (terms ▸ hterm)
    have missing : s.columnFor? c₀.expr = none := by
      rw [← same₀, same]
      exact new c hc
    by_contra holds
    rw [← same, same₀] at holds
    -- a column is missing among the columns only if it does not equal itself
    refine spares ⟨paged, unordered, ?_, c₀, hc₀, whole, holds, .inr fun free => ?_⟩
    · by_contra distinct
      have found := projected (by simpa using distinct) term hterm
      rw [same₀, missing] at found
      cases found
    · have found := List.find?_eq_none.1 missing c₀ hc₀
      exact found free.beq_self

/-! ## The clauses of a page -/

variable {numbered : Select} {order : List OrderTerm} {supply supply' : LabelSupply}

theorem nodes_sublist_of_mem_clauses {e : Expr} (h : e ∈ s.clauses) : e.nodes.Sublist s.nodes := by
  rw [nodes_eq s]
  exact ((sublist_flatMap_of_mem h Expr.nodes).trans (List.sublist_append_right _ _)).cons _

/-- The lowest level is below the one that is numbered. -/
theorem holds_exposedBase (s : Select) (label label' name : String) :
    (((s.exposedBase label).wrapped label').numbering name
      ((s.unpaged label).exposing s.pageTerms).2).Holds (s.exposedBase label) :=
  .child (mem_children_of_subquery rfl) (.self _)

/-- **Nothing of a select gets lost in its page**: a level of the page has its source, and for each
of its clauses that clause or one that equals it. -/
theorem Numbers.exists_level (h : s.Numbers supply numbered order supply') (name : String) :
    ∃ level, (numbered.numbering name order).Holds level ∧ level.source = s.source ∧
      ∀ e ∈ s.clauses, ∃ e', (e' = e ∨ e' == e) ∧ e'.nodes.Sublist level.nodes := by
  have terms : ∀ t ∈ s.ordering, t ∈ s.pageTerms := by
    intro t ht
    have nonempty : s.ordering.isEmpty = false := by
      rw [List.isEmpty_eq_false_iff]
      exact List.ne_nil_of_mem ht
    simpa [pageTerms, nonempty] using ht
  cases h with
  | plain =>
    set level := (s.unpaged supply.fresh.1).numbering name s.pageTerms with hlevel
    refine ⟨level, .self _, rfl, fun e he => ⟨e, .inl rfl, ?_⟩⟩
    have rowNumber : Expr.rowNumber s.pageTerms ∈ level.clauses := by
      simp [hlevel, clauses, numbering]
    simp only [clauses, List.mem_append, List.mem_map, Option.mem_toList] at he
    rcases he with (((⟨c, hc, rfl⟩ | he) | ⟨t, ht, rfl⟩) | he) | he
    · exact nodes_sublist_of_mem_clauses (mem_clauses_of_columns (List.mem_append_left _ hc))
    · exact nodes_sublist_of_mem_clauses (mem_clauses_of_filter he)
    · have part : t.expr ∈ (Expr.rowNumber s.pageTerms).parts := List.mem_map_of_mem (terms t ht)
      exact (Expr.nodes_sublist_of_mem_parts part).trans (nodes_sublist_of_mem_clauses rowNumber)
    · exact nodes_sublist_of_mem_clauses (mem_clauses_of_grouping he)
    · exact nodes_sublist_of_mem_clauses (mem_clauses_of_clustering he)
  | wrapped =>
    obtain ⟨cs, eq, -, -, -, each⟩ := (s.unpaged supply.fresh.1).exposing_adds_new s.pageTerms
    refine ⟨s.exposedBase supply.fresh.1, s.holds_exposedBase _ _ _, ?_⟩
    rw [exposedBase, eq]
    refine ⟨rfl, fun e he => ?_⟩
    simp only [clauses, List.mem_append, List.mem_map, Option.mem_toList] at he
    rcases he with (((⟨c, hc, rfl⟩ | he) | ⟨t, ht, rfl⟩) | he) | he
    · exact ⟨c.expr, .inl rfl, nodes_sublist_of_mem_clauses
        (mem_clauses_of_columns (List.mem_append_left _ hc))⟩
    · exact ⟨e, .inl rfl, nodes_sublist_of_mem_clauses (mem_clauses_of_filter he)⟩
    · rcases each t (terms t ht) with ⟨c, hc, same⟩ | ⟨c, hc, equal⟩
      · exact ⟨c.expr, .inl same, nodes_sublist_of_mem_clauses
          (mem_clauses_of_columns (List.mem_append_right _ hc))⟩
      · exact ⟨c.expr, .inr equal, nodes_sublist_of_mem_clauses (mem_clauses_of_columns hc)⟩
    · exact ⟨e, .inl rfl, nodes_sublist_of_mem_clauses (mem_clauses_of_grouping he)⟩
    · exact ⟨e, .inl rfl, nodes_sublist_of_mem_clauses (mem_clauses_of_clustering he)⟩

/-- Below a page there is the select that is numbered, and nothing else. -/
theorem Numbers.labelsBelow_pageOf (h : s.Numbers supply numbered order supply') {name : String}
    {filter : Expr}
    (predicate : pagePredicate (.column numbered.label name) s.effectiveSkip s.take = .ok filter) :
    (s.pageOf numbered order name filter).labelsBelow = (numbered.numbering name order).labels :=
  labelsBelow_of_subquery rfl fun _ he =>
    (of_mem_clauses_pageOf h.columnNames_subset predicate he).1

end Select

/-! ## The pass -/

/-- Paging leaves references and literals alone. -/
theorem Transform.paging_keepsLeaves (rowNumberColumn : String) :
    (Transform.paging rowNumberColumn).KeepsLeaves :=
  Transform.keepsLeaves_of_pure fun _ => rfl

namespace Select

variable {rowNumberColumn : String} {depth : Nat} {s s' : Select} {supply supply' : LabelSupply}

/-- The action of the pass is paging, where there is something to page. -/
theorem of_select_paging
    (h : outcome ((Transform.paging rowNumberColumn).select depth s) supply = .ok (s', supply')) :
    outcome (s.page rowNumberColumn) supply = .ok (s', supply') ∨
      (s.skip = none ∧ s.take = none ∧ s' = s ∧ supply' = supply) := by
  simp only [Transform.paging] at h
  split at h
  · exact .inl h
  · next unpaged =>
    obtain ⟨rfl, rfl⟩ := outcome_pure_eq_ok_iff.1 h
    simp only [hasPaging, Bool.or_eq_true, not_or, Bool.not_eq_true, Option.isSome_eq_false_iff,
      Option.isNone_iff_eq_none] at unpaged
    exact .inr ⟨unpaged.1, unpaged.2, rfl, rfl⟩

end Select

end HiveQuery
