import HiveQuery.Proofs.LabelAccounts
/-!
# Paging and the labels of a query

A page draws labels that no select or table of the statement has. So a valid statement keeps its
labels apart unless a page without an ordering is numbered by a column that holds a subquery inside
a larger expression. That column is copied into the row number, and what is declared in it is then
declared twice. `Statement.replacePaging_nodup_labels_iff` says so for every valid statement, and
`Statement.replacePaging_repeats_labels` is the shortest such page.
-/

namespace HiveQuery

open Outcome

/-- What paging a query declares. -/
theorem Projection.accounts_paging {rowNumberColumn : String} {p p' : Projection}
    {supply supply' : LabelSupply}
    (h : outcome (p.transform (.paging rowNumberColumn)) supply = .ok (p', supply')) :
    supply.Accounts p.labels p'.labels supply' (∀ q, .select q ∈ p.nodes → ¬ q.NumbersByQuery) := by
  have leaves := Transform.paging_keepsLeaves rowNumberColumn
  have chain := (chain_of_outcome_mapM (Projection.of_transform leaves h)).imp
    fun _ _ _ _ _ hrun => Select.accounts_paging hrun
  rw [labels_eq_flatMap, labels_eq_flatMap]
  refine (Select.accounts_of_chain chain).imp fun spares s hs q hq => ?_
  exact spares q (mem_nodes_iff_holds.2 ⟨s, hs, hq⟩)

/-- What paging a query repeats. -/
theorem Projection.repeats_of_paging {rowNumberColumn : String} {p p' : Projection}
    {supply supply' : LabelSupply} {q : Select} (hq : .select q ∈ p.nodes)
    (numbers : q.NumbersByQuery)
    (h : outcome (p.transform (.paging rowNumberColumn)) supply = .ok (p', supply')) :
    ¬ p'.labels.Nodup := by
  have leaves := Transform.paging_keepsLeaves rowNumberColumn
  have chain := chain_of_outcome_mapM (Projection.of_transform leaves h)
  obtain ⟨s, hs, holds⟩ := mem_nodes_iff_holds.1 hq
  obtain ⟨s', hs', _, _, hrun⟩ := chain.exists_of_mem_left hs
  rw [labels_eq_flatMap]
  intro nodup
  have below := Select.nodup_labelsBelow (nodup.sublist (sublist_flatMap_of_mem hs' Select.labels))
  exact Select.repeats_of_paging holds numbers hrun below

namespace Statement

variable {rowNumberColumn : String} {s s' : Statement}

theorem labels_subset_of_mem_queries {p : Projection} (hp : p ∈ s.queries) :
    p.labels ⊆ s.labels := by
  intro label hlabel
  obtain ⟨n, hn, declares⟩ := List.mem_filterMap.1 hlabel
  exact List.mem_filterMap.2 ⟨n, List.mem_flatMap_of_mem hp hn, declares⟩

/-- **The queries of a statement are paged one by one**, each with labels that it does not have. -/
theorem forall₂_paged (h : (s.replacePaging rowNumberColumn).result = .ok s') :
    List.Forall₂ (fun p p' => ∃ supply supply' : LabelSupply, p.labels ⊆ supply.taken ∧
      outcome (p.transform (.paging rowNumberColumn)) supply = .ok (p', supply'))
      s.queries s'.queries := by
  obtain ⟨supply', hrun⟩ := Traced.run'_eq_ok_iff.1 h
  have chain := (chain_of_outcome_mapM (of_outcome_mapQueriesM hrun)).imp
    fun p hp supply p' supply' hpage => And.intro (labels_subset_of_mem_queries hp) hpage
  -- the supply knows the labels of the whole statement from the first query to the last
  refine (chain.forall₂_keeping (J := fun supply => supply.taken = s.labels) ?_ rfl).imp ?_
  · intro p _ supply p' supply' taken step
    obtain ⟨drawn, copied, -, draws, -⟩ := Projection.accounts_paging step.2
    exact draws.taken.trans taken
  · rintro p p' ⟨supply, supply', taken, labels, hpage⟩
    exact ⟨supply, supply', taken ▸ labels, hpage⟩

/-- **When paging keeps the labels of a valid statement apart**: unless a page numbers its rows by a
column that holds a subquery, and never if one does. -/
theorem replacePaging_nodup_labels_iff (valid : s.check = .ok ())
    (h : (s.replacePaging rowNumberColumn).result = .ok s') :
    (∀ p ∈ s'.queries, p.labels.Nodup) ↔ ∀ q, .select q ∈ s.nodes → ¬ q.NumbersByQuery := by
  have pages := forall₂_paged h
  constructor
  · intro nodup q hq numbers
    obtain ⟨p, hp, hq⟩ := List.mem_flatMap.1 hq
    obtain ⟨p', hp', supply, supply', -, hpage⟩ := exists_of_forall₂_of_mem_left pages hp
    exact Projection.repeats_of_paging hq numbers hpage (nodup p' hp')
  · intro spares p' hp'
    obtain ⟨p, hp, supply, supply', taken, hpage⟩ := exists_of_forall₂_of_mem pages hp'
    have checks := check_eq_ok_iff.1 valid p hp
    refine (Projection.accounts_paging hpage).nodup (fun q hq => ?_) checks.labels taken
    exact spares q (List.mem_flatMap_of_mem hp hq)

end Statement

/-- The first orders, each with a column of what was paid for it. -/
def firstOrders (paid : Expr) : Select :=
  ⟨"q", [⟨"id", .column "o" "id", .int⟩, ⟨"paid", paid, .int⟩], some (.table "orders" "o"), none,
    [], [], [], false, none, some 5, false⟩

def paymentAmount : Select :=
  ⟨"s", [⟨"total", .column "p" "amount", .int⟩], some (.table "payments" "p"), none, [], [], [],
    false, none, none, false⟩

def firstOrdersQuery (paid : Expr) : Statement :=
  .query ⟨firstOrders paid, .scalar (.column "q" "paid")⟩

/-- A column that is a subquery is left out of the row number. -/
theorem Statement.replacePaging_nodup_labels_iff_firstOrders :
    ∃ s', ((firstOrdersQuery (.scalarQuery paymentAmount)).replacePaging "rn").result = .ok s' ∧
      ∀ p ∈ s'.queries, p.labels.Nodup := by
  have spares : ∀ q, .select q ∈ (firstOrdersQuery (.scalarQuery paymentAmount)).nodes →
      ¬ q.NumbersByQuery := by
    intro q hq
    have held : q = firstOrders (.scalarQuery paymentAmount) ∨ q = paymentAmount := by
      simpa [firstOrdersQuery, Statement.nodes, Statement.queries, Projection.nodes,
        Projector.exprs, firstOrders, paymentAmount, Select.nodes, Source.nodesOption, Source.nodes,
        Expr.nodesOption, Expr.nodes] using hq
    rintro ⟨paged, -, -, c, hc, whole, holds, -⟩
    rcases held with rfl | rfl
    · have columns : c = ⟨"id", .column "o" "id", .int⟩ ∨
          c = ⟨"paid", .scalarQuery paymentAmount, .int⟩ := by
        simpa [firstOrders] using hc
      rcases columns with rfl | rfl
      · exact holds rfl
      · cases whole
    · simp [paymentAmount, Select.effectiveSkip] at paged
  have succeeds :
      ((firstOrdersQuery (.scalarQuery paymentAmount)).replacePaging "rn").result.isOk := by cbv
  obtain ⟨s', run⟩ := isOk_iff_exists.1 succeeds
  exact ⟨s', run, (replacePaging_nodup_labels_iff (by cbv) run).2 spares⟩

/-- **A subquery inside a larger expression is copied**, and what it declares is declared twice. -/
theorem Statement.replacePaging_repeats_labels :
    (firstOrdersQuery (.binary .add (.scalarQuery paymentAmount) (.int 1))).check = .ok () ∧
      ∃ s', ((firstOrdersQuery (.binary .add (.scalarQuery paymentAmount) (.int 1))).replacePaging
        "rn").result = .ok s' ∧ ¬ ∀ p ∈ s'.queries, p.labels.Nodup := by
  refine ⟨by cbv, ?_⟩
  have repeated : (((firstOrdersQuery (.binary .add (.scalarQuery paymentAmount)
      (.int 1))).replacePaging "rn").result.map fun s' => s'.queries.map Projection.labels) =
      .ok [["q", "t0", "o", "s", "p", "s", "p"]] := by
    cbv
  cases run : ((firstOrdersQuery (.binary .add (.scalarQuery paymentAmount)
      (.int 1))).replacePaging "rn").result with
  | error failure =>
    rw [run] at repeated
    cases repeated
  | ok s' =>
    rw [run] at repeated
    have labels : s'.queries.map Projection.labels = [["q", "t0", "o", "s", "p", "s", "p"]] :=
      Except.ok.inj repeated
    refine ⟨s', rfl, fun nodup => ?_⟩
    have all : ∀ l ∈ s'.queries.map Projection.labels, l.Nodup := List.forall_mem_map.2 nodup
    rw [labels, List.forall_mem_singleton] at all
    exact absurd all (by decide)

end HiveQuery
