import HiveQuery.Proofs.SafePruning
/-!
# The end of pruning

Of a query without a NaN, pruning is a loop that makes rounds until one leaves the select as it was
(`Projection.PrunesIn`). Every round before the last one removes a column, which bounds their number
(`Projection.PrunesIn.columnCount_le`). What the last round leaves alone it leaves alone again, and
it keeps no column without a reason.
-/

namespace HiveQuery

open Outcome

namespace Projection

variable {n : Nat} {p p' : Projection}

/-- **Every round before the last one removes a column.** -/
theorem PrunesIn.columnCount_le (h : p.PrunesIn n p') (free : p.select.NaNFree) :
    n + p'.select.columnCount ≤ p.select.columnCount := by
  induction h with
  | stop => omega
  | again round changed _ ih =>
    have fewer := columnCount_lt_of_round free round changed
    have rest := ih (naNFree_of_round free round)
    omega

/-- **What pruning ends with is pruned.** -/
theorem PrunesIn.pruneColumns_eq (h : p.PrunesIn n p') : p'.pruneColumns.result = .ok p' := by
  obtain ⟨next, last, same⟩ := h.exists_last
  rw [result_pruneColumns last, if_pos same]
  rfl

/-- **A column that is left has a reason to stay**: it is the only one, it is referred to, or the
label of its select is pinned. -/
theorem columns_referred_of_pruneColumns (free : p.select.NaNFree)
    (run : p.pruneColumns.result = .ok p') {q : Select} (hq : .select q ∈ p'.select.nodes)
    (unpinned : ¬ p'.Pins q.label) :
    q.columns.length ≤ 1 ∨ ∀ c ∈ q.columns, (q.label, c.name) ∈ p'.refs := by
  have needs := needs_of_pruneColumns free run q (Select.mem_nodes_iff_holds.1 hq)
  rcases Select.needs_iff.1 needs with one | all
  · exact .inl one.le
  · refine .inr fun c hc => ?_
    have keeps := all c hc
    rw [ColumnUsage.keeps, Bool.or_eq_true, isPinned_iff] at keeps
    exact List.contains_iff_mem.1 (keeps.resolve_left unpinned)

end Projection

namespace Statement

/-- **Pruning ends with a minimal statement**, if no literal is a NaN. The rounds that a query goes
through remove a column each. Of a select that is left in the select of a query, and whose label is
not pinned, every column is referred to in the query, unless there is at most one. Pruning what
is left changes nothing. -/
theorem pruneColumns_minimal {s : Statement} (free : s.NaNFree) :
    ∃ t, s.pruneColumns.result = .ok t ∧
      List.Forall₂ (fun p p' =>
        (∃ n, p.PrunesIn n p' ∧ n + p'.select.columnCount ≤ p.select.columnCount) ∧
        ∀ q, .select q ∈ p'.select.nodes → ¬ p'.Pins q.label →
          q.columns.length ≤ 1 ∨ ∀ c ∈ q.columns, (q.label, c.name) ∈ p'.refs)
        s.queries t.queries ∧
      t.pruneColumns.result = .ok t := by
  obtain ⟨t, run, queries⟩ := s.exists_pruneColumns
  refine ⟨t, run, forall₂_imp_of_mem queries fun p hp p' _ prunes => ?_, ?_⟩
  · obtain ⟨n, loop⟩ := Projection.prunesIn_of_pruneColumns (free.select hp) prunes
    exact ⟨⟨n, loop, loop.columnCount_le (free.select hp)⟩,
      fun q hq => Projection.columns_referred_of_pruneColumns (free.select hp) prunes hq⟩
  · have again : outcome (t.mapQueriesM Projection.pruneColumns) () = .ok (t, ()) := by
      refine mapQueriesM_eq_self fun p' hp' _ => Traced.outcome_eq_ok_iff.2 ?_
      obtain ⟨p, hp, prunes⟩ := exists_of_forall₂_of_mem queries hp'
      obtain ⟨n, loop⟩ := Projection.prunesIn_of_pruneColumns (free.select hp) prunes
      exact loop.pruneColumns_eq
    exact Traced.outcome_eq_ok_iff.1 again

end Statement

/-- Columns that pass on columns of the same names. -/
def passedOn (label : String) (names : List String) : List Column :=
  names.map fun name => ⟨name, .column label name, .int⟩

/-- The orders, in a subquery of their own. -/
def innerOrders (names : List String) : Select :=
  ⟨"u", passedOn "o" names, some (.table "orders" "o"), none, [], [], [], false, none, none, false⟩

/-- The number and the date of the orders, which are passed on in two levels. -/
def nestedOrders (outer inner : List String) : Projection :=
  let orders : Select :=
    ⟨"t", passedOn "u" outer, some (.subquery (innerOrders inner)), none, [], [], [], false, none,
      none, false⟩
  ⟨⟨"q", passedOn "t" ["id", "date"], some (.subquery orders), none, [], [], [], false, none, none,
    false⟩, .scalar (.column "q" "id")⟩

/-- The total is passed on to a column that nothing reads. Once that is gone, so is the total. -/
theorem Statement.pruneColumns_minimal_nestedOrders :
    let s := Statement.query (nestedOrders ["id", "date", "total"] ["id", "date", "total"])
    let p' := nestedOrders ["id", "date"] ["id", "date"]
    s.NaNFree ∧ s.pruneColumns.result = .ok (.query p') ∧ ¬ p'.Pins "u" ∧
      (∀ name ∈ ["id", "date"], ("u", name) ∈ p'.refs) ∧
      (Statement.query p').pruneColumns.result = .ok (.query p') := by
  intro s p'
  have free : s.NaNFree := by
    unfold Statement.NaNFree
    decide
  have pruned : s.pruneColumns.result = .ok (.query p') := by cbv
  have unpinned : ¬ p'.Pins "u" := by
    rw [← Projection.isPinned_iff]
    decide
  obtain ⟨t, run, queries, again⟩ := pruneColumns_minimal free
  obtain rfl := Except.ok.inj (pruned.symm.trans run)
  refine ⟨free, pruned, unpinned, ?_, again⟩
  obtain ⟨⟨-, referred⟩, -⟩ := List.forall₂_cons.1 queries
  have held : .select (innerOrders ["id", "date"]) ∈ p'.select.nodes := by
    simp [p', nestedOrders, Select.nodes, Source.nodesOption, Source.nodes, innerOrders]
  rcases referred _ held unpinned with one | all
  · exact absurd one (by decide)
  · simpa [innerOrders, passedOn] using all

end HiveQuery
