import HiveQuery.Proofs.ColumnEconomy
/-!
# Merging once is enough

Merging leaves no select with two equal columns, except where it merges nothing: the select of a
query and the subqueries that stand directly in its projector. A tree like that has nothing to
merge, so no reference is ever renamed and merging again gives back the same statement
(`Statement.mergeColumns_complete`).
-/

namespace HiveQuery

open Outcome

/-! ## Trees that stay as they are -/

section Still

variable {m : Type → Type} [Monad m] [LawfulMonad m] {σ : Type} [Outcome m σ]
variable {t : Transform m} {depth : Nat} {st : σ}

/-- Items that are left alone one by one are left alone. -/
theorem outcome_mapM_self {α : Type} {f : α → m α} {as : List α}
    (h : ∀ a ∈ as, outcome (f a) st = .ok (a, st)) : outcome (as.mapM f) st = .ok (as, st) := by
  induction as with
  | nil => exact outcome_mapM_nil_eq_ok_iff.2 ⟨rfl, rfl⟩
  | cons a as ih =>
    simp only [List.forall_mem_cons] at h
    exact outcome_mapM_cons_eq_ok_iff.2 ⟨a, as, st, h.1, ih h.2, rfl⟩

variable (leaves : ∀ e : Expr, e.isLeaf → outcome (t.leaf e) st = .ok (e, st))
include leaves

/-- An expression stays as it is in a state in which its leaves and its subqueries do. -/
theorem Expr.transform_self {e : Expr}
    (below : ∀ q ∈ e.subqueries, outcome (q.transform t depth) st = .ok (q, st)) :
    outcome (e.transform t depth) st = .ok (e, st) := by
  induction e using Expr.parts_induction with
  | step e ih =>
    rw [Expr.subqueries_eq] at below
    simp only [List.forall_mem_append, List.forall_mem_flatMap] at below
    obtain ⟨parts, query⟩ := below
    rw [Expr.transform_eq]
    split
    · next leaf => exact leaves e leaf
    · rw [Expr.traverseParts, outcome_bind_eq_ok_iff]
      refine ⟨e.parts, st, outcome_mapM_self fun p hp => ih p hp (parts p hp), ?_⟩
      rw [outcome_bind_eq_ok_iff]
      refine ⟨_, st, outcome_mapM_self query, outcome_pure_eq_ok_iff.2 ⟨?_, rfl⟩⟩
      rw [Option.head?_toList, e.withParts_self]

theorem Expr.transformOption_self {o : Option Expr} (below : ∀ e ∈ o, ∀ q ∈ e.subqueries,
      outcome (q.transform t depth) st = .ok (q, st)) :
    outcome (Expr.transformOption t depth o) st = .ok (o, st) := by
  rw [Expr.transformOption_eq, outcome_bind_eq_ok_iff]
  refine ⟨o.toList, st, outcome_mapM_self fun e he => ?_, outcome_pure_eq_ok_iff.2 ⟨?_, rfl⟩⟩
  · exact transform_self leaves (below e (Option.mem_toList.1 he))
  · rw [Option.head?_toList]

/-- A source is left alone if the selects below it are. -/
theorem Source.transform_self {source : Source}
    (below : ∀ q ∈ source.visited, outcome (q.transform t depth) st = .ok (q, st)) :
    outcome (source.transform t depth) st = .ok (source, st) := by
  induction source using Source.join_induction with
  | table => exact outcome_pure_eq_ok_iff.2 ⟨rfl, rfl⟩
  | subquery query =>
    rw [Source.transform, outcome_bind_eq_ok_iff]
    exact ⟨query, st, below query (List.mem_singleton_self _),
      outcome_pure_eq_ok_iff.2 ⟨rfl, rfl⟩⟩
  | join kind left right condition ihl ihr =>
    simp only [visited, List.forall_mem_append, List.forall_mem_flatMap, Option.mem_toList] at below
    obtain ⟨⟨inLeft, inRight⟩, inCondition⟩ := below
    rw [Source.transform, outcome_bind_eq_ok_iff]
    refine ⟨left, st, ihl inLeft, ?_⟩
    rw [outcome_bind_eq_ok_iff]
    refine ⟨right, st, ihr inRight, ?_⟩
    rw [outcome_bind_eq_ok_iff]
    exact ⟨condition, st, Expr.transformOption_self leaves inCondition,
      outcome_pure_eq_ok_iff.2 ⟨rfl, rfl⟩⟩

/-- The parts of a select are left alone if the selects below it are. -/
theorem Select.transformParts_self {s : Select}
    (below : ∀ q ∈ s.visited, outcome (q.transform t (depth + 1)) st = .ok (q, st)) :
    outcome (s.transformParts t depth) st = .ok (s, st) := by
  simp only [visited, List.forall_mem_append, List.forall_mem_flatMap, Option.mem_toList] at below
  obtain ⟨inSource, inClauses⟩ := below
  have clause : ∀ e ∈ s.clauses, outcome (e.transform t (depth + 1)) st = .ok (e, st) :=
    fun e he => Expr.transform_self leaves (inClauses e he)
  have source : outcome (Source.transformOption t (depth + 1) s.source) st =
      .ok (s.source, st) := by
    cases hs : s.source with
    | none => exact outcome_pure_eq_ok_iff.2 ⟨rfl, rfl⟩
    | some source =>
      rw [Source.transformOption, outcome_bind_eq_ok_iff]
      exact ⟨source, st, Source.transform_self leaves (inSource source hs),
        outcome_pure_eq_ok_iff.2 ⟨rfl, rfl⟩⟩
  rw [transformParts, outcome_bind_eq_ok_iff]
  refine ⟨s.source, st, source, ?_⟩
  rw [outcome_bind_eq_ok_iff, Column.transformList_eq]
  refine ⟨s.columns, st, outcome_mapM_self fun c hc => ?_, ?_⟩
  · rw [outcome_bind_eq_ok_iff]
    exact ⟨c.expr, st, clause _ (mem_clauses_of_columns hc), outcome_pure_eq_ok_iff.2
      ⟨by cases c; rfl, rfl⟩⟩
  rw [outcome_bind_eq_ok_iff]
  refine ⟨s.filter, st, Expr.transformOption_self leaves fun e he =>
    inClauses e (mem_clauses_of_filter he), ?_⟩
  rw [outcome_bind_eq_ok_iff, OrderTerm.transformList_eq]
  refine ⟨s.ordering, st, outcome_mapM_self fun term hterm => ?_, ?_⟩
  · rw [outcome_bind_eq_ok_iff]
    exact ⟨term.expr, st, clause _ (mem_clauses_of_ordering hterm), outcome_pure_eq_ok_iff.2
      ⟨by cases term; rfl, rfl⟩⟩
  rw [outcome_bind_eq_ok_iff, Expr.transformList_eq]
  refine ⟨s.grouping, st, outcome_mapM_self fun e he => clause e (mem_clauses_of_grouping he), ?_⟩
  rw [outcome_bind_eq_ok_iff, Expr.transformList_eq]
  exact ⟨s.clustering, st, outcome_mapM_self fun e he => clause e (mem_clauses_of_clustering he),
    outcome_pure_eq_ok_iff.2 ⟨by cases s; rfl, rfl⟩⟩

/-- **A select stays as it is** in a state in which the leaves do, the action on it does nothing,
and neither does that on the selects below it. -/
theorem Select.transform_self {s : Select} (here : outcome (t.select depth s) st = .ok (s, st))
    (below : ∀ c ∈ s.children, c.Everywhere fun q =>
      ∀ depth, outcome (t.select (depth + 1) q) st = .ok (q, st)) :
    outcome (s.transform t depth) st = .ok (s, st) := by
  induction s using children_induction generalizing depth with
  | step s ih =>
    rw [Select.transform_eq, outcome_bind_eq_ok_iff]
    refine ⟨s, st, transformParts_self leaves fun q hq => ?_, here⟩
    obtain ⟨inner, further⟩ := everywhere_iff.1 (below q (mem_visited_iff.1 hq))
    exact ih q (mem_visited_iff.1 hq) (inner depth) further

theorem Binding.transformList_self {bs : List Binding} (below : ∀ b ∈ bs, ∀ q ∈ b.expr.subqueries,
      outcome (q.transform t 0) st = .ok (q, st)) :
    outcome (Binding.transformList t bs) st = .ok (bs, st) := by
  induction bs with
  | nil => exact outcome_pure_eq_ok_iff.2 ⟨rfl, rfl⟩
  | cons b bs ih =>
    simp only [List.forall_mem_cons] at below
    obtain ⟨member, expr⟩ := b
    rw [Binding.transformList, outcome_bind_eq_ok_iff]
    refine ⟨expr, st, Expr.transform_self leaves below.1, ?_⟩
    rw [outcome_bind_eq_ok_iff]
    exact ⟨bs, st, ih below.2, outcome_pure_eq_ok_iff.2 ⟨rfl, rfl⟩⟩

/-- **A query is left alone if its outermost selects are.** -/
theorem Projection.transform_self {p : Projection}
    (below : ∀ q ∈ p.visited, outcome (q.transform t 0) st = .ok (q, st)) :
    outcome (p.transform t) st = .ok (p, st) := by
  obtain ⟨select, projector⟩ := p
  simp only [visited, List.forall_mem_cons, List.forall_mem_flatMap] at below
  obtain ⟨hselect, hexprs⟩ := below
  rw [Projection.transform, outcome_bind_eq_ok_iff]
  refine ⟨select, st, hselect, ?_⟩
  rw [outcome_bind_eq_ok_iff]
  refine ⟨projector, st, ?_, outcome_pure_eq_ok_iff.2 ⟨rfl, rfl⟩⟩
  cases projector with
  | entity name bindings =>
    rw [Projector.transform, outcome_bind_eq_ok_iff]
    exact ⟨bindings, st, Binding.transformList_self leaves fun b hb =>
      hexprs b.expr (List.mem_map_of_mem hb), outcome_pure_eq_ok_iff.2 ⟨rfl, rfl⟩⟩
  | scalar e =>
    rw [Projector.transform, outcome_bind_eq_ok_iff]
    exact ⟨e, st, Expr.transform_self leaves (hexprs e List.mem_cons_self),
      outcome_pure_eq_ok_iff.2 ⟨rfl, rfl⟩⟩

end Still

/-! ## Nothing to merge -/

/-- Columns that differ are all kept. -/
theorem Column.mergeEqual_of_pairwise {kept columns : List Column}
    (h : (kept ++ columns).Pairwise fun a b => (a.expr == b.expr) = false) :
    Column.mergeEqual kept columns = (kept ++ columns, []) := by
  induction columns generalizing kept with
  | nil => rw [Column.mergeEqual, List.append_nil]
  | cons c columns ih =>
    have new : kept.find? (·.expr == c.expr) = none := by
      refine List.find?_eq_none.2 fun a ha => ?_
      rw [(List.pairwise_append.1 h).2.2 a ha c List.mem_cons_self]
      exact Bool.false_ne_true
    rw [List.append_cons] at h ⊢
    rw [Column.mergeEqual, new]
    exact ih h

/-- Merging leaves a select alone whose columns differ, and renames nothing for it. -/
theorem Select.mergeColumns_self {s : Select} (h : s.Differs) (st : Renames) :
    outcome s.mergeColumns st = .ok (s, st) := by
  have value : outcome s.mergeColumns st = .ok
      ({ s with columns := (Column.mergeEqual [] s.columns).1 },
        st.add s.label (Column.mergeEqual [] s.columns).2) := rfl
  have all : Column.mergeEqual [] s.columns = (s.columns, []) := Column.mergeEqual_of_pairwise h
  rw [value, all]
  cases s
  rfl

/-- No reference has been renamed yet. -/
theorem Transform.merging_leaf_nil {e : Expr} (h : e.isLeaf) :
    outcome (Transform.merging.leaf e) [] = .ok (e, []) := by
  cases e with
  | column | literal | generatedId => rfl
  | _ => cases h

namespace Projection

variable {p p' : Projection}

/-- After merging, the columns of every select differ that some other select encloses. -/
theorem differs_of_mergeColumns (h : p.mergeColumns.result = .ok p') {root : Select}
    (hroot : root ∈ p'.visited) : ∀ c ∈ root.children, c.Everywhere Select.Differs := by
  obtain ⟨st', run⟩ := Traced.run'_eq_ok_iff.1 h
  have visits :=
    forall₂_of_outcome_mapM (Projection.of_transform Transform.merging_thins.leaves run)
  obtain ⟨_, _, _, _, merged⟩ := exists_of_forall₂_of_mem visits hroot
  exact (Select.everywhere_differs_of_merging merged).2

/-- Merging leaves a query alone if the columns of every enclosed select differ. -/
theorem mergeColumns_self
    (differ : ∀ root ∈ p.visited, ∀ c ∈ root.children, c.Everywhere Select.Differs) :
    p.mergeColumns.result = .ok p := by
  refine Traced.run'_eq_ok_iff.2 ⟨[], transform_self (fun _ => Transform.merging_leaf_nil)
    fun root hroot => ?_⟩
  refine Select.transform_self (fun _ => Transform.merging_leaf_nil) rfl fun c hc q hq depth => ?_
  exact Select.mergeColumns_self (differ root hroot c hc q hq) []

end Projection

namespace Statement

/-- Merging maps the queries of a statement one by one, and cannot fail. -/
theorem exists_mergeColumns (s : Statement) :
    ∃ t, s.mergeColumns.result = .ok t ∧
      List.Forall₂ (fun p p' => p.mergeColumns.result = .ok p') s.queries t.queries := by
  obtain ⟨t, run⟩ := mapQueriesM_succeeds fun p _ => p.exists_mergeColumns
  exact ⟨t, run, forall₂_of_mapQueriesM run⟩

/-- **Merging is complete.** It succeeds on every statement. In what it gives, no two columns of a
select have equal expressions, the selects of the queries and the subqueries that stand directly in
their projectors apart, and merging that once more changes nothing. -/
theorem mergeColumns_complete (s : Statement) :
    ∃ t, s.mergeColumns.result = .ok t ∧
      (∀ p ∈ t.queries, ∀ root ∈ p.visited, ∀ q, .select q ∈ root.nodes.tail →
        q.columns.Pairwise fun a b => (a.expr == b.expr) = false) ∧
      t.mergeColumns.result = .ok t := by
  obtain ⟨t, run, queries⟩ := s.exists_mergeColumns
  have differ : ∀ p ∈ t.queries, ∀ root ∈ p.visited, ∀ c ∈ root.children,
      c.Everywhere Select.Differs := by
    intro p' hp' root hroot
    obtain ⟨p, -, merged⟩ := exists_of_forall₂_of_mem queries hp'
    exact Projection.differs_of_mergeColumns merged hroot
  refine ⟨t, run, fun p hp root hroot q hq => ?_, ?_⟩
  · obtain ⟨c, hc, holds⟩ := Select.mem_nodes_tail_iff.1 hq
    exact differ p hp root hroot c hc q holds
  · -- where no two columns are equal, nothing is merged and no rename is collected
    have again : outcome (t.mapQueriesM Projection.mergeColumns) () = .ok (t, ()) :=
      mapQueriesM_eq_self fun p hp _ =>
        Traced.outcome_eq_ok_iff.2 (Projection.mergeColumns_self (differ p hp))
    exact Traced.outcome_eq_ok_iff.1 again

end Statement

end HiveQuery
