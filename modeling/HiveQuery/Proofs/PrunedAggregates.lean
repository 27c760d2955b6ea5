import HiveQuery.Proofs.ColumnEconomy
import HiveQuery.Proofs.Shape
/-!
# Pruning and aggregates

A select without a grouping has one row if a column of it aggregates, and a row for each row of its
source otherwise. Pruning asks only whether a column is read, so a select can lose the columns that
aggregate and with them the one row it had. What is read is settled at the end: the references of a
query only get fewer from round to round (`Projection.within_of_round`), so a column that the pruned
query reads has never been dropped. `Statement.pruneColumns_aggregates` says when a select still
aggregates, and `Statement.pruneColumns_loses_aggregates` is one that does not.
-/

namespace HiveQuery

open Outcome

/-! ## The expressions of a tree, level by level -/

theorem Expr.mem_nodes_of_mem_level {e x : Expr} (h : x ∈ e.level) : .expr x ∈ e.nodes := by
  induction e using parts_induction with
  | step e ih =>
    rw [nodes_eq, List.mem_cons, List.mem_append]
    rw [level_eq, List.mem_append, List.mem_flatMap, List.mem_singleton] at h
    rcases h with ⟨p, hp, hx⟩ | rfl
    · exact .inr (.inl (List.mem_flatMap_of_mem hp (ih p hp hx)))
    · exact .inl rfl

/-- An expression below another one is on its level, or below one of its subqueries. -/
theorem Expr.mem_level_of_mem_nodes {e x : Expr} (h : .expr x ∈ e.nodes) :
    x ∈ e.level ∨ ∃ c ∈ e.subqueries, .expr x ∈ c.nodes := by
  induction e using parts_induction with
  | step e ih =>
    rw [nodes_eq, List.mem_cons, List.mem_append, List.mem_flatMap, List.mem_flatMap] at h
    rw [level_eq, subqueries_eq]
    rcases h with same | ⟨p, hp, hx⟩ | ⟨c, hc, hx⟩
    · exact .inl (by simp [Node.expr.inj same])
    · refine (ih p hp hx).imp (fun hx => ?_) ?_
      · exact List.mem_append_left _ (List.mem_flatMap_of_mem hp hx)
      · rintro ⟨c, hc, hx⟩
        exact ⟨c, List.mem_append_left _ (List.mem_flatMap_of_mem hp hc), hx⟩
    · exact .inr ⟨c, List.mem_append_right _ hc, hx⟩

theorem Source.mem_level_of_mem_nodes {source : Source} {x : Expr} (h : .expr x ∈ source.nodes) :
    (∃ e ∈ source.conditions, .expr x ∈ e.nodes) ∨ ∃ c ∈ source.selects, .expr x ∈ c.nodes := by
  induction source using join_induction with
  | table => simp [nodes] at h
  | subquery query =>
    simp only [nodes, List.mem_cons, reduceCtorEq, false_or] at h
    exact .inr ⟨query, List.mem_singleton_self _, h⟩
  | join kind left right condition ihl ihr =>
    simp only [nodes, Expr.nodesOption_eq, List.mem_cons, reduceCtorEq, false_or, List.mem_append,
      List.mem_flatMap] at h
    simp only [conditions, selects, List.mem_append]
    rcases h with (h | h) | ⟨e, he, h⟩
    · rcases ihl h with ⟨e, he, hx⟩ | ⟨c, hc, hx⟩
      · exact .inl ⟨e, .inl (.inl he), hx⟩
      · exact .inr ⟨c, .inl hc, hx⟩
    · rcases ihr h with ⟨e, he, hx⟩ | ⟨c, hc, hx⟩
      · exact .inl ⟨e, .inl (.inr he), hx⟩
      · exact .inr ⟨c, .inr hc, hx⟩
    · exact .inl ⟨e, .inr he, h⟩

namespace Select

/-- The expressions of a select on its own level, the conditions of its joins among them. -/
def level (s : Select) : List Expr :=
  (s.clauses ++ s.conditions).flatMap Expr.level

/-- **The expressions below a select are those on the levels of the selects it holds.** -/
theorem expr_mem_nodes_iff {s : Select} {x : Expr} :
    .expr x ∈ s.nodes ↔ ∃ q, s.Holds q ∧ x ∈ q.level := by
  constructor
  · intro h
    induction s using children_induction with
    | step s ih =>
      have clause : ∀ e ∈ s.clauses ++ s.conditions, .expr x ∈ e.nodes →
          ∃ q, s.Holds q ∧ x ∈ q.level := by
        intro e he hx
        rcases Expr.mem_level_of_mem_nodes hx with here | ⟨c, hc, hx⟩
        · exact ⟨s, .self s, List.mem_flatMap_of_mem he here⟩
        · have child : c ∈ s.children := by
            simp only [children, List.mem_append, List.mem_flatMap]
            rcases List.mem_append.1 he with he | he
            · exact .inr ⟨e, he, hc⟩
            · exact .inl (.inr ⟨e, he, hc⟩)
          obtain ⟨q, holds, hx⟩ := ih c child hx
          exact ⟨q, .child child holds, hx⟩
      rw [nodes_eq, List.mem_cons, List.mem_append, List.mem_flatMap, List.mem_flatMap] at h
      rcases h with same | ⟨source, hs, hx⟩ | ⟨e, he, hx⟩
      · cases same
      · rcases Source.mem_level_of_mem_nodes hx with ⟨e, he, hx⟩ | ⟨c, hc, hx⟩
        · exact clause e (List.mem_append_right _ (List.mem_flatMap_of_mem hs he)) hx
        · have child : c ∈ s.children :=
            List.mem_append_left _ (List.mem_append_left _ (List.mem_flatMap_of_mem hs hc))
          obtain ⟨q, holds, hx⟩ := ih c child hx
          exact ⟨q, .child child holds, hx⟩
      · exact clause e (List.mem_append_left _ he) hx
  · rintro ⟨q, holds, hx⟩
    obtain ⟨e, he, hx⟩ := List.mem_flatMap.1 hx
    refine holds.nodes_subset ?_
    rcases List.mem_append.1 he with he | he
    · exact nodes_subset_of_mem_clauses he (Expr.mem_nodes_of_mem_level hx)
    · exact nodes_subset_of_mem_conditions he (Expr.mem_nodes_of_mem_level hx)

end Select

/-- The expressions of a query stand on the level of one of its selects, or of its projector. -/
theorem Projection.expr_mem_nodes_iff {p : Projection} {x : Expr} :
    .expr x ∈ p.nodes ↔ (∃ s ∈ p.visited, ∃ q, s.Holds q ∧ x ∈ q.level) ∨
      x ∈ p.projector.exprs.flatMap Expr.level := by
  constructor
  · intro h
    rcases List.mem_append.1 h with h | h
    · exact .inl ⟨p.select, List.mem_cons_self, Select.expr_mem_nodes_iff.1 h⟩
    · obtain ⟨e, he, h⟩ := List.mem_flatMap.1 h
      rcases Expr.mem_level_of_mem_nodes h with here | ⟨c, hc, h⟩
      · exact .inr (List.mem_flatMap_of_mem he here)
      · exact .inl ⟨c, List.mem_cons_of_mem _ (List.mem_flatMap_of_mem he hc),
          Select.expr_mem_nodes_iff.1 h⟩
  · rintro (⟨s, hs, h⟩ | h)
    · have below := Select.expr_mem_nodes_iff.2 h
      rcases List.mem_cons.1 hs with rfl | hs
      · exact List.mem_append_left _ below
      · obtain ⟨e, he, hs⟩ := List.mem_flatMap.1 hs
        exact List.mem_append_right _
          (List.mem_flatMap_of_mem he (Expr.nodes_subset_of_mem_subqueries hs below))
    · obtain ⟨e, he, h⟩ := List.mem_flatMap.1 h
      exact List.mem_append_right _ (List.mem_flatMap_of_mem he (Expr.mem_nodes_of_mem_level h))

/-! ## What a round does to a select -/

section Round

variable {keep : String → Column → Bool} {depth : Nat} {e e' : Expr}

/-- Two expressions that are the same reference, or whose subqueries have the same label. -/
def Expr.UsesAlike (x x' : Expr) : Prop :=
  x'.ref? = x.ref? ∧ x'.query?.map (·.label) = x.query?.map (·.label)

/-- An expression aggregates before a round if and only if it does after it. -/
theorem Expr.Becomes.aggregates (h : e.Becomes (.keepColumns keep) depth e') :
    e'.aggregates = e.aggregates := by
  induction e using parts_induction generalizing e' with
  | step e ih =>
    obtain ⟨st, st', h⟩ := h
    rw [transform_eq] at h
    by_cases hleaf : e.isLeaf
    · rw [if_pos hleaf] at h
      obtain ⟨rfl, -⟩ := outcome_pure_eq_ok_iff.1 h
      rfl
    · rw [if_neg hleaf] at h
      obtain ⟨st₁, hparts, -, -, aggregate, rowNumber⟩ := of_outcome_traverseParts h
      have parts := forall₂_of_outcome_mapM hparts
      have any : e'.parts.any Expr.aggregates = e.parts.any Expr.aggregates := by
        rw [Bool.eq_iff_iff, List.any_eq_true, List.any_eq_true]
        constructor
        · rintro ⟨p', hp', agg⟩
          obtain ⟨p, hp, becomes⟩ := exists_of_forall₂_of_mem parts hp'
          exact ⟨p, hp, ih p hp becomes ▸ agg⟩
        · rintro ⟨p, hp, agg⟩
          obtain ⟨p', hp', becomes⟩ := exists_of_forall₂_of_mem_left parts hp
          exact ⟨p', hp', (ih p hp becomes).symm ▸ agg⟩
      rw [aggregates_eq, aggregates_eq e, aggregate, rowNumber, any]

/-- A round makes no new use of a column or of a subquery. -/
theorem Expr.Becomes.level (h : e.Becomes (.keepColumns keep) depth e') :
    ∀ x' ∈ e'.level, ∃ x ∈ e.level, x.UsesAlike x' := by
  induction e using parts_induction generalizing e' with
  | step e ih =>
    obtain ⟨st, st', h⟩ := h
    rw [transform_eq] at h
    by_cases hleaf : e.isLeaf
    · rw [if_pos hleaf] at h
      obtain ⟨rfl, -⟩ := outcome_pure_eq_ok_iff.1 h
      exact fun x hx => ⟨x, hx, rfl, rfl⟩
    · rw [if_neg hleaf] at h
      obtain ⟨st₁, hparts, hquery, ref, -⟩ := of_outcome_traverseParts h
      have label : e'.query?.map (·.label) = e.query?.map (·.label) := by
        have queries := forall₂_of_outcome_mapM hquery
        generalize e.query? = o, e'.query? = o' at queries
        cases o with
        | none =>
          cases o' with
          | none => rfl
          | some q' => cases queries
        | some q =>
          cases o' with
          | none => cases queries
          | some q' =>
            obtain ⟨⟨_, _, run⟩, -⟩ := List.forall₂_cons.1 queries
            exact congrArg some (Select.label_of_thins (Transform.keepColumns_thins keep) run)
      intro x' hx'
      rw [level_eq, List.mem_append, List.mem_flatMap, List.mem_singleton] at hx'
      rw [level_eq]
      rcases hx' with ⟨p', hp', hx'⟩ | rfl
      · obtain ⟨p, hp, becomes⟩ := exists_of_forall₂_of_mem (forall₂_of_outcome_mapM hparts) hp'
        obtain ⟨x, hx, alike⟩ := ih p hp becomes x' hx'
        exact ⟨x, List.mem_append_left _ (List.mem_flatMap_of_mem hp hx), alike⟩
      · exact ⟨e, List.mem_append_right _ (List.mem_singleton_self _), ref, label⟩

end Round

namespace Select

variable {keep : String → Column → Bool} {depth : Nat} {s s' q q' : Select}

/-- What a round makes of a select: with its parts changed it keeps some of its columns. -/
def Pruned (keep : String → Column → Bool) (q q' : Select) : Prop :=
  ∃ depth q₁, q.Mirrors (Expr.Becomes (.keepColumns keep) depth) q₁ ∧
    (q₁.keepColumns keep).result = .ok q'

/-- **Every select after a round was one before it.** -/
theorem exists_pruned_of_holds
    (h : outcome (s.transform (.keepColumns keep) depth) () = .ok (s', ())) (hq' : s'.Holds q') :
    ∃ q, s.Holds q ∧ q.Pruned keep q' := by
  have run : ∀ q', s'.Holds q' → ∃ q, s.Holds q ∧ q.Pruned keep q' := by
    refine transform_induction (Transform.keepColumns_thins keep).leaves
      (R := fun _ _ s s' _ => ∀ q', s'.Holds q' → ∃ q, s.Holds q ∧ q.Pruned keep q') ?_ h
    intro depth s s₁ s' st st₁ st' chain mirrors hact q' hq'
    have act : (s₁.keepColumns keep).result = .ok s' := Traced.outcome_eq_ok_iff.1 hact
    cases hq' with
    | self => exact ⟨s, .self s, depth + 1, s₁, mirrors, act⟩
    | child hc hq' =>
      obtain ⟨cs, sublist, rfl⟩ := (Transform.keepColumns_thins keep).select depth _ _ _ _ hact
      have hc₁ := children_subset_of_columns (fun c hc => ⟨c, sublist.subset hc, rfl⟩) hc
      obtain ⟨c₀, hc₀, _, _, below⟩ := chain.exists_of_mem (mem_visited_iff.2 hc₁)
      obtain ⟨q, holds, pruned⟩ := below q' hq'
      exact ⟨q, .child (mem_visited_iff.1 hc₀) holds, pruned⟩
  exact run q' hq'

/-- **What is left of a select**: it has its label, each of its columns is one that it had, and
those that the usage keeps are left. -/
structure Thinned (usage : ColumnUsage) (q q' : Select) : Prop where
  label : q'.label = q.label
  distinct : q'.distinct = q.distinct
  columns : ∀ c' ∈ q'.columns, ∃ c ∈ q.columns, c'.name = c.name ∧
    c'.expr.aggregates = c.expr.aggregates
  kept : ∀ c ∈ q.columns, usage.keeps q.label c → ∃ c' ∈ q'.columns, c'.name = c.name ∧
    c'.expr.aggregates = c.expr.aggregates

end Select

/-- Whether a column is kept depends on its name. -/
theorem ColumnUsage.keeps_congr (usage : ColumnUsage) (label : String) {c c' : Column}
    (name : c'.name = c.name) : usage.keeps label c' = usage.keeps label c := by
  rw [keeps, keeps, name]

/-- Whatever the first usage keeps, the second one keeps. -/
def ColumnUsage.Within (usage usage' : ColumnUsage) : Prop :=
  ∀ label c, usage.keeps label c → usage'.keeps label c

namespace Select

variable {usage usage' : ColumnUsage} {q q₁ q' : Select}

theorem Thinned.refl (usage : ColumnUsage) (q : Select) : q.Thinned usage q :=
  ⟨rfl, rfl, fun c hc => ⟨c, hc, rfl, rfl⟩, fun c hc _ => ⟨c, hc, rfl, rfl⟩⟩

/-- Where less is used, a select may be thinner. -/
theorem Thinned.mono (h : q.Thinned usage' q') (within : usage.Within usage') :
    q.Thinned usage q' :=
  ⟨h.label, h.distinct, h.columns, fun c hc keeps => h.kept c hc (within _ c keeps)⟩

/-- What is thinned twice is thinned. -/
theorem Thinned.trans (h : q.Thinned usage q₁) (h' : q₁.Thinned usage q') : q.Thinned usage q' := by
  refine ⟨h'.label.trans h.label, h'.distinct.trans h.distinct, fun c' hc' => ?_,
    fun c hc keeps => ?_⟩
  · obtain ⟨c₁, hc₁, name₁, same₁⟩ := h'.columns c' hc'
    obtain ⟨c, hc, name, same⟩ := h.columns c₁ hc₁
    exact ⟨c, hc, name₁.trans name, same₁.trans same⟩
  · obtain ⟨c₁, hc₁, name₁, same₁⟩ := h.kept c hc keeps
    rw [← usage.keeps_congr q.label name₁, ← h.label] at keeps
    obtain ⟨c', hc', name, same⟩ := h'.kept c₁ hc₁ keeps
    exact ⟨c', hc', name.trans name₁, same.trans same₁⟩

theorem Pruned.thinned (h : q.Pruned usage.keeps q') : q.Thinned usage q' := by
  obtain ⟨depth, q₁, mirrors, kept⟩ := h
  obtain ⟨cs, run, sublist, all⟩ := q₁.keepColumns_eq usage.keeps
  obtain rfl := Except.ok.inj (run.symm.trans kept)
  refine ⟨mirrors.label, mirrors.distinct, fun c' hc' => ?_, fun c hc keeps => ?_⟩
  · obtain ⟨c, hc, name, -, becomes⟩ := exists_of_forall₂_of_mem mirrors.columns
      (sublist.subset hc')
    exact ⟨c, hc, name, becomes.aggregates⟩
  · obtain ⟨c', hc', name, -, becomes⟩ := exists_of_forall₂_of_mem_left mirrors.columns hc
    rw [← usage.keeps_congr q.label name, ← mirrors.label] at keeps
    exact ⟨c', all c' hc' keeps, name, becomes.aggregates⟩

/-- A round makes no new use on the level of a select. -/
theorem Pruned.level {keep : String → Column → Bool} (h : q.Pruned keep q') :
    ∀ x' ∈ q'.level, ∃ x ∈ q.level, x.UsesAlike x' := by
  obtain ⟨depth, q₁, mirrors, kept⟩ := h
  obtain ⟨cs, run, sublist, -⟩ := q₁.keepColumns_eq keep
  obtain rfl := Except.ok.inj (run.symm.trans kept)
  intro x' hx'
  obtain ⟨e', he', hx'⟩ := List.mem_flatMap.1 hx'
  have own : e' ∈ q₁.clauses ++ q₁.conditions := by
    refine List.mem_append.2 ((List.mem_append.1 he').imp_left fun he' => ?_)
    exact clauses_subset_of_columns (fun c hc => ⟨c, sublist.subset hc, rfl⟩) he'
  obtain ⟨e, he, becomes⟩ :=
    exists_of_forall₂_of_mem (List.rel_append mirrors.clauses mirrors.conditions) own
  obtain ⟨x, hx, alike⟩ := becomes.level x' hx'
  exact ⟨x, List.mem_flatMap_of_mem he hx, alike⟩

end Select

/-! ## What a round does to a query -/

namespace Projection

variable {p p' next : Projection} {keep : String → Column → Bool}

/-- The selects of a query, one by one, before and after a round. -/
theorem forall₂_visited (round : (p.keepColumns keep).result = .ok next) :
    List.Forall₂ (fun s s' => ∀ q', s'.Holds q' → ∃ q, s.Holds q ∧ q.Pruned keep q')
      p.visited next.visited := by
  have run : outcome (p.transform (.keepColumns keep)) () = .ok (next, ()) :=
    Traced.outcome_eq_ok_iff.2 round
  have visited := Projection.of_transform (Transform.keepColumns_thins keep).leaves run
  refine (forall₂_of_outcome_mapM visited).imp ?_
  rintro s s' ⟨_, _, hs⟩ q' hq'
  exact Select.exists_pruned_of_holds hs hq'

/-- A round makes no expression that was not there. -/
theorem exists_expr_of_round (round : (p.keepColumns keep).result = .ok next) {x' : Expr}
    (hx' : .expr x' ∈ next.nodes) : ∃ x, .expr x ∈ p.nodes ∧ x.UsesAlike x' := by
  rcases expr_mem_nodes_iff.1 hx' with ⟨s', hs', q', holds', hx'⟩ | hx'
  · obtain ⟨s, hs, below⟩ := exists_of_forall₂_of_mem (forall₂_visited round) hs'
    obtain ⟨q, holds, pruned⟩ := below q' holds'
    obtain ⟨x, hx, alike⟩ := pruned.level x' hx'
    exact ⟨x, expr_mem_nodes_iff.2 (.inl ⟨s, hs, q, holds, hx⟩), alike⟩
  · obtain ⟨e', he', hx'⟩ := List.mem_flatMap.1 hx'
    have exprs := forall₂_of_outcome_mapM (Projector.of_outcome_transform (of_round round).2)
    obtain ⟨e, he, becomes⟩ := exists_of_forall₂_of_mem exprs he'
    obtain ⟨x, hx, alike⟩ := Expr.Becomes.level becomes x' hx'
    exact ⟨x, expr_mem_nodes_iff.2 (.inr (List.mem_flatMap_of_mem he hx)), alike⟩

/-- **What a query uses after a round, it used before it.** -/
theorem within_of_round (round : (p.keepColumns p.columnUsage.keeps).result = .ok next) :
    next.columnUsage.Within p.columnUsage := by
  intro label c keeps
  simp only [ColumnUsage.keeps, ColumnUsage.isPinned, ColumnUsage.isUsed, columnUsage,
    Bool.or_eq_true, List.contains_iff_mem] at keeps ⊢
  rcases keeps with pinned | used
  · refine .inl ?_
    rcases List.mem_cons.1 pinned with rfl | pinned
    · rw [Select.label_of_thins (Transform.keepColumns_thins _) (of_round round).1]
      exact List.mem_cons_self
    · refine List.mem_cons_of_mem _ ?_
      obtain ⟨n, hn, pins⟩ := List.mem_filterMap.1 pinned
      cases n with
      | source => cases pins
      | select q' =>
        obtain ⟨s', hs', holds'⟩ := mem_nodes_iff_holds.1 hn
        obtain ⟨s, hs, below⟩ := exists_of_forall₂_of_mem (forall₂_visited round) hs'
        obtain ⟨q, holds, pruned⟩ := below q' holds'
        have thinned := pruned.thinned
        refine List.mem_filterMap.2 ⟨.select q, mem_nodes_iff_holds.2 ⟨s, hs, holds⟩, ?_⟩
        rwa [Node.pinned?, thinned.distinct, thinned.label] at pins
      | expr x' =>
        obtain ⟨x, hx, -, label⟩ := exists_expr_of_round round hn
        exact List.mem_filterMap.2 ⟨.expr x, hx, label.symm.trans pins⟩
  · refine .inr ?_
    obtain ⟨n, hn, isRef⟩ := List.mem_filterMap.1 used
    cases n with
    | expr x' =>
      obtain ⟨x, hx, ref, -⟩ := exists_expr_of_round round hn
      exact List.mem_filterMap.2 ⟨.expr x, hx, ref.symm.trans isRef⟩
    | _ => cases isRef

/-! ## What pruning does -/

/-- **The selects of a pruned query**, one by one: each was a select of the query, and a column that
the pruned query uses has stayed in every round. -/
theorem forall₂_thinned (h : p.pruneColumns.result = .ok p') :
    List.Forall₂ (fun s s' => ∀ q', s'.Holds q' → ∃ q, s.Holds q ∧ q.Thinned p'.columnUsage q')
      p.visited p'.visited := by
  refine pruneColumns_induction (P := fun p' => List.Forall₂ (fun s s' => ∀ q', s'.Holds q' →
    ∃ q, s.Holds q ∧ q.Thinned p'.columnUsage q') p.visited p'.visited) ?_ ?_ h
  · intro p₁ next before round
    have within := within_of_round round
    refine (forall₂_comp before (forall₂_visited round)).imp ?_
    rintro s s' ⟨s₁, first, second⟩ q' hq'
    obtain ⟨q₁, hq₁, pruned⟩ := second q' hq'
    obtain ⟨q, hq, thinned⟩ := first q₁ hq₁
    exact ⟨q, hq, (thinned.mono within).trans (pruned.thinned.mono within)⟩
  · exact List.forall₂_same.2 fun s _ q hq => ⟨q, hq, .refl _ q⟩

end Projection

/-- Every select of a valid select has columns of different names. -/
theorem Select.nodup_columnNames_of_check {scope : Scope} {s q : Select}
    (check : s.check scope = .ok ()) (h : s.Holds q) : q.columnNames.Nodup := by
  induction h generalizing scope with
  | self => exact (check_eq_ok_iff.1 check).names
  | child hc _ ih =>
    have checks := check_eq_ok_iff.1 check
    simp only [children, List.mem_append, List.mem_flatMap] at hc
    rcases hc with (hc | ⟨e, he, hc⟩) | ⟨e, he, hc⟩
    · exact ih (checks.sources _ hc)
    · exact ih ((checks.conditions e he).queries _ hc)
    · exact ih ((checks.clauses e he).queries _ hc)

/-- The usage keeps an aggregating column of the first select, or such a column is the only one that
the second has. -/
def ColumnUsage.SparesAggregate (usage : ColumnUsage) (q q' : Select) : Prop :=
  ∃ c ∈ q.columns, c.expr.aggregates ∧ (usage.keeps q.label c ∨ q'.columnNames = [c.name])

namespace Select.Thinned

variable {usage : ColumnUsage} {q q' : Select}

/-- A select that loses columns aggregates only if it did before. -/
theorem hasAggregates_of (h : q.Thinned usage q') (aggregates : q'.hasAggregates) :
    q.hasAggregates := by
  obtain ⟨c', hc', aggregates⟩ := List.any_eq_true.1 aggregates
  obtain ⟨c, hc, -, same⟩ := h.columns c' hc'
  exact List.any_eq_true.2 ⟨c, hc, same ▸ aggregates⟩

/-- A select still aggregates if it keeps a column that does. -/
theorem hasAggregates_of_keeps (h : q.Thinned usage q') {c : Column} (hc : c ∈ q.columns)
    (aggregates : c.expr.aggregates) (keeps : usage.keeps q.label c) : q'.hasAggregates := by
  obtain ⟨c', hc', -, same⟩ := h.kept c hc keeps
  exact List.any_eq_true.2 ⟨c', hc', same.trans aggregates⟩

/-- Where every column that is left is needed, and names differ, an aggregate is spared or lost. -/
theorem hasAggregates_iff (h : q.Thinned usage q') (names : q.columnNames.Nodup)
    (needs : usage.Needs q') : q'.hasAggregates ↔ usage.SparesAggregate q q' := by
  constructor
  · intro aggregates
    obtain ⟨c', hc', aggregates⟩ := List.any_eq_true.1 aggregates
    obtain ⟨c, hc, name, same⟩ := h.columns c' hc'
    refine ⟨c, hc, same ▸ aggregates, ?_⟩
    have left : c.name ∈ q'.columnNames := name ▸ List.mem_map_of_mem hc'
    rcases needs with one | all
    · obtain ⟨only, single⟩ := List.length_eq_one_iff.1 one
      rw [single, List.mem_singleton] at left
      exact .inr (by rw [single, left])
    · refine .inl ?_
      rw [← h.label, ColumnUsage.keeps, Bool.or_eq_true]
      exact all c.name left
  · rintro ⟨c, hc, aggregates, keeps | single⟩
    · exact h.hasAggregates_of_keeps hc aggregates keeps
    · have left : c.name ∈ q'.columnNames := single ▸ List.mem_singleton_self _
      obtain ⟨c', hc', name'⟩ := List.mem_map.1 left
      obtain ⟨c₀, hc₀, name, same⟩ := h.columns c' hc'
      -- the name stands for one column of the select, so it is the aggregating one that is left
      obtain rfl : c₀ = c := List.inj_on_of_nodup_map names hc₀ hc (name.symm.trans name')
      exact List.any_eq_true.2 ⟨c', hc', same.trans aggregates⟩

end Select.Thinned

/-- **When a select still aggregates after pruning** a valid statement. Let a select and one of the
pruned query have the same label. If the pruned query reads an aggregating column of the first, or
its columns are pinned there, the second aggregates, and only if the first did. In the select of a
query, and in what that holds, this is exact: the second aggregates if and only if an aggregating
column is used or is the only column left. -/
theorem Statement.pruneColumns_aggregates {s s' : Statement} (valid : s.check = .ok ())
    (free : s.NaNFree) (h : s.pruneColumns.result = .ok s') :
    List.Forall₂ (fun p p' => ∀ q q', .select q ∈ p.nodes → .select q' ∈ p'.nodes →
      q'.label = q.label →
        (∀ c ∈ q.columns, c.expr.aggregates → p'.columnUsage.keeps q.label c → q'.hasAggregates) ∧
        (q'.hasAggregates → q.hasAggregates) ∧
        (.select q' ∈ p'.select.nodes →
          (q'.hasAggregates ↔ p'.columnUsage.SparesAggregate q q')))
      s.queries s'.queries := by
  have each : ∀ p ∈ s.queries, p.Checks ∧ p.select.NaNFree :=
    fun p hp => ⟨check_eq_ok_iff.1 valid p hp, free.select hp⟩
  refine ((List.forall₂_and_left _ _).2 ⟨each, forall₂_of_mapQueriesM h⟩).imp ?_
  rintro p p' ⟨⟨checks, free⟩, prunes⟩ q q' hq hq' label
  have thinned := Projection.forall₂_thinned prunes
  -- a label stands for one select of the query, which is then the one that has become the other
  have same : ∀ q₀, .select q₀ ∈ p.nodes → q₀.Thinned p'.columnUsage q' → q₀ = q := by
    intro q₀ hq₀ thins
    have labels : q₀.label = q.label := thins.label.symm.trans label
    exact Node.select.inj
      (eq_of_nodup_filterMap checks.labels hq₀ hq (congrArg some labels) rfl)
  obtain ⟨s', hs', holds'⟩ := Projection.mem_nodes_iff_holds.1 hq'
  obtain ⟨s, hs, below⟩ := exists_of_forall₂_of_mem thinned hs'
  obtain ⟨q₀, holds, thins⟩ := below q' holds'
  obtain rfl := same q₀ (Projection.mem_nodes_iff_holds.2 ⟨s, hs, holds⟩) thins
  refine ⟨fun c hc => thins.hasAggregates_of_keeps hc, thins.hasAggregates_of, fun main => ?_⟩
  have inside := Select.mem_nodes_iff_holds.1 main
  obtain ⟨q₁, own, thinned⟩ := (List.forall₂_cons.1 thinned).1 q' inside
  rw [same q₁ (List.mem_append_left _ own.mem_nodes) thinned] at own
  exact thins.hasAggregates_iff (Select.nodup_columnNames_of_check checks.select own)
    (Projection.needs_of_pruneColumns free prunes q' inside)

/-- The number of orders, beside a column that does not count them. -/
def orderCount (columns : List Column) : Select :=
  ⟨"t", columns, some (.table "orders" "o"), none, [], [], [], false, none, none, false⟩

/-- A query that reads one column of such a subquery. -/
def orderCountQuery (columns : List Column) (read : String) : Projection :=
  ⟨⟨"q", [⟨"x", .column "t" read, .int⟩], some (.subquery (orderCount columns)), none, [], [], [],
    false, none, none, false⟩, .scalar (.column "q" "x")⟩

def oneColumn : Column :=
  ⟨"one", .int 1, .int⟩

def countColumn : Column :=
  ⟨"n", .aggregate .count none false, .bigInt⟩

/-- A count that is read is left. -/
theorem Statement.pruneColumns_aggregates_orderCount :
    (Statement.query (orderCountQuery [oneColumn, countColumn] "n")).pruneColumns.result =
        .ok (.query (orderCountQuery [countColumn] "n")) ∧
      (orderCount [countColumn]).hasAggregates := by
  have pruned : (Statement.query (orderCountQuery [oneColumn, countColumn] "n")).pruneColumns.result
      = .ok (.query (orderCountQuery [countColumn] "n")) := by
    cbv
  have free : (Statement.query (orderCountQuery [oneColumn, countColumn] "n")).NaNFree := by
    unfold Statement.NaNFree
    decide
  have held : ∀ columns, .select (orderCount columns) ∈ (orderCountQuery columns "n").nodes := by
    intro columns
    simp [orderCountQuery, Projection.nodes, Select.nodes, Source.nodesOption, Source.nodes,
      orderCount]
  obtain ⟨query, -⟩ := List.forall₂_cons.1 (pruneColumns_aggregates (by cbv) free pruned)
  refine ⟨pruned, (query _ _ (held _) (held _) rfl).1 countColumn ?_ rfl (by decide)⟩
  simp [orderCount]

/-- **A count that nothing reads is pruned**, and the one row of the select becomes a row for each
order. -/
theorem Statement.pruneColumns_loses_aggregates :
    (Statement.query (orderCountQuery [oneColumn, countColumn] "one")).check = .ok () ∧
      (Statement.query (orderCountQuery [oneColumn, countColumn] "one")).NaNFree ∧
      (Statement.query (orderCountQuery [oneColumn, countColumn] "one")).pruneColumns.result =
        .ok (.query (orderCountQuery [oneColumn] "one")) ∧
      (orderCount [oneColumn, countColumn]).hasAggregates ∧
      ¬ (orderCount [oneColumn]).hasAggregates := by
  refine ⟨by cbv, ?_, by cbv, by decide, by decide⟩
  unfold Statement.NaNFree
  decide

end HiveQuery
