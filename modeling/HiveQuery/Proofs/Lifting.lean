import HiveQuery.Proofs.Exposure
import HiveQuery.Proofs.Frames
import HiveQuery.Proofs.Settling
/-!
# What lifting makes of a select

A select that is read by another one is settled and then exposes the terms that it passes on. Every
clause of the result is a settled clause of the select it comes from or a term gathered from its
source (`Select.mem_clauses_exposed`), and every gathered term is a reference to a column that the
settled source shows (`Source.mem_frame_of_mem_settled`). What is known of the parts is handed down
through these two.
-/

namespace HiveQuery

/-! ## What becomes of a select -/

namespace Select

/-- The settled select with the columns for the terms that it passes on. -/
def exposed (placement : Placement) (s : Select) : Select :=
  ((s.settled placement).1.exposing (s.settled placement).2).1

/-- The terms that the settled select passes on, as references to its columns. -/
def handed (placement : Placement) (s : Select) : List OrderTerm :=
  ((s.settled placement).1.exposing (s.settled placement).2).2

/-- An expression by which the select may order: of a settled term of its own, or gathered. -/
def Offers (s : Select) (e : Expr) : Prop :=
  (∃ t ∈ s.ordering, e = t.expr.settled) ∨ ∃ t ∈ s.gathered, e = t.expr

/-- A select offers each of its own terms, and each that is gathered from its source. -/
theorem offers_of_mem_allTerms {s : Select} {t : OrderTerm}
    (h : t ∈ s.renewed.allTerms s.gathered) : s.Offers t.expr := by
  have kept : ∃ u ∈ OrderTerm.withoutRepeats s.renewed.ordering ++ s.gathered,
      t.expr = u.expr := by
    unfold allTerms at h
    split at h
    · obtain ⟨u, hu, rfl⟩ := List.mem_map.1 h
      exact ⟨u, OrderTerm.mem_of_mem_withoutRepeats hu, rfl⟩
    · exact ⟨t, OrderTerm.mem_of_mem_withoutRepeats h, rfl⟩
  obtain ⟨u, hu, htu⟩ := kept
  rcases List.mem_append.1 hu with hu | hu
  · obtain ⟨o, ho, rfl⟩ := List.mem_map.1 (OrderTerm.mem_of_mem_withoutRepeats hu)
    exact .inl ⟨o, ho, htu⟩
  · exact .inr ⟨u, hu, htu⟩

/-- The terms that a select keeps order by what its ordering orders by. -/
theorem exists_of_mem_ownTerms {s : Select} {t : OrderTerm} (h : t ∈ s.ownTerms) :
    ∃ u ∈ s.ordering, t.expr = u.expr := by
  unfold ownTerms at h
  split at h
  · obtain ⟨u, hu, rfl⟩ := List.mem_map.1 h
    exact ⟨u, OrderTerm.mem_of_mem_withoutRepeats hu, rfl⟩
  · exact ⟨t, OrderTerm.mem_of_mem_withoutRepeats h, rfl⟩

theorem offers_of_mem_ownTerms {s : Select} {t : OrderTerm} (h : t ∈ s.renewed.ownTerms) :
    s.Offers t.expr := by
  obtain ⟨u, hu, htu⟩ := exists_of_mem_ownTerms h
  obtain ⟨o, ho, rfl⟩ := List.mem_map.1 hu
  exact .inl ⟨o, ho, htu⟩

/-- What a select passes on it offers. -/
theorem offers_of_mem_passed {placement : Placement} {s : Select} {t : OrderTerm}
    (h : t ∈ (s.settled placement).2) : s.Offers t.expr := by
  rw [settled_eq] at h
  unfold passed at h
  split at h
  · exact offers_of_mem_allTerms h
  · simp at h

/-- What a settled select orders by it offers. -/
theorem offers_of_mem_ordering {placement : Placement} {s : Select} {t : OrderTerm}
    (h : t ∈ (s.settled placement).1.ordering) : s.Offers t.expr := by
  rw [settled_eq] at h
  simp only [arranged] at h
  split at h
  · exact offers_of_mem_allTerms h
  · split at h
    · exact offers_of_mem_ownTerms h
    · simp at h

/-- The exposed select is the arranged one with columns for terms that it offers. -/
theorem exposed_eq (placement : Placement) (s : Select) :
    ∃ cs, s.exposed placement = (s.renewed.arranged placement s.gathered).adding cs ∧
      ∀ c ∈ cs, ∃ t ∈ (s.settled placement).2, c.expr = t.expr := by
  obtain ⟨cs, hcs, hexpr⟩ := (s.settled placement).1.exposing_adds (s.settled placement).2
  refine ⟨cs, ?_, hexpr⟩
  rw [exposed, hcs, settled_eq]

/-- Exposing terms leaves the filter. -/
@[simp] theorem filter_exposed (placement : Placement) (s : Select) :
    (s.exposed placement).filter = s.filter.map Expr.settled := by
  obtain ⟨cs, hcs, -⟩ := s.exposed_eq placement
  rw [hcs]
  rfl

/-- Every clause of a settled select other than its filter is a settled one or a gathered term. -/
theorem mem_others_exposed {placement : Placement} {s : Select} {e : Expr}
    (h : e ∈ (s.exposed placement).others) :
    (∃ e₀ ∈ s.others, e = e₀.settled) ∨ ∃ t ∈ s.gathered, e = t.expr := by
  have own : ∀ e, e ∈ s.others ↔ (((∃ c ∈ s.columns, c.expr = e) ∨ ∃ t ∈ s.ordering, t.expr = e) ∨
      e ∈ s.grouping) ∨ e ∈ s.clustering := fun e => by
    simp only [others, List.mem_append, List.mem_map]
  have offered : ∀ {e}, s.Offers e →
      (∃ e₀ ∈ s.others, e = e₀.settled) ∨ ∃ t ∈ s.gathered, e = t.expr := by
    rintro e (⟨t, ht, he⟩ | gathered)
    · exact .inl ⟨t.expr, (own _).2 (.inl (.inl (.inr ⟨t, ht, rfl⟩))), he⟩
    · exact .inr gathered
  obtain ⟨cs, hcs, hexpr⟩ := s.exposed_eq placement
  have ordering : (s.exposed placement).ordering = (s.settled placement).1.ordering := by
    rw [hcs, settled_eq]
    rfl
  simp only [others, List.mem_append, List.mem_map, ordering] at h
  rw [hcs] at h
  simp only [adding, arranged, renewed, List.mem_append, List.mem_map] at h
  rcases h with ((⟨c, hc | hc, rfl⟩ | ⟨t, ht, rfl⟩) | ⟨e₀, he₀, rfl⟩) | ⟨e₀, he₀, rfl⟩
  · obtain ⟨c₀, hc₀, rfl⟩ := hc
    exact .inl ⟨c₀.expr, (own _).2 (.inl (.inl (.inl ⟨c₀, hc₀, rfl⟩))), rfl⟩
  · obtain ⟨t, ht, hct⟩ := hexpr c hc
    rw [hct]
    exact offered (offers_of_mem_passed ht)
  · exact offered (offers_of_mem_ordering ht)
  · exact .inl ⟨e₀, (own _).2 (.inl (.inr he₀)), rfl⟩
  · exact .inl ⟨e₀, (own _).2 (.inr he₀), rfl⟩

/-- **Every clause of a settled select is a settled clause or a gathered term.** -/
theorem mem_clauses_exposed {placement : Placement} {s : Select} {e : Expr}
    (h : e ∈ (s.exposed placement).clauses) :
    (∃ e₀ ∈ s.clauses, e = e₀.settled) ∨ ∃ t ∈ s.gathered, e = t.expr := by
  rcases mem_clauses_iff.1 h with h | h
  · rcases mem_others_exposed h with ⟨e₀, he₀, he⟩ | gathered
    · exact .inl ⟨e₀, mem_clauses_iff.2 (.inl he₀), he⟩
    · exact .inr gathered
  · rw [filter_exposed] at h
    obtain ⟨e₀, he₀, rfl⟩ := Option.map_eq_some_iff.1 h
    exact .inl ⟨e₀, mem_clauses_of_filter he₀, rfl⟩

/-- Columns that are settled stay as they are. -/
theorem map_settled_columns {cs : List Column} (h : ∀ c ∈ cs, c.expr.settled = c.expr) :
    cs.map Column.settled = cs := by
  refine (List.map_congr_left fun c hc => ?_).trans (List.map_id _)
  cases c
  simp only [Column.settled, id, h _ hc]

theorem map_settled_terms {ts : List OrderTerm} (h : ∀ t ∈ ts, t.expr.settled = t.expr) :
    ts.map OrderTerm.settled = ts := by
  refine (List.map_congr_left fun t ht => ?_).trans (List.map_id _)
  cases t
  simp only [OrderTerm.settled, id, h _ ht]

/-- A select whose clauses are settled is renewed in its source alone. -/
theorem renewed_eq_of_clauses {s : Select} (clauses : ∀ e ∈ s.clauses, e.settled = e) :
    s.renewed = { s with source := s.source.map fun source => source.settled.1 } := by
  have columns := map_settled_columns fun c hc => clauses _ (mem_clauses_of_columns hc)
  have ordering := map_settled_terms fun t ht => clauses _ (mem_clauses_of_ordering ht)
  have filter : s.filter.map Expr.settled = s.filter := by
    cases h : s.filter with
    | none => rfl
    | some e => rw [Option.map_some, clauses e (mem_clauses_of_filter h)]
  have grouping : s.grouping.map Expr.settled = s.grouping :=
    (List.map_congr_left fun e he => clauses e (mem_clauses_of_grouping he)).trans (List.map_id _)
  have clustering : s.clustering.map Expr.settled = s.clustering :=
    (List.map_congr_left fun e he => clauses e (mem_clauses_of_clustering he)).trans
      (List.map_id _)
  rw [renewed, columns, filter, ordering, grouping, clustering]

/-- Nothing is exposed where nothing is passed on. -/
theorem exposed_of_ne_source {placement : Placement} (h : placement ≠ .source) (s : Select) :
    s.exposed placement = (s.settled placement).1 := by
  have none : (s.settled placement).2 = [] := by
    rw [settled_eq]
    simp [passed, passesOn, h]
  rw [exposed, none, exposing]

/-- The source of an exposed select is the settled source. -/
@[simp] theorem source_exposed (placement : Placement) (s : Select) :
    (s.exposed placement).source = s.source.map fun source => source.settled.1 := by
  obtain ⟨cs, hcs, -⟩ := s.exposed_eq placement
  rw [hcs]
  rfl

/-- A settled select declares its columns under their names, and may declare more. -/
theorem columnNames_exposed (placement : Placement) (s : Select) :
    ∃ names, (s.exposed placement).columnNames = s.columnNames ++ names := by
  obtain ⟨cs, hcs, -⟩ := s.exposed_eq placement
  refine ⟨cs.map (·.name), ?_⟩
  simp only [hcs, columnNames, adding, arranged, renewed, List.map_append, List.map_map]
  rfl

@[simp] theorem label_exposed (placement : Placement) (s : Select) :
    (s.exposed placement).label = s.label := by
  obtain ⟨cs, hcs, -⟩ := s.exposed_eq placement
  rw [hcs]
  rfl

end Select

/-! ## What becomes of a source -/

namespace Source

/-- A subquery that is settled shows the terms that it passes on, and hands them on as references to
its columns. -/
theorem settled_subquery (q : Select) :
    (Source.subquery q).settled = (.subquery (q.exposed .source), q.handed .source) := by
  rw [Source.settled]
  rfl

/-- The subqueries of a settled source are the exposed ones. -/
theorem selects_settled (source : Source) :
    source.settled.1.selects = source.selects.map (Select.exposed .source) := by
  induction source using Source.join_induction with
  | table => rfl
  | subquery query => rw [settled_subquery]; rfl
  | join kind left right condition ihl ihr =>
    simp only [Source.settled, Source.selects, ihl, ihr, List.map_append]

/-- The conditions of a settled source are the settled ones. -/
theorem conditions_settled (source : Source) :
    source.settled.1.conditions = source.conditions.map Expr.settled := by
  induction source using Source.join_induction with
  | table => rfl
  | subquery query => rw [settled_subquery]; rfl
  | join kind left right condition ihl ihr =>
    simp only [Source.settled, Source.conditions, ihl, ihr, List.map_append,
      Expr.settledOption_eq, Option.toList_map]

/-- A gathered term refers to a column of a subquery. -/
theorem expr_of_mem_settled {source : Source} {t : OrderTerm} (h : t ∈ source.settled.2) :
    ∃ label name, t.expr = .column label name := by
  induction source using Source.join_induction with
  | table => simp [Source.settled] at h
  | subquery query =>
    rw [settled_subquery] at h
    obtain ⟨name, -, he⟩ := Select.expr_of_mem_exposing h
    exact ⟨_, name, he⟩
  | join kind left right condition ihl ihr =>
    simp only [Source.settled, List.mem_append] at h
    rcases h with h | h
    · exact ihl h
    · exact ihr h

end Source

/-- What a source passes on are references. -/
theorem Select.expr_of_mem_gathered {s : Select} {t : OrderTerm} (h : t ∈ s.gathered) :
    ∃ label name, t.expr = .column label name := by
  obtain ⟨source, -, ht⟩ := List.mem_flatMap.1 h
  exact Source.expr_of_mem_settled ht

namespace Source

/-- Settling changes no label of a source. -/
theorem labels_frame_settled (source : Source) :
    source.settled.1.frame.map Prod.fst = source.frame.map Prod.fst := by
  induction source using Source.join_induction with
  | table => rfl
  | subquery query =>
    rw [settled_subquery]
    simp [Source.frame]
  | join kind left right condition ihl ihr =>
    simp only [Source.settled, Source.frame, List.map_append, ihl, ihr]

/-- A settled source shows at least what it showed. -/
theorem frame_grows (source : Source) : source.frame.Grows source.settled.1.frame := by
  induction source using Source.join_induction with
  | table => exact Frame.Grows.refl _
  | subquery query =>
    obtain ⟨names, hnames⟩ := query.columnNames_exposed .source
    rw [settled_subquery]
    refine .cons ⟨(query.label_exposed .source).symm, .columns ?_⟩ .nil
    rw [hnames]
    exact List.subset_append_left _ _
  | join kind left right condition ihl ihr =>
    simp only [Source.settled, Source.frame]
    exact ihr.append ihl

/-- The column that a gathered term refers to is one that the settled source shows. -/
theorem mem_frame_of_mem_settled {source : Source} {t : OrderTerm} (h : t ∈ source.settled.2) :
    ∃ label names, (label, .columns names) ∈ source.settled.1.frame ∧
      ∃ name ∈ names, t.expr = .column label name := by
  induction source using Source.join_induction with
  | table => simp [Source.settled] at h
  | subquery query =>
    rw [settled_subquery] at h ⊢
    obtain ⟨name, hname, he⟩ := Select.expr_of_mem_exposing h
    refine ⟨_, _, List.mem_singleton_self _, name, hname, ?_⟩
    rw [he, Select.label_exposed, Select.settled_eq]
    rfl
  | join kind left right condition ihl ihr =>
    simp only [Source.settled, List.mem_append] at h
    simp only [Source.settled, Source.frame, List.mem_append]
    rcases h with h | h
    · obtain ⟨label, names, hmem, hname⟩ := ihl h
      exact ⟨label, names, .inr hmem, hname⟩
    · obtain ⟨label, names, hmem, hname⟩ := ihr h
      exact ⟨label, names, .inl hmem, hname⟩

/-- A condition with its labels is a condition. -/
theorem mem_conditions_of_framed {source : Source} {c : Frame × Expr}
    (h : c ∈ source.framedConditions) : c.2 ∈ source.conditions := by
  induction source using Source.join_induction with
  | table => simp [framedConditions] at h
  | subquery => simp [framedConditions] at h
  | join kind left right condition ihl ihr =>
    simp only [framedConditions, Source.conditions, List.mem_append, List.mem_map] at h ⊢
    rcases h with (h | h) | ⟨e, he, rfl⟩
    · exact .inl (.inl (ihl h))
    · exact .inl (.inr (ihr h))
    · exact .inr he

end Source

/-- The settled source of a select shows all that the source did, and the columns that were
exposed. -/
theorem Select.frame_grows (s : Select) : s.frame.Grows s.renewed.frame := by
  unfold Select.frame Select.renewed
  cases s.source with
  | none => exact Frame.Grows.refl _
  | some source => exact source.frame_grows

/-! ## Queries -/

/-- **The pass on a query** succeeds if its select is resolvable, and leaves the exposed select. -/
theorem Projection.placeOrderings_eq_ok_iff {p p' : Projection} :
    p.placeOrderings.result = .ok p' ↔
      p.select.Resolvable [] ∧ p' = { p with select := p.select.exposed .outermost } := by
  rw [Select.exposed_of_ne_source (by decide)]
  exact Traced.result_bind_pure_eq_ok_iff (p.select.placeOrderings_eq_ok_iff [] .outermost)
    (fun r => { p with select := r.1 }) p'

/-- The select of a query declares no label twice if the query does not. -/
theorem Projection.nodup_select_labels {p : Projection} (h : p.labels.Nodup) :
    p.select.labels.Nodup := by
  rw [Projection.labels, Projection.nodes, List.filterMap_append] at h
  exact (List.nodup_append.1 h).1

end HiveQuery
