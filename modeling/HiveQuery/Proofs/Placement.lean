import HiveQuery.Proofs.Lifting
import HiveQuery.Proofs.Names
import HiveQuery.Proofs.Tidy
/-!
# Placing orderings in a valid tree

On a valid tree whose join conditions hold no subqueries the pass does not fail: a scope only grows
when the sources below it are settled, so what resolved before resolves where the pass looks it up
(`Select.resolvable`). What it returns for a valid tree is valid up to labels that it may declare
twice (`Select.check_exposed`); for a tidy tree it is tidy again and declares the same labels in the
same order (`Projection.Sound.placeOrderings`).
-/

namespace HiveQuery

/-! ## The pass succeeds -/

/-- **A valid select can be settled**, also in a scope that has grown. -/
theorem Select.resolvable {s : Select}
    (conditions : s.Everywhere fun q => ∀ e ∈ q.conditions, e.subqueries = [])
    {scope scope' : Scope} (check : s.check scope = .ok ()) (grows : scope.Grows scope') :
    s.Resolvable scope' := by
  induction s using Select.children_induction generalizing scope scope' with
  | step s ih =>
    obtain ⟨here, below⟩ := Select.everywhere_iff.1 conditions
    have checks := Select.check_eq_ok_iff.1 check
    have inner : Scope.Grows (s.frame :: scope) (s.renewed.frame :: scope') :=
      .cons s.frame_grows grows
    refine ⟨fun q hq => ?_, ?_, fun e he q hq => ?_, fun t ht r hr => ?_⟩
    · have child : q ∈ s.children := List.mem_append_left _ (List.mem_append_left _ hq)
      exact ih q child (below q child) (checks.sources q hq) grows
    · intro source hs c hc q hq
      have hmem : c.2 ∈ s.conditions :=
        List.mem_flatMap_of_mem (Option.mem_toList.2 hs) (Source.mem_conditions_of_framed hc)
      rw [here c.2 hmem] at hq
      cases hq
    · have child : q ∈ s.children := List.mem_append_right _ (List.mem_flatMap_of_mem he hq)
      exact ih q child (below q child) ((checks.clauses e he).queries q hq) inner
    · exact inner.error?_eq_none ((checks.clauses _ (mem_clauses_of_ordering ht)).resolves r hr)

/-! ## What it returns -/

/-- Settling a source leaves its conditions within the sides that they join. -/
theorem Source.JoinsWithin.settled {labels : List String} {source : Source}
    (h : source.JoinsWithin labels) : source.settled.1.JoinsWithin labels := by
  induction source using Source.join_induction with
  | table => exact h
  | subquery query =>
    rw [Source.settled_subquery]
    trivial
  | join kind left right condition ihl ihr =>
    obtain ⟨hl, hr, here⟩ := h
    rw [Source.settled]
    refine ⟨ihl hl, ihr hr, fun e he r hr => ?_⟩
    rw [Expr.settledOption_eq] at he
    obtain ⟨e₀, he₀, rfl⟩ := Option.map_eq_some_iff.1 he
    rw [Expr.localRefs_settled] at hr
    simpa only [Source.frame, List.map_append, Source.labels_frame_settled] using here e₀ he₀ r hr

namespace Select

variable {s : Select}

@[simp] theorem conditions_exposed (placement : Placement) (s : Select) :
    (s.exposed placement).conditions = s.conditions.map Expr.settled := by
  unfold conditions
  rw [source_exposed]
  cases s.source with
  | none => rfl
  | some source => simpa using source.conditions_settled

/-- The sources of an exposed select are the exposed sources. -/
@[simp] theorem sources_exposed (placement : Placement) (s : Select) :
    (s.exposed placement).sources = s.sources.map (exposed .source) := by
  unfold sources
  rw [source_exposed]
  cases s.source with
  | none => rfl
  | some source => simpa using source.selects_settled

/-- The subqueries of a settled expression. -/
theorem mem_subqueries_settled {e : Expr} {q : Select} :
    q ∈ e.settled.subqueries ↔ ∃ q₀ ∈ e.subqueries, q = q₀.exposed .expression := by
  rw [Expr.subqueries_settled, List.mem_map]
  simp only [exposed_of_ne_source (by decide : Placement.expression ≠ .source), eq_comm]

/-- What is gathered holds no subquery. -/
theorem subqueries_of_mem_gathered {t : OrderTerm} (h : t ∈ s.gathered) :
    t.expr.subqueries = [] := by
  obtain ⟨label, name, he⟩ := expr_of_mem_gathered h
  rw [he]
  rfl

/-- What a settled select holds is settled, and is not the outermost. -/
theorem exists_of_mem_children_exposed {placement : Placement} {q : Select}
    (h : q ∈ (s.exposed placement).children) :
    ∃ q₀ ∈ s.children, ∃ placement, placement ≠ .outermost ∧ q = q₀.exposed placement := by
  unfold children at h
  simp only [List.mem_append, List.mem_flatMap, sources_exposed, conditions_exposed,
    List.mem_map] at h
  rcases h with (⟨q₀, hq₀, rfl⟩ | ⟨_, ⟨e, he, rfl⟩, hq⟩) | ⟨e, he, hq⟩
  · exact ⟨q₀, List.mem_append_left _ (List.mem_append_left _ hq₀), .source, by decide,
      rfl⟩
  · obtain ⟨q₀, hq₀, rfl⟩ := mem_subqueries_settled.1 hq
    exact ⟨q₀, List.mem_append_left _ (List.mem_append_right _ (List.mem_flatMap_of_mem he hq₀)),
      .expression, by decide, rfl⟩
  · rcases mem_clauses_exposed he with ⟨e₀, he₀, rfl⟩ | ⟨t, ht, rfl⟩
    · obtain ⟨q₀, hq₀, rfl⟩ := mem_subqueries_settled.1 hq
      exact ⟨q₀, List.mem_append_right _ (List.mem_flatMap_of_mem he₀ hq₀), .expression, by decide,
        rfl⟩
    · rw [subqueries_of_mem_gathered ht] at hq
      cases hq

/-- What an exposed select holds are exposed selects. -/
theorem Holds.exists_of_exposed {placement : Placement} {q : Select}
    (h : (s.exposed placement).Holds q) :
    ∃ q₀ placement, s.Holds q₀ ∧ q = q₀.exposed placement := by
  induction s using children_induction generalizing placement with
  | step s ih =>
    cases h with
    | self => exact ⟨s, placement, .self s, rfl⟩
    | child hc hq =>
      obtain ⟨c₀, hc₀, placement', -, rfl⟩ := exists_of_mem_children_exposed hc
      obtain ⟨q₀, placement'', holds, rfl⟩ := ih c₀ hc₀ hq
      exact ⟨q₀, placement'', .child hc₀ holds, rfl⟩

/-- A tidy select stays tidy: what is moved into its columns are references and terms without
subqueries. -/
theorem Tidy.exposed (h : s.Tidy) (placement : Placement) : (s.exposed placement).Tidy := by
  refine ⟨fun e he => ?_, fun e he => ?_, fun source hs => ?_⟩
  · rcases mem_others_exposed he with ⟨e₀, he₀, rfl⟩ | ⟨t, ht, rfl⟩
    · rw [Expr.subqueries_settled, h.others e₀ he₀, List.map_nil]
    · exact subqueries_of_mem_gathered ht
  · rw [conditions_exposed] at he
    obtain ⟨e₀, he₀, rfl⟩ := List.mem_map.1 he
    rw [Expr.subqueries_settled, h.conditions e₀ he₀, List.map_nil]
  · rw [source_exposed] at hs
    obtain ⟨source₀, hs₀, rfl⟩ := Option.map_eq_some_iff.1 hs
    rw [Source.labels_frame_settled]
    exact (h.joins source₀ hs₀).settled

theorem everywhere_tidy_exposed (h : s.Everywhere Tidy) (placement : Placement) :
    (s.exposed placement).Everywhere Tidy := by
  intro q hq
  obtain ⟨q₀, placement', holds, rfl⟩ := hq.exists_of_exposed
  exact (h q₀ holds).exposed placement'

end Select

/-! ### Labels -/

/-- A source declares what it did, if its subqueries do and its conditions hold none. -/
theorem Source.labels_settled {source : Source}
    (selects : ∀ q ∈ source.selects, (q.exposed .source).labels = q.labels)
    (conditions : ∀ e ∈ source.conditions, e.subqueries = []) :
    source.settled.1.labels = source.labels := by
  induction source using Source.join_induction with
  | table => rfl
  | subquery query =>
    rw [Source.settled_subquery, Source.labels_subquery, Source.labels_subquery]
    exact selects query (List.mem_singleton_self _)
  | join kind left right condition ihl ihr =>
    simp only [Source.selects, Source.conditions, List.forall_mem_append] at selects conditions
    have settled : ∀ e ∈ (condition.map Expr.settled).toList, e.subqueries = [] := by
      intro e he
      obtain ⟨e₀, he₀, rfl⟩ := Option.map_eq_some_iff.1 (Option.mem_toList.1 he)
      rw [Expr.subqueries_settled, conditions.2 e₀ (Option.mem_toList.2 he₀), List.map_nil]
    rw [Source.settled, Source.labels_join, Source.labels_join, ihl selects.1 conditions.1.1,
      ihr selects.2 conditions.1.2, Expr.settledOption_eq, Expr.flatMap_labels_eq_nil settled,
      Expr.flatMap_labels_eq_nil conditions.2]

/-- **A tidy select declares the same labels when it is settled.** -/
theorem Select.labels_exposed {s : Select} (h : s.Everywhere Tidy) (placement : Placement) :
    (s.exposed placement).labels = s.labels := by
  induction s using Select.children_induction generalizing placement with
  | step s ih =>
    obtain ⟨tidy, below⟩ := Select.everywhere_iff.1 h
    have child := fun c hc placement => ih c hc (below c hc) placement
    have source : (s.exposed placement).source.toList.flatMap Source.labels =
        s.source.toList.flatMap Source.labels := by
      rw [source_exposed]
      cases hs : s.source with
      | none => rfl
      | some source =>
        simp only [Option.map_some, Option.toList_some, List.flatMap_singleton]
        refine Source.labels_settled (fun q hq => child q ?_ .source) fun e he => ?_
        · exact tidy.mem_children_iff.2 (.inl (by simpa [sources, hs] using hq))
        · exact tidy.conditions e (by simpa [Select.conditions, hs] using he)
    have filter : (s.exposed placement).filter.toList.flatMap Expr.labels =
        s.filter.toList.flatMap Expr.labels := by
      rw [filter_exposed]
      cases hf : s.filter with
      | none => rfl
      | some e =>
        simp only [Option.map_some, Option.toList_some, List.flatMap_singleton]
        rw [Expr.labels_eq_flatMap, Expr.labels_eq_flatMap, Expr.subqueries_settled,
          List.flatMap_map]
        refine List.flatMap_congr fun q hq => ?_
        rw [← exposed_of_ne_source (by decide : Placement.expression ≠ .source)]
        exact child q (tidy.mem_children_iff.2 (.inr ⟨e, hf, hq⟩)) .expression
    rw [(tidy.exposed placement).labels_eq, tidy.labels_eq, label_exposed, source, filter]

/-! ### Validity -/

namespace Select

variable {s : Select}

/-- Exposing terms leaves the source as it was settled. -/
theorem frame_exposed (placement : Placement) (s : Select) :
    (s.exposed placement).frame = s.renewed.frame := by
  rw [frame, source_exposed]
  rfl

/-- A select that no other one reads is given no columns. -/
theorem columnNames_exposed_of_ne_source {placement : Placement} (h : placement ≠ .source)
    (s : Select) : (s.exposed placement).columnNames = s.columnNames := by
  rw [exposed_of_ne_source h, settled_eq]
  simp only [columnNames, arranged, renewed, List.map_map]
  rfl

/-- A column that is added takes a name that is free. -/
theorem nodup_columnNames_exposed (names : s.columnNames.Nodup) (placement : Placement) :
    (s.exposed placement).columnNames.Nodup := by
  have settled : (s.settled placement).1.columnNames = s.columnNames := by
    rw [settled_eq]
    simp only [columnNames, arranged, renewed, List.map_map]
    rfl
  exact (exposing_names (settled ▸ names) _).1

/-- A gathered term resolves where the clauses of the select stand. -/
theorem resolves_of_mem_gathered (labels : s.labels.Nodup) {t : OrderTerm} (h : t ∈ s.gathered)
    (scope : Scope) : ∀ r ∈ t.expr.localRefs, Scope.error? (s.renewed.frame :: scope) r = none := by
  obtain ⟨source, hs, ht⟩ := List.mem_flatMap.1 h
  have hs := Option.mem_toList.1 hs
  have frame : s.renewed.frame = source.settled.1.frame := by
    simp [Select.frame, renewed, Option.mem_def.1 hs, Source.frameOption]
  obtain ⟨label, names, hmem, name, hname, he⟩ := Source.mem_frame_of_mem_settled ht
  have nodup : (source.settled.1.frame.map Prod.fst).Nodup := by
    rw [Source.labels_frame_settled]
    exact nodup_frame_labels labels hs
  intro r hr
  rw [he] at hr
  obtain rfl := List.mem_singleton.1 hr
  rw [frame]
  exact Scope.error?_eq_none_of_mem nodup hmem hname

/-- **A valid select is valid when it is settled**, also in a scope that has grown. -/
theorem check_exposed (labels : s.labels.Nodup) {scope scope' : Scope}
    (check : s.check scope = .ok ()) (grows : scope.Grows scope') (placement : Placement) :
    (s.exposed placement).check scope' = .ok () := by
  induction s using children_induction generalizing scope scope' placement with
  | step s ih =>
    have checks := check_eq_ok_iff.1 check
    have inner : Scope.Grows (s.frame :: scope) (s.renewed.frame :: scope') :=
      .cons s.frame_grows grows
    have child := fun c hc => @ih c hc (labels.sublist (labels_sublist_of_mem_children hc))
    have settled : ∀ e₀, (∀ q ∈ e₀.subqueries, q ∈ s.children) →
        Scope.Accepts (s.frame :: scope) e₀ →
          Scope.Accepts (s.renewed.frame :: scope') e₀.settled := by
      intro e₀ below accepted
      refine ⟨fun r hr => ?_, fun q hq => ?_⟩
      · rw [Expr.localRefs_settled] at hr
        exact inner.error?_eq_none (accepted.resolves r hr)
      · obtain ⟨q₀, hq₀, rfl⟩ := mem_subqueries_settled.1 hq
        exact child q₀ (below q₀ hq₀) (accepted.queries q₀ hq₀) inner .expression
    refine check_eq_ok_iff.2 ⟨nodup_columnNames_exposed checks.names placement, ?_, ?_, ?_⟩
    · intro q hq
      rw [sources_exposed] at hq
      obtain ⟨q₀, hq₀, rfl⟩ := List.mem_map.1 hq
      exact child q₀ (List.mem_append_left _ (List.mem_append_left _ hq₀)) (checks.sources q₀ hq₀)
        grows .source
    · intro e he
      rw [frame_exposed]
      rcases mem_clauses_exposed he with ⟨e₀, he₀, rfl⟩ | ⟨t, ht, rfl⟩
      · exact settled e₀ (fun q hq => List.mem_append_right _ (List.mem_flatMap_of_mem he₀ hq))
          (checks.clauses e₀ he₀)
      · refine ⟨resolves_of_mem_gathered labels ht scope', fun q hq => ?_⟩
        rw [subqueries_of_mem_gathered ht] at hq
        cases hq
    · intro e he
      rw [frame_exposed]
      rw [conditions_exposed] at he
      obtain ⟨e₀, he₀, rfl⟩ := List.mem_map.1 he
      refine settled e₀ (fun q hq => ?_) (checks.conditions e₀ he₀)
      exact List.mem_append_left _ (List.mem_append_right _ (List.mem_flatMap_of_mem he₀ hq))

end Select

/-- A select that no other one reads shows the same columns when it is settled. -/
theorem Source.frame_subquery_exposed {placement : Placement} (h : placement ≠ .source)
    (s : Select) : (Source.subquery (s.exposed placement)).frame = (Source.subquery s).frame := by
  rw [Source.frame, Source.frame, Select.columnNames_exposed_of_ne_source h, Select.label_exposed]

/-! ## Queries -/

namespace Projection

/-- **Placing the orderings of a sound query succeeds and gives a sound query**, whose select has
the label and the column names that it had. -/
theorem Sound.placeOrderings {p : Projection} (h : p.Sound) :
    ∃ p', p.placeOrderings.result = .ok p' ∧ p'.Sound ∧
      p' = { p with select := p.select.exposed .outermost } := by
  have conditions : p.select.Everywhere fun q => ∀ e ∈ q.conditions, e.subqueries = [] :=
    fun q hq => (h.tidy q hq).conditions
  have labels := h.nodup_labels
  have resolvable := Select.resolvable conditions h.checks.select .nil
  refine ⟨_, placeOrderings_eq_ok_iff.2 ⟨resolvable, rfl⟩, ⟨⟨?_, ?_, ?_⟩, ?_, h.projector⟩, rfl⟩
  · rw [Projection.labels_eq, Expr.flatMap_labels_eq_nil h.projector, List.append_nil,
      Select.labels_exposed h.tidy]
    exact labels
  · exact Select.check_exposed labels h.checks.select .nil .outermost
  · rw [Source.frame_subquery_exposed (by decide)]
    exact h.checks.projector
  · exact Select.everywhere_tidy_exposed h.tidy .outermost

end Projection

end HiveQuery
