import HiveQuery.Proofs.ConditionScope
import HiveQuery.Proofs.PlacedTrees
import Mathlib
/-!
# Placing orderings and semi joins

The right side of a left semi join decides which rows of the left side there are, and can be seen in
the condition of the join alone. Placing orderings gathers terms from both sides of every join,
whatever its kind, and so a clause may come to refer across a semi join where none did
(`Statement.placeOrderings_crosses_semiJoin`). `Statement.placeOrderings_sparesSemiJoins_iff` says
when this happens: a select that is left in place takes or passes on the terms of its source, and a
select to the right of a semi join in there hands terms up.
-/

namespace HiveQuery

/-! ## The right sides of semi joins -/

namespace Source

/-- The right sides of the left semi joins of a source, those within the sides of other joins
included. -/
def semiRights : Source → List Source
  | table .. | subquery _ => []
  | join kind left right _ =>
    left.semiRights ++ right.semiRights ++ if kind = .leftSemi then [right] else []

variable {source right : Source} {t : OrderTerm}

/-- The right sides of the semi joins in a join are those within its sides, and its own right side
if it is a semi join. -/
theorem mem_semiRights_join {kind : JoinKind} {left side : Source} {condition : Option Expr} :
    right ∈ (join kind left side condition).semiRights ↔
      right ∈ left.semiRights ∨ right ∈ side.semiRights ∨ kind = .leftSemi ∧ right = side := by
  rw [semiRights, List.mem_append, List.mem_append, or_assoc]
  split
  · next semi => simp [semi]
  · next other => simp [other]

/-- Settling a source settles the right sides of its semi joins. -/
theorem semiRights_settled (source : Source) :
    source.settled.1.semiRights = source.semiRights.map fun right => right.settled.1 := by
  induction source using join_induction with
  | table => rfl
  | subquery query =>
    rw [settled_subquery]
    rfl
  | join kind left right condition ihl ihr =>
    rw [settled, semiRights, semiRights, ihl, ihr, List.map_append, List.map_append]
    split <;> rfl

/-- The labels to the right of a semi join are among those of the source, as it shows them. -/
theorem frame_labels_sublist_of_semiRights (h : right ∈ source.semiRights) :
    (right.frame.map Prod.fst).Sublist (source.frame.map Prod.fst) := by
  induction source using join_induction with
  | table | subquery => cases h
  | join kind left side condition ihl ihr =>
    rw [frame, List.map_append]
    rcases mem_semiRights_join.1 h with h | h | ⟨-, rfl⟩
    · exact (ihl h).trans (List.sublist_append_right _ _)
    · exact (ihr h).trans (List.sublist_append_left _ _)
    · exact List.sublist_append_left _ _

/-- The terms that the right side of a semi join passes on are passed on by the source. -/
theorem settled_subset_of_semiRights (h : right ∈ source.semiRights) :
    right.settled.2 ⊆ source.settled.2 := by
  induction source using join_induction with
  | table | subquery => cases h
  | join kind left side condition ihl ihr =>
    rw [settled]
    rcases mem_semiRights_join.1 h with h | h | ⟨-, rfl⟩
    · exact List.subset_append_of_subset_left _ (ihl h)
    · exact List.subset_append_of_subset_right _ (ihr h)
    · exact List.subset_append_right _ _

/-- A term refers to a label of the source that it is gathered from. -/
theorem exists_label_of_mem_settled (h : t ∈ source.settled.2) :
    ∃ label ∈ source.frame.map Prod.fst, ∃ name, t.expr = .column label name := by
  obtain ⟨label, names, shown, name, -, he⟩ := mem_frame_of_mem_settled h
  have declared := List.mem_map_of_mem (f := Prod.fst) shown
  rw [labels_frame_settled] at declared
  exact ⟨label, declared, name, he⟩

/-- **A term that refers across a semi join comes from there.** -/
theorem mem_settled_of_semiRights (labels : (source.frame.map Prod.fst).Nodup)
    (hr : right ∈ source.semiRights) (ht : t ∈ source.settled.2) {label name : String}
    (he : t.expr = .column label name) (across : label ∈ right.frame.map Prod.fst) :
    t ∈ right.settled.2 := by
  induction source using join_induction with
  | table | subquery => cases hr
  | join kind left side condition ihl ihr =>
    rw [frame, List.map_append, List.nodup_append'] at labels
    obtain ⟨ofSide, ofLeft, apart⟩ := labels
    have refers : ∀ {source : Source}, t ∈ source.settled.2 →
        label ∈ source.frame.map Prod.fst := by
      intro source ht
      obtain ⟨label', declared, name', he'⟩ := exists_label_of_mem_settled ht
      cases he.symm.trans he'
      exact declared
    rw [settled, List.mem_append] at ht
    -- the sides declare different labels, so the term comes from the side that `right` is in
    rcases mem_semiRights_join.1 hr with hr | hr | ⟨-, rfl⟩
    · have there := (frame_labels_sublist_of_semiRights hr).subset across
      rcases ht with ht | ht
      · exact ihl ofLeft hr ht
      · exact absurd there (apart (refers ht))
    · have there := (frame_labels_sublist_of_semiRights hr).subset across
      rcases ht with ht | ht
      · exact absurd (refers ht) (apart there)
      · exact ihr ofSide hr ht
    · rcases ht with ht | ht
      · exact absurd (refers ht) (apart across)
      · exact ht

end Source

/-! ## Terms that are handed up -/

/-- Dropping repeats empties no list. -/
theorem OrderTerm.withoutRepeats_eq_nil_iff {ts : List OrderTerm} :
    withoutRepeats ts = [] ↔ ts = [] := by
  refine ⟨fun none => List.eq_nil_iff_forall_not_mem.2 fun t ht => ?_, fun none => by rw [none]; rfl⟩
  obtain ⟨u, hu, -⟩ := exists_labels_withoutRepeats ht
  rw [none] at hu
  cases hu

namespace Select

variable {s c q : Select} {placement : Placement}

/-- **A select hands terms up** to the one that reads it: it is not distinct, grouped or
aggregating, and it is ordered itself or a select of its source hands terms up. -/
inductive Hands : Select → Prop
  | own {s : Select} (plain : s.collapses = false) (ordered : s.ordering ≠ []) : Hands s
  | read {s c : Select} (plain : s.collapses = false) (hc : c ∈ s.sources) (h : Hands c) : Hands s

/-- A select that hands terms up is not distinct, grouped or aggregating. -/
theorem Hands.plain (h : s.Hands) : s.collapses = false := by
  cases h <;> assumption

/-- Every term that is exposed is passed on as a reference. -/
theorem exposing_snd_eq_nil_iff (s : Select) (ts : List OrderTerm) :
    (s.exposing ts).2 = [] ↔ ts = [] := by
  cases ts with
  | nil => simp [exposing]
  | cons t ts => simp [exposing]

/-- There is nothing to order by if the select has no term and gathers none. -/
theorem allTerms_eq_nil_iff (s : Select) (gathered : List OrderTerm) :
    s.allTerms gathered = [] ↔ s.ordering = [] ∧ gathered = [] := by
  rw [← List.map_eq_nil_iff (f := (·.expr)), map_expr_allTerms, List.map_eq_nil_iff,
    OrderTerm.withoutRepeats_eq_nil_iff, List.append_eq_nil_iff,
    OrderTerm.withoutRepeats_eq_nil_iff]

end Select

/-- A source passes on what its subqueries hand up, -/
theorem Source.mem_settled_iff {source : Source} {t : OrderTerm} :
    t ∈ source.settled.2 ↔ ∃ c ∈ source.selects, t ∈ c.handed .source := by
  induction source using Source.join_induction with
  | table => simp [Source.settled, Source.selects]
  | subquery query => simp [Source.settled_subquery, Source.selects]
  | join kind left right condition ihl ihr =>
    simp only [Source.settled, Source.selects, List.mem_append, ihl, ihr, or_and_right, exists_or]

namespace Select

variable {s c q : Select} {placement : Placement}

/-- each of which hands up references to itself. -/
theorem expr_of_mem_handed {t : OrderTerm} (h : t ∈ s.handed placement) :
    ∃ name, t.expr = .column s.label name := by
  obtain ⟨name, -, he⟩ := expr_of_mem_exposing h
  refine ⟨name, he.trans ?_⟩
  rw [settled_eq]
  rfl

/-- A select gathers what the subqueries of its source hand up. -/
theorem mem_gathered_iff {t : OrderTerm} :
    t ∈ s.gathered ↔ ∃ c ∈ s.sources, t ∈ c.handed .source := by
  unfold gathered sources
  cases s.source <;> simp [Source.mem_settled_iff]

/-- **Handing terms up is having some to hand up.** By induction on the sources. -/
theorem hands_iff : s.Hands ↔ s.handed .source ≠ [] := by
  induction s using children_induction with
  | step s ih =>
    have passed : s.handed .source ≠ [] ↔
        s.collapses = false ∧ (s.ordering ≠ [] ∨ s.gathered ≠ []) := by
      rw [handed, ne_eq, exposing_snd_eq_nil_iff, settled_eq, Select.passed, passesOn,
        collapses_renewed]
      cases s.collapses with
      | true => simp
      | false =>
        have none : s.renewed.ordering = [] ↔ s.ordering = [] := List.map_eq_nil_iff
        simp [allTerms_eq_nil_iff, none, imp_iff_not_or]
    rw [passed]
    constructor
    · intro h
      cases h with
      | own plain ordered => exact ⟨plain, .inl ordered⟩
      | read plain hc h =>
        have handed := (ih _ (mem_children_iff.2 (.inl hc))).1 h
        obtain ⟨t, ht⟩ := List.exists_mem_of_ne_nil _ handed
        exact ⟨plain, .inr (List.ne_nil_of_mem (mem_gathered_iff.2 ⟨_, hc, ht⟩))⟩
    · rintro ⟨plain, ordered | gathers⟩
      · exact .own plain ordered
      · obtain ⟨t, ht⟩ := List.exists_mem_of_ne_nil _ gathers
        obtain ⟨c, hc, ht⟩ := mem_gathered_iff.1 ht
        refine .read plain hc ((ih c (mem_children_iff.2 (.inl hc))).2 ?_)
        exact List.ne_nil_of_mem ht

end Select

/-! ## What settled parts refer to -/

theorem Expr.refs_column (label name : String) : (Expr.column label name).refs = [(label, name)] :=
  rfl

/-- A reference in a settled expression stood there before, or stands in one of its settled
subqueries. -/
theorem Expr.mem_refs_settled {e : Expr} {r : String × String} (h : r ∈ e.settled.refs) :
    r ∈ e.refs ∨ ∃ c ∈ e.subqueries, r ∈ (c.exposed .expression).refs := by
  rcases mem_refs_iff.1 h with h | ⟨c', hc', hr⟩
  · rw [localRefs_settled] at h
    exact .inl (mem_refs_iff.2 (.inl h))
  · obtain ⟨c, hc, rfl⟩ := Select.mem_subqueries_settled.1 hc'
    exact .inr ⟨c, hc, hr⟩

namespace Select

variable {s c q : Select} {placement place : Placement} {r : String × String}

/-- **What a settled select refers to** it referred to before, or else it is something that is
declared in it. -/
theorem mem_refs_exposed (h : r ∈ (s.exposed placement).refs) : r ∈ s.refs ∨ r.1 ∈ s.labels := by
  induction s using children_induction generalizing placement with
  | step s ih =>
    have below : ∀ c ∈ s.children, c.labels ⊆ s.labels :=
      fun c hc => (labels_sublist_of_mem_children hc).subset
    have settled : ∀ e ∈ s.exprs, r ∈ e.settled.refs → r ∈ s.refs ∨ r.1 ∈ s.labels := by
      intro e he hr
      rcases Expr.mem_refs_settled hr with hr | ⟨c, hc, hr⟩
      · exact .inl (mem_refs_iff.2 (.inr ⟨e, he, hr⟩))
      · have child := mem_children_iff.2 (.inr ⟨e, he, hc⟩)
        refine (ih c child hr).imp (fun hr => ?_) fun hl => below c child hl
        exact mem_refs_iff.2 (.inr ⟨e, he, Expr.mem_refs_iff.2 (.inr ⟨c, hc, hr⟩)⟩)
    rcases mem_refs_iff.1 h with ⟨c', hc', hr⟩ | ⟨e', he', hr⟩
    · rw [sources_exposed] at hc'
      obtain ⟨c, hc, rfl⟩ := List.mem_map.1 hc'
      have child := mem_children_iff.2 (.inl hc)
      exact (ih c child hr).imp (fun hr => mem_refs_iff.2 (.inl ⟨c, hc, hr⟩)) fun hl =>
        below c child hl
    · rcases List.mem_append.1 he' with he' | he'
      · rcases mem_clauses_exposed he' with ⟨e, he, rfl⟩ | ⟨t, ht, rfl⟩
        · exact settled e (List.mem_append_left _ he) hr
        · obtain ⟨c, hc, ht⟩ := mem_gathered_iff.1 ht
          obtain ⟨name, he⟩ := expr_of_mem_handed ht
          rw [he, Expr.refs_column] at hr
          obtain rfl := List.mem_singleton.1 hr
          exact .inr (below c (mem_children_iff.2 (.inl hc)) (mem_labels_iff.2 (.inl rfl)))
      · rw [conditions_exposed] at he'
        obtain ⟨e, he, rfl⟩ := List.mem_map.1 he'
        exact settled e (List.mem_append_right _ he) hr

/-! ## What is left of a select -/

/-- What is held after the pass is what was retained, exposed in its place. -/
theorem Holds.exists_retains (h : (s.exposed placement).Holds q) :
    ∃ place q₀, s.Retains placement place q₀ ∧ q = q₀.exposed place := by
  induction s using children_induction generalizing placement with
  | step s ih =>
    cases h with
    | self => exact ⟨placement, s, .self placement s, rfl⟩
    | child hc hq =>
      obtain ⟨kept, exposed, children, ⟨hkept, unkept⟩, hexposed, unexposed⟩ :=
        s.exists_children_exposed placement
      have child : ∀ c ∈ s.sources ++ (s.standing ++ s.sorting), c ∈ s.children :=
        fun c hc => s.children_perm.mem_iff.2 hc
      simp only [List.forall_mem_append] at child
      obtain ⟨ofSource, ofStanding, ofSorting⟩ := child
      rw [children.mem_iff] at hc
      simp only [List.mem_append] at hc
      rcases hc with hc | hc | hc | hc
      · obtain ⟨c, hc₀, rfl⟩ := List.mem_map.1 hc
        obtain ⟨place, q₀, h, rfl⟩ := ih c (ofSource c hc₀) hq
        exact ⟨place, q₀, .source hc₀ h, rfl⟩
      · obtain ⟨c, hc₀, rfl⟩ := List.mem_map.1 hc
        obtain ⟨place, q₀, h, rfl⟩ := ih c (ofStanding c hc₀) hq
        exact ⟨place, q₀, .standing hc₀ h, rfl⟩
      · have used : s.mayOrder placement := by
          by_contra no
          rw [unkept (Bool.eq_false_iff.2 no)] at hc
          cases hc
        obtain ⟨c, hc₀, rfl⟩ := List.mem_map.1 (hkept.subset hc)
        obtain ⟨place, q₀, h, rfl⟩ := ih c (ofSorting c hc₀) hq
        exact ⟨place, q₀, .sorting (.inl used) hc₀ h, rfl⟩
      · have used : s.passesOn placement := by
          by_contra no
          rw [unexposed (Bool.eq_false_iff.2 no)] at hc
          cases hc
        obtain ⟨c, hc₀, rfl⟩ := List.mem_map.1 (hexposed.subset hc)
        obtain ⟨place, q₀, h, rfl⟩ := ih c (ofSorting c hc₀) hq
        exact ⟨place, q₀, .sorting (.inr used) hc₀ h, rfl⟩

/-- Where no label is declared twice, a clause is known by a label that it declares. -/
theorem eq_of_shared_label (labels : s.labels.Nodup) {e e' : Expr} (he : e ∈ s.clauses)
    (he' : e' ∈ s.clauses) {label : String} (hl : label ∈ e.labels) (hl' : label ∈ e'.labels) :
    e = e' := by
  have clauses : (s.clauses.flatMap Expr.labels).Nodup := by
    rw [labels_eq] at labels
    exact (List.nodup_append.1 (List.nodup_cons.1 labels).2).2.1
  have symmetric : Std.Symm (Function.onFun List.Disjoint Expr.labels) := ⟨fun _ _ h => h.symm⟩
  by_contra other
  exact (List.nodup_flatMap.1 clauses).2.forall he he' other hl hl'

/-- Settling an expression declares no new labels. -/
theorem labels_settled_subset (e : Expr) : e.settled.labels ⊆ e.labels := by
  intro label hl
  rw [Expr.labels_eq_flatMap] at hl ⊢
  obtain ⟨c', hc', hl⟩ := List.mem_flatMap.1 hl
  obtain ⟨c, hc, rfl⟩ := mem_subqueries_settled.1 hc'
  rw [mem_labels_iff, label_exposed] at hl
  refine List.mem_flatMap.2 ⟨c, hc, mem_labels_iff.2 (hl.imp_right fun hl => ?_)⟩
  exact labelsBelow_exposed_subset .expression c hl

/-- **A term with a subquery is not lost among others**: a clause of the settled select that
declares the same labels is that term, settled. -/
theorem eq_settled_of_labels (labels : s.labels.Nodup) {t : OrderTerm} (ht : t ∈ s.ordering)
    (holds : c ∈ t.expr.subqueries) {e : Expr} (he : e ∈ (s.exposed placement).clauses)
    (same : e.labels = t.expr.settled.labels) : e = t.expr.settled := by
  have declared : c.label ∈ t.expr.settled.labels := by
    have below := Expr.labels_sublist_of_mem_subqueries
      (mem_subqueries_settled.2 ⟨c, holds, rfl⟩)
    refine below.subset (mem_labels_iff.2 (.inl ?_))
    exact (label_exposed .expression c).symm
  rcases mem_clauses_exposed he with ⟨e₀, he₀, rfl⟩ | ⟨u, hu, rfl⟩
  · rw [eq_of_shared_label labels he₀ (mem_clauses_of_ordering ht)
      (labels_settled_subset e₀ (same ▸ declared)) (labels_settled_subset t.expr declared)]
  · obtain ⟨label, name, hu⟩ := expr_of_mem_gathered hu
    rw [hu] at same
    rw [← same] at declared
    cases declared

/-- **What a select retains is found in the settled select**, where no label is declared twice. -/
theorem Retains.holds_exposed (h : s.Retains placement place q) (labels : s.labels.Nodup) :
    (s.exposed placement).Holds (q.exposed place) := by
  induction h with
  | self => exact .self _
  | @source placement _ s c _ hc _ ih =>
    have child : c.exposed .source ∈ (s.exposed placement).children := by
      refine mem_children_iff.2 (.inl ?_)
      rw [sources_exposed]
      exact List.mem_map_of_mem hc
    refine .child child (ih (labels.sublist (labels_sublist_of_mem_children ?_)))
    exact mem_children_iff.2 (.inl hc)
  | @standing placement _ s c _ hc _ ih =>
    obtain ⟨kept, exposed, children, -⟩ := s.exists_children_exposed placement
    have child : c.exposed .expression ∈ (s.exposed placement).children := by
      rw [children.mem_iff]
      exact List.mem_append_right _ (List.mem_append_left _ (List.mem_map_of_mem hc))
    refine .child child (ih (labels.sublist (labels_sublist_of_mem_children ?_)))
    exact s.children_perm.mem_iff.2 (List.mem_append_right _ (List.mem_append_left _ hc))
  | @sorting placement _ s c _ used hc _ ih =>
    obtain ⟨t, ht, hc⟩ := List.mem_flatMap.1 hc
    -- the term may have been dropped as a repeat, but not for one with other labels
    obtain ⟨e, he, same⟩ : ∃ e ∈ (s.exposed placement).clauses,
        e.labels = t.expr.settled.labels := by
      rcases used with may | passes
      · obtain ⟨u, hu, same⟩ := exists_labels_ordering may ht
        exact ⟨u.expr, mem_clauses_of_ordering hu, same⟩
      · obtain ⟨column, hcolumn, same⟩ := exists_labels_columns passes ht
        exact ⟨column.expr, mem_clauses_of_columns hcolumn, same⟩
    obtain rfl := eq_settled_of_labels labels ht hc he same
    have child : c.exposed .expression ∈ (s.exposed placement).children :=
      List.mem_append_right _ (List.mem_flatMap_of_mem he (mem_subqueries_settled.2 ⟨c, hc, rfl⟩))
    refine .child child (ih (labels.sublist (labels_sublist_of_mem_children ?_)))
    exact List.mem_append_right _ (List.mem_flatMap_of_mem (mem_clauses_of_ordering ht) hc)

/-! ## Clauses that refer across a semi join -/

/-- **No clause refers across a semi join** in the source of the select. -/
def SparesSemiJoins (s : Select) : Prop :=
  ∀ source ∈ s.source.toList, ∀ right ∈ source.semiRights, ∀ e ∈ s.clauses, ∀ r ∈ e.refs,
    r.1 ∉ right.frame.map Prod.fst

instance (s : Select) : Decidable s.SparesSemiJoins :=
  inferInstanceAs (Decidable (∀ source ∈ s.source.toList, ∀ right ∈ source.semiRights,
    ∀ e ∈ s.clauses, ∀ r ∈ e.refs, r.1 ∉ right.frame.map Prod.fst))

/-- **The select takes terms across a semi join**: it orders by the terms of its source or passes
them on, and a select to the right of a semi join hands some up. -/
def TakesAcross (placement : Placement) (s : Select) : Prop :=
  (s.receives placement ∨ s.passesOn placement) ∧
    ∃ source ∈ s.source.toList, ∃ right ∈ source.semiRights, ∃ c ∈ right.selects, c.Hands

/-- What is gathered becomes a clause of a select that takes it or passes it on. -/
theorem mem_clauses_exposed_of_gathered (takes : s.receives placement ∨ s.passesOn placement)
    {t : OrderTerm} (ht : t ∈ s.gathered) : t.expr ∈ (s.exposed placement).clauses := by
  obtain ⟨label, name, he⟩ := expr_of_mem_gathered ht
  obtain ⟨u, hu, same⟩ := s.renewed.exists_mem_allTerms_of_gathered ht ⟨label, name, he⟩
  obtain ⟨cs, eq, -, -, -, each⟩ :=
    (s.settled placement).1.exposing_adds_new (s.settled placement).2
  rcases takes with receives | passes
  · have kept : (s.exposed placement).ordering = s.renewed.allTerms s.gathered := by
      have receivesToo : s.renewed.receives placement := by
        rwa [Select.receives, collapses_renewed]
      rw [exposed, eq, settled_eq, adding, arranged, if_pos receivesToo]
    rw [same]
    exact mem_clauses_of_ordering (kept ▸ hu)
  · have passed : (s.settled placement).2 = s.renewed.allTerms s.gathered := by
      rw [settled_eq, Select.passed, passesOn, collapses_renewed, ← passesOn, if_pos passes]
    obtain ⟨c, hc, declares⟩ : ∃ c ∈ (s.exposed placement).columns, c.expr = u.expr := by
      rw [exposed, eq]
      rcases each u (passed ▸ hu) with ⟨c, hc, declares⟩ | ⟨c, hc, equal⟩
      · exact ⟨c, List.mem_append_right _ hc, declares⟩
      · rw [← same, he, Expr.beq_column_iff] at equal
        exact ⟨c, hc, equal.trans (he.symm.trans same)⟩
    rw [same, ← declares]
    exact mem_clauses_of_columns hc

/-- A select that neither takes terms nor passes them on has its own clauses alone. -/
theorem exists_of_mem_clauses_exposed (keeps : ¬ (s.receives placement ∨ s.passesOn placement))
    {e : Expr} (he : e ∈ (s.exposed placement).clauses) : ∃ e₀ ∈ s.clauses, e = e₀.settled := by
  rw [not_or, Bool.not_eq_true, Bool.not_eq_true] at keeps
  obtain ⟨unreceived, unpassed⟩ := keeps
  have columns := columns_exposed_of_not_passesOn unpassed
  have ordering : ∀ t ∈ (s.exposed placement).ordering, ∃ u ∈ s.renewed.ordering,
      t.expr = u.expr := by
    have receives : s.renewed.receives placement = false := by
      rwa [Select.receives, collapses_renewed]
    obtain ⟨cs, eq, -⟩ := s.exposed_eq placement
    rw [eq, adding, arranged]
    simp only [receives, Bool.false_eq_true, if_false]
    intro t ht
    split at ht
    · exact exists_of_mem_ownTerms ht
    · cases ht
  have own : e ∈ s.renewed.clauses := by
    have others : s.exposed placement = { s.renewed with
        columns := s.renewed.columns, ordering := (s.exposed placement).ordering,
        reversed := false } := by
      obtain ⟨cs, eq, -⟩ := s.exposed_eq placement
      rw [← columns, eq]
      rfl
    rw [others] at he
    simp only [clauses, List.mem_append, List.mem_map] at he ⊢
    rcases he with (((he | he) | ⟨t, ht, rfl⟩) | he) | he
    · exact .inl (.inl (.inl (.inl he)))
    · exact .inl (.inl (.inl (.inr he)))
    · obtain ⟨u, hu, same⟩ := ordering t ht
      exact .inl (.inl (.inr ⟨u, hu, same.symm⟩))
    · exact .inl (.inr he)
    · exact .inr he
  rw [clauses_renewed] at own
  obtain ⟨e₀, he₀, rfl⟩ := List.mem_map.1 own
  exact ⟨e₀, he₀, rfl⟩

/-- What is declared in a subquery of a clause is not seen by the select. -/
theorem not_mem_frame_of_subquery (labels : s.labels.Nodup) {e : Expr} (he : e ∈ s.clauses)
    (hc : c ∈ e.subqueries) {label : String} (hl : label ∈ c.labels) :
    label ∉ s.frame.map Prod.fst := by
  have apart := Multiset.nodup_of_le (frame_labels_add_le (.inl he) hc) labels
  rw [Multiset.coe_add, Multiset.coe_nodup] at apart
  exact fun shown => (List.nodup_append'.1 apart).2.2 shown hl

/-- **Settling refers across a semi join exactly if it takes terms across one.** -/
theorem sparesSemiJoins_exposed_iff (labels : s.labels.Nodup) (spares : s.SparesSemiJoins) :
    (s.exposed placement).SparesSemiJoins ↔ ¬ s.TakesAcross placement := by
  constructor
  · rintro kept ⟨takes, source, hs, right, hr, c, hc, hands⟩
    obtain ⟨t, ht⟩ := List.exists_mem_of_ne_nil _ (hands_iff.1 hands)
    have fromRight := Source.mem_settled_iff.2 ⟨c, hc, ht⟩
    have gathered : t ∈ s.gathered :=
      List.mem_flatMap_of_mem hs (Source.settled_subset_of_semiRights hr fromRight)
    obtain ⟨label, across, name, he⟩ := Source.exists_label_of_mem_settled fromRight
    rw [SparesSemiJoins, source_exposed, Option.toList_map] at kept
    refine kept _ (List.mem_map_of_mem hs) right.settled.1 ?_ _
      (mem_clauses_exposed_of_gathered takes gathered) (label, name) ?_ ?_
    · rw [Source.semiRights_settled]
      exact List.mem_map_of_mem hr
    · rw [he, Expr.refs_column]
      exact List.mem_singleton_self _
    · rwa [Source.labels_frame_settled]
  · intro no source' hs' right' hr' e he r hr across
    rw [source_exposed, Option.toList_map] at hs'
    obtain ⟨source, hs, rfl⟩ := List.mem_map.1 hs'
    rw [Source.semiRights_settled] at hr'
    obtain ⟨right, hright, rfl⟩ := List.mem_map.1 hr'
    rw [Source.labels_frame_settled] at across
    -- what settling brings into a clause is declared in its subqueries, and not by the source
    have settled : ∀ e₀ ∈ s.clauses, r ∉ e₀.settled.refs := by
      intro e₀ he₀ hr
      have own := spares source hs right hright e₀ he₀ r
      rcases Expr.mem_refs_settled hr with hr | ⟨c, hc, hr⟩
      · exact own hr across
      · rcases mem_refs_exposed hr with hr | declared
        · exact own (Expr.mem_refs_iff.2 (.inr ⟨c, hc, hr⟩)) across
        · refine not_mem_frame_of_subquery labels he₀ hc declared ?_
          rw [frame, Option.mem_toList.1 hs]
          exact (Source.frame_labels_sublist_of_semiRights hright).subset across
    by_cases takes : s.receives placement ∨ s.passesOn placement
    · rcases mem_clauses_exposed he with ⟨e₀, he₀, rfl⟩ | ⟨t, ht, rfl⟩
      · exact settled e₀ he₀ hr
      · obtain ⟨source₀, hs₀, ht⟩ := List.mem_flatMap.1 ht
        obtain rfl := Option.mem_unique (Option.mem_toList.1 hs₀) (Option.mem_toList.1 hs)
        obtain ⟨label, -, name, he⟩ := Source.exists_label_of_mem_settled ht
        rw [he, Expr.refs_column] at hr
        obtain rfl := List.mem_singleton.1 hr
        have fromRight := Source.mem_settled_of_semiRights
          (nodup_frame_labels labels (Option.mem_toList.1 hs)) hright ht he across
        obtain ⟨c, hc, ht⟩ := Source.mem_settled_iff.1 fromRight
        exact no ⟨takes, source₀, hs, right, hright, c, hc, hands_iff.2 (List.ne_nil_of_mem ht)⟩
    · obtain ⟨e₀, he₀, rfl⟩ := exists_of_mem_clauses_exposed takes he
      exact settled e₀ he₀ hr

end Select

/-! ## Statements -/

def Node.select? : Node → Option Select
  | .select s => some s
  | _ => none

/-- The selects of a statement, wherever they stand. -/
def Statement.selects (s : Statement) : List Select :=
  s.nodes.filterMap Node.select?

theorem Statement.mem_selects_iff {s : Statement} {q : Select} :
    q ∈ s.selects ↔ ∃ p ∈ s.queries, .select q ∈ p.nodes := by
  have select : ∀ n : Node, n.select? = some q ↔ n = .select q := by
    intro n
    cases n <;> simp [Node.select?]
  simp only [selects, nodes, List.mem_filterMap, select, exists_eq_right, List.mem_flatMap]

/-- **No clause of a statement refers across a semi join.** -/
def Statement.SparesSemiJoins (s : Statement) : Prop :=
  ∀ q ∈ s.selects, q.SparesSemiJoins

/-- The same of one query, if it declares no label twice. -/
theorem Projection.sparesSemiJoins_placed_iff {p : Projection} (labels : p.labels.Nodup)
    (spares : ∀ q, .select q ∈ p.nodes → q.SparesSemiJoins) :
    (∀ q, .select q ∈ p.placed.nodes → q.SparesSemiJoins) ↔
      ∀ place q, p.select.Retains .outermost place q → ¬ q.TakesAcross place := by
  have unique := nodup_select_labels labels
  have each : ∀ place q, p.select.Retains .outermost place q →
      ((q.exposed place).SparesSemiJoins ↔ ¬ q.TakesAcross place) := by
    intro place q retains
    exact Select.sparesSemiJoins_exposed_iff (unique.sublist retains.holds.labels_sublist)
      (spares q (List.mem_append_left _ retains.holds.mem_nodes))
  constructor
  · intro kept place q retains
    have held := (retains.holds_exposed unique).mem_nodes
    exact (each place q retains).1 (kept _ (List.mem_append_left _ held))
  · intro no q hq
    rcases List.mem_append.1 hq with hq | hq
    · obtain ⟨place, q₀, retains, rfl⟩ := (Select.mem_nodes_iff_holds.1 hq).exists_retains
      exact (each place q₀ retains).2 (no place q₀ retains)
    · exact spares q (List.mem_append_right _ hq)

/-- **When placing the orderings of a valid statement refers across no semi join**, if no clause did
before: unless a select that is left in place takes terms across one. -/
theorem Statement.placeOrderings_sparesSemiJoins_iff {s s' : Statement} (valid : s.check = .ok ())
    (h : s.placeOrderings.result = .ok s') (spares : s.SparesSemiJoins) :
    s'.SparesSemiJoins ↔ ∀ p ∈ s.queries, ∀ place q,
      p.select.Retains .outermost place q → ¬ q.TakesAcross place := by
  have placed := Statement.forall₂_placed h
  have each : ∀ p ∈ s.queries, (∀ q, .select q ∈ p.placed.nodes → q.SparesSemiJoins) ↔
      ∀ place q, p.select.Retains .outermost place q → ¬ q.TakesAcross place := by
    intro p hp
    exact Projection.sparesSemiJoins_placed_iff (check_eq_ok_iff.1 valid p hp).labels
      fun q hq => spares q (mem_selects_iff.2 ⟨p, hp, hq⟩)
  constructor
  · intro kept p hp
    obtain ⟨p', hp', rfl⟩ := exists_of_forall₂_of_mem_left placed hp
    exact (each p hp).1 fun q hq => kept q (mem_selects_iff.2 ⟨_, hp', hq⟩)
  · intro no q hq
    obtain ⟨p', hp', hq⟩ := mem_selects_iff.1 hq
    obtain ⟨p, hp, rfl⟩ := exists_of_forall₂_of_mem placed hp'
    exact (each p hp).2 (no p hp) q hq

/-- The orders with an item; `extra` are the columns that the items declare for terms alone. -/
def ordersWithItem (distinct : Bool) (extra : List Column) (items orders : List OrderTerm) :
    Statement :=
  let items : Select :=
    ⟨"t", [⟨"order", .column "i" "order", .int⟩] ++ extra, some (.table "items" "i"), none, items,
      [], [], distinct, none, none, false⟩
  .query ⟨⟨"q", [⟨"id", .column "o" "id", .int⟩],
    some (.join .leftSemi (.table "orders" "o") (.subquery items)
      (some (.binary .eq (.column "o" "id") (.column "t" "order")))),
    none, orders, [], [], false, none, none, false⟩, .scalar (.column "q" "id")⟩

/-- The ordered items to the right of the semi join are distinct, so they hand nothing up, and their
ordering is dropped. -/
theorem Statement.placeOrderings_sparesSemiJoins_iff_ordersWithItem :
    let before := ordersWithItem true [] [⟨.column "i" "price", .ascending⟩] []
    let after := ordersWithItem true [] [] []
    before.check = .ok () ∧ before.placeOrderings.result = .ok after ∧ before.SparesSemiJoins ∧
      after.SparesSemiJoins := by
  intro before after
  have valid : before.check = .ok () := by cbv
  have placed : before.placeOrderings.result = .ok after := by cbv
  have spares : before.SparesSemiJoins := by
    unfold Statement.SparesSemiJoins
    decide
  have closed : ∀ q ∈ before.selects, ∀ source ∈ q.source.toList, ∀ right ∈ source.semiRights,
      ∀ c ∈ right.selects, c.collapses = true := by decide
  refine ⟨valid, placed, spares, ?_⟩
  rw [Statement.placeOrderings_sparesSemiJoins_iff valid placed spares]
  rintro p hp place q retains ⟨-, source, hs, right, hr, c, hc, hands⟩
  have held := Statement.mem_selects_iff.2
    ⟨p, hp, List.mem_append_left _ retains.holds.mem_nodes⟩
  have collapses := closed q held source hs right hr c hc
  rw [hands.plain] at collapses
  cases collapses

/-- **The order of the items is lifted across the semi join** that reads them. -/
theorem Statement.placeOrderings_crosses_semiJoin :
    let before := ordersWithItem false [] [⟨.column "i" "price", .ascending⟩] []
    let after := ordersWithItem false [⟨"c0", .column "i" "price", .unknown⟩] []
      [⟨.column "t" "c0", .ascending⟩]
    before.check = .ok () ∧ before.SparesSemiJoins ∧ before.placeOrderings.result = .ok after ∧
      ¬ after.SparesSemiJoins := by
  refine ⟨by cbv, ?_, by cbv, ?_⟩
  · unfold SparesSemiJoins
    decide
  · unfold SparesSemiJoins
    decide

end HiveQuery
