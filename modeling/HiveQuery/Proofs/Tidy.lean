import HiveQuery.Proofs.Nodes
import HiveQuery.Proofs.Validity
/-!
# Tidy trees

The passes are made for trees in which a subquery of an expression stands in a filter and the
condition of a join refers to what it joins. What a pass copies or drops, such as an order term or a
column, then holds no subquery, so it neither declares a label twice nor loses one, and the
references of a condition can be followed once the two sides of the join are done. This file says
what such a tree is, level by level, and how its labels are laid out.
-/

namespace HiveQuery

/-! ## What a select holds -/

/-- What a subquery of an expression holds, the expression holds. -/
theorem Expr.nodes_subset_of_mem_subqueries {e : Expr} {q : Select} (h : q ∈ e.subqueries) :
    q.nodes ⊆ e.nodes := by
  induction e using Expr.parts_induction with
  | step e ih =>
    rw [Expr.subqueries_eq, List.mem_append, List.mem_flatMap, Option.mem_toList] at h
    rw [Expr.nodes_eq]
    intro n hn
    refine List.mem_cons_of_mem _ ?_
    rcases h with ⟨p, hp, hq⟩ | hq
    · exact List.mem_append_left _ (List.mem_flatMap_of_mem hp (ih p hp hq hn))
    · exact List.mem_append_right _ (List.mem_flatMap_of_mem (Option.mem_toList.2 hq) hn)

/-- A select among the nodes of an expression is in one of its subqueries. -/
theorem Expr.exists_subquery_of_mem_nodes {e : Expr} {q : Select} (h : .select q ∈ e.nodes) :
    ∃ c ∈ e.subqueries, .select q ∈ c.nodes := by
  induction e using Expr.parts_induction with
  | step e ih =>
    rw [Expr.nodes_eq, List.mem_cons, List.mem_append, List.mem_flatMap, List.mem_flatMap] at h
    rw [Expr.subqueries_eq]
    rcases h with here | ⟨p, hp, below⟩ | ⟨c, hc, below⟩
    · cases here
    · obtain ⟨c, hc, below⟩ := ih p hp below
      exact ⟨c, List.mem_append_left _ (List.mem_flatMap_of_mem hp hc), below⟩
    · exact ⟨c, List.mem_append_right _ hc, below⟩

/-- A select below a source stands in one of its subqueries or in a subquery of a condition. -/
theorem Source.exists_select_of_mem_nodes {source : Source} {q : Select}
    (h : .select q ∈ source.nodes) :
    ∃ c ∈ source.selects ++ source.conditions.flatMap Expr.subqueries, .select q ∈ c.nodes := by
  induction source using Source.join_induction with
  | table => simp [Source.nodes] at h
  | subquery query =>
    simp only [Source.nodes, List.mem_cons, reduceCtorEq, false_or] at h
    exact ⟨query, List.mem_append_left _ (List.mem_singleton_self _), h⟩
  | join kind left right condition ihl ihr =>
    simp only [Source.nodes, Expr.nodesOption_eq, List.mem_cons, reduceCtorEq, false_or,
      List.mem_append, List.mem_flatMap] at h
    simp only [Source.selects, Source.conditions, List.flatMap_append, List.mem_append] at ihl ihr ⊢
    rcases h with (h | h) | ⟨e, he, h⟩
    · obtain ⟨c, hc, below⟩ := ihl h
      exact ⟨c, hc.elim (.inl ∘ .inl) (.inr ∘ .inl ∘ .inl), below⟩
    · obtain ⟨c, hc, below⟩ := ihr h
      exact ⟨c, hc.elim (.inl ∘ .inr) (.inr ∘ .inl ∘ .inr), below⟩
    · obtain ⟨c, hc, below⟩ := Expr.exists_subquery_of_mem_nodes h
      exact ⟨c, .inr (.inr (List.mem_flatMap_of_mem he hc)), below⟩

/-- The references of an expression on its own level are references of it. -/
theorem Expr.localRefs_subset_refs (e : Expr) : e.localRefs ⊆ e.refs := by
  induction e using Expr.parts_induction with
  | step e ih =>
    intro r hr
    rw [Expr.localRefs_eq, List.mem_append, List.mem_flatMap, Option.mem_toList] at hr
    rw [Expr.refs, Expr.nodes_eq, List.mem_filterMap]
    rcases hr with ⟨p, hp, hr⟩ | hr
    · obtain ⟨n, hn, href⟩ := List.mem_filterMap.1 (ih p hp hr)
      exact ⟨n, List.mem_cons_of_mem _
        (List.mem_append_left _ (List.mem_flatMap_of_mem hp hn)), href⟩
    · exact ⟨.expr e, List.mem_cons_self, hr⟩

namespace Select

/-! What is below a select is among its nodes after the first, which is the select itself. -/

/-- The nodes of a clause come after the node of the select. -/
theorem nodes_subset_tail_of_mem_clauses {s : Select} {e : Expr} (h : e ∈ s.clauses) :
    e.nodes ⊆ s.nodes.tail := by
  intro n hn
  rw [nodes_eq s, List.tail_cons]
  exact List.mem_append_right _ (List.mem_flatMap_of_mem h hn)

theorem nodes_subset_tail_of_mem_conditions {s : Select} {e : Expr} (h : e ∈ s.conditions) :
    e.nodes ⊆ s.nodes.tail := by
  intro n hn
  obtain ⟨source, hs, he⟩ := List.mem_flatMap.1 h
  rw [nodes_eq s, List.tail_cons]
  exact List.mem_append_left _ (List.mem_flatMap_of_mem hs (Source.mem_nodes_of_condition he hn))

/-- The nodes of a select below another one come after the node of the latter. -/
theorem nodes_subset_tail_of_mem_children {s c : Select} (h : c ∈ s.children) :
    c.nodes ⊆ s.nodes.tail := by
  unfold children at h
  simp only [List.mem_append, List.mem_flatMap] at h
  rcases h with (hc | ⟨e, he, hc⟩) | ⟨e, he, hc⟩
  · obtain ⟨source, hs, hc⟩ := List.mem_flatMap.1 hc
    rw [nodes_eq s, List.tail_cons]
    exact fun n hn => List.mem_append_left _
      (List.mem_flatMap_of_mem hs (Source.mem_nodes_of_select hc hn))
  · exact List.Subset.trans (Expr.nodes_subset_of_mem_subqueries hc)
      (nodes_subset_tail_of_mem_conditions he)
  · exact List.Subset.trans (Expr.nodes_subset_of_mem_subqueries hc)
      (nodes_subset_tail_of_mem_clauses he)

theorem nodes_subset_of_mem_clauses {s : Select} {e : Expr} (h : e ∈ s.clauses) :
    e.nodes ⊆ s.nodes :=
  List.Subset.trans (nodes_subset_tail_of_mem_clauses h) (List.tail_sublist _).subset

theorem nodes_subset_of_mem_conditions {s : Select} {e : Expr} (h : e ∈ s.conditions) :
    e.nodes ⊆ s.nodes :=
  List.Subset.trans (nodes_subset_tail_of_mem_conditions h) (List.tail_sublist _).subset

theorem nodes_subset_of_mem_children {s c : Select} (h : c ∈ s.children) : c.nodes ⊆ s.nodes :=
  List.Subset.trans (nodes_subset_tail_of_mem_children h) (List.tail_sublist _).subset

/-- What an expression of a select holds, be it in a condition of a join or in a clause. -/
theorem subset_of_mem_conditions_or_clauses {s : Select} {e : Expr}
    (h : e ∈ s.conditions ++ s.clauses) : e.nodes ⊆ s.nodes ∧ e.subqueries ⊆ s.children := by
  rcases List.mem_append.1 h with h | h
  · exact ⟨nodes_subset_of_mem_conditions h, fun _ hq =>
      List.mem_append_left _ (List.mem_append_right _ (List.mem_flatMap_of_mem h hq))⟩
  · exact ⟨nodes_subset_of_mem_clauses h, fun _ hq =>
      List.mem_append_right _ (List.mem_flatMap_of_mem h hq)⟩

/-- The source of a select brings its nodes, its subqueries and its conditions along. -/
theorem subset_of_mem_source {s : Select} {source : Source} (h : source ∈ s.source) :
    source.nodes ⊆ s.nodes ∧ source.selects ⊆ s.children ∧ source.conditions ⊆ s.conditions := by
  have h' := Option.mem_toList.2 h
  refine ⟨fun _ hn => ?_, fun _ hq => ?_, fun _ he => List.mem_flatMap_of_mem h' he⟩
  · rw [nodes_eq]
    exact List.mem_cons_of_mem _ (List.mem_append_left _ (List.mem_flatMap_of_mem h' hn))
  · exact List.mem_append_left _ (List.mem_append_left _ (List.mem_flatMap_of_mem h' hq))

/-- The nodes of a select below are nodes of the select. -/
theorem Holds.nodes_subset {s q : Select} (h : s.Holds q) : q.nodes ⊆ s.nodes := by
  induction h with
  | self => exact List.Subset.refl _
  | child hc _ ih => exact List.Subset.trans ih (nodes_subset_of_mem_children hc)

/-- A select that is held is a node. -/
theorem Holds.mem_nodes {s q : Select} (h : s.Holds q) : Node.select q ∈ s.nodes := by
  refine h.nodes_subset ?_
  rw [nodes_eq]
  exact List.mem_cons_self

/-- A node below a select that is a select stands in one directly below it. -/
theorem exists_child_of_mem_nodes {s q : Select} (h : .select q ∈ s.nodes.tail) :
    ∃ c ∈ s.children, .select q ∈ c.nodes := by
  rw [nodes_eq, List.tail_cons, List.mem_append, List.mem_flatMap, List.mem_flatMap] at h
  rcases h with ⟨source, hs, below⟩ | ⟨e, he, below⟩
  · obtain ⟨c, hc, below⟩ := Source.exists_select_of_mem_nodes below
    refine ⟨c, List.mem_append_left _ ?_, below⟩
    simpa [sources, conditions, Option.mem_toList.1 hs] using hc
  · obtain ⟨c, hc, below⟩ := Expr.exists_subquery_of_mem_nodes below
    exact ⟨c, List.mem_append_right _ (List.mem_flatMap_of_mem he hc), below⟩

/-- **The selects among the nodes of a select are those that it holds.** -/
theorem mem_nodes_iff_holds {s q : Select} : .select q ∈ s.nodes ↔ s.Holds q := by
  refine ⟨fun h => ?_, fun h => h.mem_nodes⟩
  induction s using children_induction with
  | step s ih =>
    rw [nodes_eq, List.mem_cons] at h
    rcases h with here | below
    · obtain rfl := Node.select.inj here
      exact .self q
    · have below : .select q ∈ s.nodes.tail := by rwa [nodes_eq, List.tail_cons]
      obtain ⟨c, hc, below⟩ := exists_child_of_mem_nodes below
      exact .child hc (ih c hc below)

/-- The selects strictly below a select are those that the selects directly below it hold. -/
theorem mem_nodes_tail_iff {s q : Select} :
    .select q ∈ s.nodes.tail ↔ ∃ c ∈ s.children, c.Holds q := by
  constructor
  · intro h
    obtain ⟨c, hc, below⟩ := exists_child_of_mem_nodes h
    exact ⟨c, hc, mem_nodes_iff_holds.1 below⟩
  · rintro ⟨c, hc, holds⟩
    exact nodes_subset_tail_of_mem_children hc holds.mem_nodes

/-- What a select below declares, the select declares, at whatever depth. -/
theorem Holds.labels_sublist {s q : Select} (h : s.Holds q) : q.labels.Sublist s.labels := by
  induction h with
  | self => exact .refl _
  | child hc _ ih => exact ih.trans (labels_sublist_of_mem_children hc)

/-- A property of all selects that a select holds. -/
def Everywhere (P : Select → Prop) (s : Select) : Prop :=
  ∀ q, s.Holds q → P q

/-- A property holds everywhere in a select if it holds of it and everywhere directly below it. -/
theorem everywhere_iff {P : Select → Prop} {s : Select} :
    s.Everywhere P ↔ P s ∧ ∀ c ∈ s.children, c.Everywhere P := by
  constructor
  · intro h
    exact ⟨h s (.self s), fun c hc q hq => h q (.child hc hq)⟩
  · rintro ⟨here, children⟩ q hq
    cases hq with
    | self => exact here
    | child hc hq => exact children _ hc q hq

end Select

/-! ## Tidy selects -/

/-- As far as the conditions of the joins of a source refer to some labels at all, each refers only
to those of the two sides that it joins. -/
def Source.JoinsWithin (labels : List String) : Source → Prop
  | .table .. | .subquery _ => True
  | .join kind left right condition =>
    left.JoinsWithin labels ∧ right.JoinsWithin labels ∧ ∀ e ∈ condition, ∀ r ∈ e.localRefs,
      r.1 ∈ (Source.join kind left right none).frame.map Prod.fst ∨ r.1 ∉ labels

namespace Select

/-- **A tidy select** has its subqueries in its source and its filter alone, and the conditions of
its joins refer to the two sides that they join or to what is outside of its source. -/
structure Tidy (s : Select) : Prop where
  others : ∀ e ∈ s.others, e.subqueries = []
  conditions : ∀ e ∈ s.conditions, e.subqueries = []
  joins : ∀ source ∈ s.source, source.JoinsWithin (source.frame.map Prod.fst)

variable {s : Select}

/-- Below a tidy select there are its sources and the subqueries of its filter, and nothing else. -/
theorem Tidy.mem_children_iff (h : s.Tidy) {c : Select} :
    c ∈ s.children ↔ c ∈ s.sources ∨ ∃ e ∈ s.filter, c ∈ e.subqueries := by
  unfold children
  simp only [List.mem_append, List.mem_flatMap]
  constructor
  · rintro ((hc | ⟨e, he, hc⟩) | ⟨e, he, hc⟩)
    · exact .inl hc
    · rw [h.conditions e he] at hc
      simp at hc
    · rcases mem_clauses_iff.1 he with he | he
      · rw [h.others e he] at hc
        simp at hc
      · exact .inr ⟨e, he, hc⟩
  · rintro (hc | ⟨e, he, hc⟩)
    · exact .inl (.inl hc)
    · exact .inr ⟨e, mem_clauses_of_filter he, hc⟩

end Select

/-! ## Labels -/

/-- An expression declares the labels of its subqueries. -/
theorem Expr.labels_eq_flatMap (e : Expr) : e.labels = e.subqueries.flatMap Select.labels := by
  induction e using Expr.parts_induction with
  | step e ih =>
    rw [Expr.labels_eq, Expr.subqueries_eq, List.flatMap_append, List.flatMap_assoc,
      List.flatMap_congr ih]

/-- An expression without subqueries declares no label. -/
theorem Expr.labels_eq_nil {e : Expr} (h : e.subqueries = []) : e.labels = [] := by
  rw [Expr.labels_eq_flatMap, h, List.flatMap_nil]

theorem Expr.flatMap_labels_eq_nil {es : List Expr} (h : ∀ e ∈ es, e.subqueries = []) :
    es.flatMap Expr.labels = [] :=
  List.flatMap_eq_nil_iff.2 fun e he => Expr.labels_eq_nil (h e he)

/-- A tidy select declares its own label, those of its source and those of its filter. -/
theorem Select.Tidy.labels_eq {s : Select} (h : s.Tidy) :
    s.labels = s.label ::
      (s.source.toList.flatMap Source.labels ++ s.filter.toList.flatMap Expr.labels) := by
  have others := h.others
  simp only [Select.others, List.forall_mem_append] at others
  obtain ⟨⟨⟨columns, ordering⟩, grouping⟩, clustering⟩ := others
  rw [Select.labels_eq, Select.clauses]
  simp only [List.flatMap_append, Expr.flatMap_labels_eq_nil columns,
    Expr.flatMap_labels_eq_nil ordering, Expr.flatMap_labels_eq_nil grouping,
    Expr.flatMap_labels_eq_nil clustering, List.nil_append, List.append_nil]

/-! ## The same source and filter -/

namespace Select

/-- The select `q` has the source and the filter of `s`, and all else that it holds is taken from
`s`. -/
structure Renews (s q : Select) : Prop where
  source : q.source = s.source
  filter : q.filter = s.filter
  names : q.columnNames.Nodup
  others : ∀ e ∈ q.others, (∀ r ∈ e.localRefs, ∃ e₀ ∈ s.others, r ∈ e₀.localRefs) ∧
    ∀ c ∈ e.subqueries, ∃ e₀ ∈ s.others, c ∈ e₀.subqueries

variable {s q : Select}

/-- A select that declares some of its expressions under other names. -/
theorem renews_of_columns {cs : List Column} (names : (cs.map (·.name)).Nodup)
    (h : ∀ c ∈ cs, ∃ c₀ ∈ s.columns, c.expr = c₀.expr) : s.Renews { s with columns := cs } := by
  refine ⟨rfl, rfl, names, fun e he => ?_⟩
  have own : e ∈ s.others := by
    simp only [others, List.append_assoc, List.mem_append, List.mem_map] at he ⊢
    refine he.imp_left ?_
    rintro ⟨c, hc, rfl⟩
    obtain ⟨c₀, hc₀, same⟩ := h c hc
    exact ⟨c₀, hc₀, same.symm⟩
  exact ⟨fun r hr => ⟨e, own, hr⟩, fun c hc => ⟨e, own, hc⟩⟩

/-- **A renewed select is valid where the select is**: it refers to no more than the select does. -/
theorem Renews.check (h : s.Renews q) {scope : Scope} (check : s.check scope = .ok ()) :
    q.check scope = .ok () := by
  have checks := check_eq_ok_iff.1 check
  have frame : q.frame = s.frame := by rw [frame, frame, h.source]
  refine check_eq_ok_iff.2 ⟨h.names, ?_, fun e he => ?_, ?_⟩
  · rw [sources, h.source]
    exact checks.sources
  · rw [frame]
    rcases mem_clauses_iff.1 he with he | he
    · refine ⟨fun r hr => ?_, fun c hc => ?_⟩
      · obtain ⟨e₀, he₀, hr⟩ := (h.others e he).1 r hr
        exact (checks.clauses e₀ (mem_clauses_iff.2 (.inl he₀))).resolves r hr
      · obtain ⟨e₀, he₀, hc⟩ := (h.others e he).2 c hc
        exact (checks.clauses e₀ (mem_clauses_iff.2 (.inl he₀))).queries c hc
    · rw [h.filter] at he
      exact checks.clauses e (mem_clauses_of_filter he)
  · rw [conditions, h.source, frame]
    exact checks.conditions

/-- A renewed select is as tidy as the select: its filter is the same, and its other clauses hold no
subquery. -/
theorem Renews.tidy (h : s.Renews q) (tidy : s.Tidy) : q.Tidy := by
  refine ⟨fun e he => List.eq_nil_iff_forall_not_mem.2 fun c hc => ?_, ?_, ?_⟩
  · obtain ⟨e₀, he₀, hc⟩ := (h.others e he).2 c hc
    rw [tidy.others e₀ he₀] at hc
    cases hc
  · rw [conditions, h.source]
    exact tidy.conditions
  · rw [h.source]
    exact tidy.joins

/-- What is below a renewed select was below the select. -/
theorem Renews.everywhere (h : s.Renews q) (tidy : s.Everywhere Tidy) : q.Everywhere Tidy := by
  obtain ⟨here, below⟩ := everywhere_iff.1 tidy
  have htidy := h.tidy here
  refine everywhere_iff.2 ⟨htidy, fun c hc => below c (here.mem_children_iff.2 ?_)⟩
  rw [htidy.mem_children_iff, sources, h.source, h.filter] at hc
  exact hc

/-- A renewed select declares what the select declares, up to its own label. -/
theorem Renews.labels (h : s.Renews q) (tidy : s.Tidy) : q.labels = q.label :: s.labels.tail := by
  rw [(h.tidy tidy).labels_eq, tidy.labels_eq, h.source, h.filter, List.tail_cons]

/-- The first label that a select declares is its own. -/
theorem labels_eq_cons (s : Select) : s.labels = s.label :: s.labels.tail := by
  rw [labels_eq, List.tail_cons]

theorem Renews.labels_eq (h : s.Renews q) (tidy : s.Tidy) (label : q.label = s.label) :
    q.labels = s.labels := by
  rw [h.labels tidy, label, ← labels_eq_cons]

end Select

/-! ## Queries -/

namespace Projection

/-- **A query that the passes are made for**: it is valid, its selects are tidy and its projector
holds no subquery. -/
structure Sound (p : Projection) : Prop where
  checks : p.Checks
  tidy : p.select.Everywhere Select.Tidy
  projector : ∀ e ∈ p.projector.exprs, e.subqueries = []

/-- A query declares what its select declares, and what the subqueries of its projector declare. -/
theorem labels_eq (p : Projection) :
    p.labels = p.select.labels ++ p.projector.exprs.flatMap Expr.labels := by
  unfold labels nodes Select.labels Expr.labels
  rw [List.filterMap_append, List.filterMap_flatMap]

/-- The projector of a sound query declares nothing. -/
theorem Sound.labels_eq {p : Projection} (h : p.Sound) : p.labels = p.select.labels := by
  rw [Projection.labels_eq, Expr.flatMap_labels_eq_nil h.projector, List.append_nil]

theorem Sound.nodup_labels {p : Projection} (h : p.Sound) : p.select.labels.Nodup :=
  h.labels_eq ▸ h.checks.labels

end Projection

end HiveQuery
