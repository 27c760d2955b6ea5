import HiveQuery.Proofs.Comparison
import HiveQuery.Proofs.Placement
/-!
# The effective ordering

What an ordering means is said in terms of table columns: a reference to a column of a subquery
stands for the expression that the subquery declares, and so on down to the tables. The effective
ordering of a select is its own terms and behind them the effective orderings of the subqueries that
it reads, all of them expanded in this way. Placing orderings keeps it: what climbs through the
levels of a tree is renamed, freed of repeats and flipped, and still compares any two rows as
before.
-/

namespace HiveQuery

open Outcome

/-! ## What references stand for -/

mutual

/-- What a reference into a source stands for, expanded down to the columns of tables. -/
def Source.meaning : Source → String → String → Expr
  | .table .. => fun label name => .column label name
  | .subquery query => fun label name =>
    if label = query.label then query.declared name else .column label name
  | .join _ left right _ => fun label name =>
    if label ∈ right.frame.map Prod.fst then right.meaning label name else left.meaning label name

def Source.meaningOption : Option Source → String → String → Expr
  | none => fun label name => .column label name
  | some source => source.meaning

/-- What a column of a select stands for. -/
def Select.declared : Select → String → Expr
  | ⟨label, columns, source, _, _, _, _, _, _, _, _⟩ => fun name =>
    match columns.find? (·.name == name) with
    | some column => column.expr.subst (Source.meaningOption source)
    | none => .column label name

end

/-- What a reference in a clause of a select stands for. -/
def Select.meaning (s : Select) : String → String → Expr :=
  Source.meaningOption s.source

theorem Source.meaning_subquery (query : Select) (label name : String) :
    (Source.subquery query).meaning label name =
      if label = query.label then query.declared name else .column label name := by
  rw [Source.meaning]

/-- A label of both sides of a join is one of the right side. -/
theorem Source.meaning_join (kind : JoinKind) (left right : Source) (condition : Option Expr)
    (label name : String) :
    (Source.join kind left right condition).meaning label name =
      if label ∈ right.frame.map Prod.fst then right.meaning label name
      else left.meaning label name := by
  rw [Source.meaning]

theorem Select.declared_eq (s : Select) (name : String) :
    s.declared name = match s.column? name with
      | some column => column.expr.subst s.meaning
      | none => .column s.label name := by
  cases s
  rw [Select.declared]
  rfl

/-! ## The effective ordering -/

mutual

/-- The effective orderings of the subqueries in a source, from left to right. -/
def Source.effective : Source → List OrderTerm
  | .table .. => []
  | .subquery query => if query.collapses then [] else query.effective
  | .join _ left right _ => left.effective ++ right.effective

def Source.effectiveOption : Option Source → List OrderTerm
  | none => []
  | some source => source.effective

/-- **The effective ordering of a select**, in terms of table columns. -/
def Select.effective : Select → List OrderTerm
  | ⟨_, _, source, _, ordering, _, _, _, _, _, reversed⟩ =>
    let terms :=
      ordering.map (OrderTerm.subst (Source.meaningOption source)) ++ Source.effectiveOption source
    if reversed then OrderTerm.flipAll terms else terms

end

/-- A select is ordered by its own terms, in the meaning that its source gives them, and then by
what its source is ordered by. -/
theorem Select.effective_eq (s : Select) :
    s.effective =
      let terms := s.ordering.map (OrderTerm.subst s.meaning) ++ Source.effectiveOption s.source
      if s.reversed then OrderTerm.flipAll terms else terms := by
  cases s
  rw [Select.effective]
  rfl

/-! ## Exposed terms mean the same -/

namespace Select

theorem column?_of_mem {s : Select} (names : s.columnNames.Nodup) {c : Column}
    (h : c ∈ s.columns) : s.column? c.name = some c := by
  unfold columnNames at names
  unfold column?
  generalize s.columns = columns at names h
  induction columns with
  | nil => simp at h
  | cons d columns ih =>
    rw [List.map_cons, List.nodup_cons] at names
    rcases List.mem_cons.1 h with rfl | there
    · simp
    · have ne : d.name ≠ c.name := fun heq => names.1 (heq ▸ List.mem_map_of_mem there)
      rw [List.find?_cons_of_neg (by simpa using ne)]
      exact ih names.2 there

end Select

variable {V : Type} [LinearOrder V] {x y : Valuation V}

/-- **The references to exposed terms compare rows as the terms do.** -/
theorem Select.compareAll_exposing {s : Select} (names : s.columnNames.Nodup)
    (ts : List OrderTerm) :
    OrderTerm.compareAll x.value y.value
        ((s.exposing ts).2.map (OrderTerm.subst (Source.subquery (s.exposing ts).1).meaning)) =
      OrderTerm.compareAll x.value y.value (ts.map (OrderTerm.subst s.meaning)) := by
  obtain ⟨nodup, refs⟩ := Select.exposing_names names ts
  obtain ⟨cs, hcs, -⟩ := s.exposing_adds ts
  refine OrderTerm.compareAll_congr_rows ?_
  rw [List.forall₂_map_left_iff, List.forall₂_map_right_iff]
  refine refs.imp fun t r h => ?_
  obtain ⟨direction, c, hc, href, hexpr⟩ := h
  have label : (s.exposing ts).1.label = s.label := by rw [hcs]; rfl
  have meaning : (s.exposing ts).1.meaning = s.meaning := by rw [hcs]; rfl
  have expanded : (r.subst (Source.subquery (s.exposing ts).1).meaning).expr =
      c.expr.subst s.meaning := by
    rw [OrderTerm.expr_subst, href, Expr.subst_column, Source.meaning_subquery, if_pos label.symm,
      Select.declared_eq, Select.column?_of_mem nodup hc, meaning]
  refine ⟨direction, ?_⟩
  rw [expanded, OrderTerm.expr_subst]
  rcases hexpr with heq | heq
  · exact ⟨x.congr heq s.meaning, y.congr heq s.meaning⟩
  · rw [heq]
    exact ⟨rfl, rfl⟩

/-! ## Trees without subqueries in expressions -/

/-- No expression of the select or of a select in its source holds a subquery. -/
inductive Select.Plain : Select → Prop
  | intro {s : Select} (clauses : ∀ e ∈ s.clauses, e.subqueries = [])
      (conditions : ∀ e ∈ s.conditions, e.subqueries = []) (sources : ∀ q ∈ s.sources, Plain q) :
      Plain s

/-- A select none of whose nodes is a subquery in an expression is plain. -/
theorem Select.plain_of_nodes {s : Select}
    (h : ∀ e, Node.expr e ∈ s.nodes → e.query? = none) : s.Plain := by
  induction s using Select.children_induction with
  | step s ih =>
    have source : ∀ source ∈ s.source.toList, source.nodes ⊆ s.nodes := fun source hs n hn => by
      rw [Select.nodes_eq]
      exact List.mem_cons_of_mem _ (List.mem_append_left _ (List.mem_flatMap_of_mem hs hn))
    have none : ∀ e : Expr, e.nodes ⊆ s.nodes → e.subqueries = [] := by
      intro e he
      rw [List.eq_nil_iff_forall_not_mem]
      intro q hq
      obtain ⟨e', he', hquery⟩ := Expr.exists_query?_of_mem_subqueries hq
      rw [h e' (he he')] at hquery
      cases hquery
    refine ⟨fun e he => none e fun n hn => ?_, fun e he => none e ?_, fun q hq => ih q ?_ ?_⟩
    · rw [Select.nodes_eq]
      exact List.mem_cons_of_mem _ (List.mem_append_right _ (List.mem_flatMap_of_mem he hn))
    · obtain ⟨src, hs, he⟩ := List.mem_flatMap.1 he
      exact List.Subset.trans (Source.mem_nodes_of_condition he) (source src hs)
    · exact List.mem_append_left _ (List.mem_append_left _ hq)
    · obtain ⟨src, hs, hq⟩ := List.mem_flatMap.1 hq
      exact fun e he => h e (source src hs (Source.mem_nodes_of_select hq he))

theorem Select.Plain.everywhere_conditions {s : Select} (h : s.Plain) :
    s.Everywhere fun q => ∀ e ∈ q.conditions, e.subqueries = [] := by
  induction s using Select.children_induction with
  | step s ih =>
    obtain ⟨clauses, conditions, sources⟩ := h
    refine Select.everywhere_iff.2 ⟨conditions, fun c hc => ?_⟩
    have child := hc
    simp only [Select.children, List.mem_append, List.mem_flatMap] at child
    rcases child with (source | ⟨e, he, hq⟩) | ⟨e, he, hq⟩
    · exact ih c hc (sources c source)
    · rw [conditions e he] at hq
      cases hq
    · rw [clauses e he] at hq
      cases hq

/-! ## What climbs keeps its meaning -/

/-- **What lifting keeps of a subquery** that other selects read: its columns mean what they meant,
and the terms it hands on compare rows as its effective ordering does. -/
structure Select.Kept (q : Select) : Prop where
  declared : ∀ name ∈ q.columnNames, (q.exposed .source).declared name = q.declared name
  order : ∀ {V : Type} [LinearOrder V] (x y : Valuation V),
    OrderTerm.compareAll x.value y.value
        ((q.handed .source).map (OrderTerm.subst (Source.subquery (q.exposed .source)).meaning)) =
      OrderTerm.compareAll x.value y.value (Source.subquery q).effective

/-- The same of a source. -/
structure Source.Kept (source : Source) : Prop where
  meaning : ∀ label name, Scope.error? [source.frame] (label, name) = none →
    source.settled.1.meaning label name = source.meaning label name
  order : ∀ {V : Type} [LinearOrder V] (x y : Valuation V),
    OrderTerm.compareAll x.value y.value
        (source.settled.2.map (OrderTerm.subst source.settled.1.meaning)) =
      OrderTerm.compareAll x.value y.value source.effective

/-- What is kept of a subquery is kept of it as a source. -/
theorem Source.Kept.of_subquery {q : Select} (h : q.Kept) : (Source.subquery q).Kept := by
  constructor
  · intro label name resolves
    rw [Source.settled_subquery, Source.meaning_subquery, Source.meaning_subquery,
      Select.label_exposed]
    split
    · next hlabel =>
      refine h.declared name ?_
      subst hlabel
      exact Scope.mem_columnNames_of_error? resolves
    · rfl
  · intro V _ x y
    rw [Source.settled_subquery]
    exact h.order x y

/-- Each side of a join keeps what it had, since the sides share no label. -/
theorem Source.Kept.join {kind : JoinKind} {left right : Source} {condition : Option Expr}
    (hl : left.Kept) (hr : right.Kept)
    (labels : ((Source.join kind left right condition).frame.map Prod.fst).Nodup) :
    (Source.join kind left right condition).Kept := by
  have settled : (Source.join kind left right condition).settled =
      (.join kind left.settled.1 right.settled.1 (Expr.settledOption condition),
        left.settled.2 ++ right.settled.2) := by
    rw [Source.settled]
  constructor
  · intro label name resolves
    rw [settled, Source.meaning_join, Source.meaning_join, Source.labels_frame_settled]
    rw [Source.frame, Scope.error?_append] at resolves
    split
    · next h =>
      rw [if_pos h] at resolves
      exact hr.meaning label name resolves
    · next h =>
      rw [if_neg h] at resolves
      exact hl.meaning label name resolves
  · intro V _ x y
    rw [Source.frame, List.map_append, List.nodup_append] at labels
    have fromLeft : left.settled.2.map (OrderTerm.subst
        (Source.join kind left.settled.1 right.settled.1 (Expr.settledOption condition)).meaning) =
        left.settled.2.map (OrderTerm.subst left.settled.1.meaning) := by
      refine List.map_congr_left fun t ht => ?_
      obtain ⟨label, names, hmem, name, -, he⟩ := Source.mem_frame_of_mem_settled ht
      have onLeft : label ∈ left.frame.map Prod.fst := by
        rw [← Source.labels_frame_settled]
        exact List.mem_map.2 ⟨_, hmem, rfl⟩
      have notRight : label ∉ right.settled.1.frame.map Prod.fst := by
        rw [Source.labels_frame_settled]
        exact fun onRight => labels.2.2 label onRight label onLeft rfl
      rw [OrderTerm.subst, OrderTerm.subst, he, Expr.subst_column, Expr.subst_column,
        Source.meaning_join, if_neg notRight]
    have fromRight : right.settled.2.map (OrderTerm.subst
        (Source.join kind left.settled.1 right.settled.1 (Expr.settledOption condition)).meaning) =
        right.settled.2.map (OrderTerm.subst right.settled.1.meaning) := by
      refine List.map_congr_left fun t ht => ?_
      obtain ⟨label, names, hmem, name, -, he⟩ := Source.mem_frame_of_mem_settled ht
      have onRight : label ∈ right.settled.1.frame.map Prod.fst := List.mem_map.2 ⟨_, hmem, rfl⟩
      rw [OrderTerm.subst, OrderTerm.subst, he, Expr.subst_column, Expr.subst_column,
        Source.meaning_join, if_pos onRight]
    rw [settled, List.map_append, fromLeft, fromRight, OrderTerm.compareAll_append, hl.order,
      hr.order, Source.effective, OrderTerm.compareAll_append]

/-- **A source keeps its order and its meaning** if its subqueries do. -/
theorem Source.kept {source : Source} (selects : ∀ q ∈ source.selects, q.Kept)
    (labels : (source.frame.map Prod.fst).Nodup) : source.Kept := by
  induction source using Source.join_induction with
  | table name label =>
    refine ⟨fun _ _ _ => ?_, fun x y => ?_⟩
    · rw [Source.settled]
    · rw [Source.settled, Source.effective]
      rfl
  | subquery query => exact .of_subquery (selects query (List.mem_singleton_self _))
  | join kind left right condition ihl ihr =>
    simp only [Source.selects, List.forall_mem_append] at selects
    have split := labels
    rw [Source.frame, List.map_append, List.nodup_append] at split
    exact .join (ihl selects.1 split.2.1) (ihr selects.2 split.1) labels

namespace Select

/-- Of a plain select only the source is renewed. -/
theorem Plain.renewed_eq {s : Select} (h : s.Plain) :
    s.renewed = { s with source := s.source.map fun source => source.settled.1 } := by
  obtain ⟨clauses, -, -⟩ := h
  exact renewed_eq_of_clauses fun e he => Expr.settled_of_subqueries_eq_nil (clauses e he)

/-- What a select sees of its source is kept. -/
structure SourceKept (s : Select) : Prop where
  meaning : ∀ label name, Scope.error? [s.frame] (label, name) = none →
    s.renewed.meaning label name = s.meaning label name
  order : ∀ {V : Type} [LinearOrder V] (x y : Valuation V),
    OrderTerm.compareAll x.value y.value (s.gathered.map (OrderTerm.subst s.renewed.meaning)) =
      OrderTerm.compareAll x.value y.value (Source.effectiveOption s.source)

theorem sourceKept {s : Select} (sources : ∀ q ∈ s.sources, q.Kept) (labels : s.labels.Nodup) :
    s.SourceKept := by
  unfold Select.sources at sources
  cases hs : s.source with
  | none =>
    have renewed : s.renewed.source = none := by simp [Select.renewed, hs]
    refine ⟨fun _ _ _ => ?_, fun x y => ?_⟩
    · rw [Select.meaning, Select.meaning, renewed, hs]
    · rw [Select.gathered, hs]
      rfl
  | some source =>
    have renewed : s.renewed.source = some source.settled.1 := by simp [Select.renewed, hs]
    have gathered : s.gathered = source.settled.2 := by simp [Select.gathered, hs]
    rw [hs] at sources
    simp only [Option.toList_some, List.flatMap_singleton] at sources
    have kept := Source.kept sources (Select.nodup_frame_labels labels hs)
    refine ⟨?_, fun x y => ?_⟩
    · rw [Select.frame, Select.meaning, Select.meaning, renewed, hs]
      exact kept.meaning
    · rw [gathered, Select.meaning, renewed, hs]
      exact kept.order x y

/-- **All terms of a select, its own and the gathered ones, compare rows as its effective ordering
does.** -/
theorem compareAll_allTerms {s : Select} (plain : s.Plain) (checks : s.Checks [])
    (kept : s.SourceKept) {V : Type} [LinearOrder V] (x y : Valuation V) :
    OrderTerm.compareAll x.value y.value
        ((s.renewed.allTerms s.gathered).map (OrderTerm.subst s.renewed.meaning)) =
      OrderTerm.compareAll x.value y.value s.effective := by
  have own : s.ordering.map (OrderTerm.subst s.renewed.meaning) =
      s.ordering.map (OrderTerm.subst s.meaning) := by
    refine List.map_congr_left fun t ht => ?_
    have resolves := (checks.clauses t.expr (mem_clauses_of_ordering ht)).resolves
    rw [OrderTerm.subst, OrderTerm.subst,
      Expr.subst_congr fun r hr => kept.meaning r.1 r.2 (resolves r hr)]
  have terms : OrderTerm.compareAll x.value y.value ((OrderTerm.withoutRepeats
        (OrderTerm.withoutRepeats s.ordering ++ s.gathered)).map
          (OrderTerm.subst s.renewed.meaning)) =
      OrderTerm.compareAll x.value y.value (s.ordering.map (OrderTerm.subst s.meaning) ++
        Source.effectiveOption s.source) := by
    rw [OrderTerm.compareAll_withoutRepeats, List.map_append, OrderTerm.compareAll_append,
      OrderTerm.compareAll_withoutRepeats, own, kept.order, OrderTerm.compareAll_append]
  have ordering : s.renewed.ordering = s.ordering := by rw [plain.renewed_eq]
  have reversed : s.renewed.reversed = s.reversed := rfl
  rw [Select.allTerms, Select.effective_eq, ordering, reversed]
  cases s.reversed with
  | false => exact terms
  | true =>
    simp only [if_true]
    rw [OrderTerm.map_subst_flipAll, OrderTerm.compareAll_flipAll, OrderTerm.compareAll_flipAll,
      terms]

/-- A plain valid select keeps what it had if the subqueries in its source do. -/
theorem kept_of_sources {s : Select} (plain : s.Plain) (checks : s.Checks [])
    (labels : s.labels.Nodup) (sources : ∀ q ∈ s.sources, q.Kept) : s.Kept := by
  have kept := sourceKept sources labels
  obtain ⟨cs, hcs, -⟩ := s.exposed_eq .source
  have renewedColumns : s.renewed.columns = s.columns := by rw [plain.renewed_eq]
  have columns : (s.exposed .source).columns = s.columns ++ cs := by
    rw [hcs, ← renewedColumns]
    rfl
  have meaning : (s.exposed .source).meaning = s.renewed.meaning := by
    rw [hcs]
    rfl
  refine ⟨?_, fun x y => ?_⟩
  · intro name hname
    obtain ⟨c, hc, rfl⟩ := List.mem_map.1 hname
    have before : s.column? c.name = some c := column?_of_mem checks.names hc
    have after : (s.exposed .source).column? c.name = some c := by
      rw [column?, columns, List.find?_append, ← column?, before, Option.some_or]
    have resolves := (checks.clauses c.expr (mem_clauses_of_columns hc)).resolves
    rw [declared_eq, declared_eq, before, after, meaning]
    exact Expr.subst_congr fun r hr => kept.meaning r.1 r.2 (resolves r hr)
  · have names : (s.settled .source).1.columnNames.Nodup := by
      rw [settled_eq]
      show (s.renewed.columns.map (·.name)).Nodup
      rw [renewedColumns]
      exact checks.names
    have collapses : s.renewed.collapses = s.collapses := by rw [plain.renewed_eq]; rfl
    have settledMeaning : (s.settled .source).1.meaning = s.renewed.meaning := by
      rw [settled_eq]
      rfl
    rw [handed, exposed, compareAll_exposing names, settledMeaning, settled_eq, Source.effective]
    cases hcollapses : s.collapses with
    | true => simp [passed, passesOn, collapses, hcollapses]
    | false =>
      have passes : s.renewed.passed .source s.gathered = s.renewed.allTerms s.gathered := by
        simp [passed, passesOn, collapses, hcollapses]
      rw [passes, compareAll_allTerms plain checks kept]
      rfl

/-- **The subqueries in the source of a plain valid select keep what they had.** -/
theorem sources_kept {s : Select} (plain : s.Plain) (checks : s.Checks [])
    (labels : s.labels.Nodup) : ∀ q ∈ s.sources, q.Kept := by
  induction s using children_induction with
  | step s ih =>
    intro q hq
    obtain ⟨-, -, plains⟩ := plain
    have child : q ∈ s.children := List.mem_append_left _ (List.mem_append_left _ hq)
    have qchecks := check_eq_ok_iff.1 (checks.sources q hq)
    have qlabels := labels.sublist (labels_sublist_of_mem_children child)
    exact kept_of_sources (plains q hq) qchecks qlabels
      (ih q child (plains q hq) qchecks qlabels)

end Select

/-! ## Statements -/

/-- A valid query without subqueries in expressions can be settled, and if its select does not
collapse rows, the ordering of the result compares rows as its effective ordering does. -/
theorem Projection.placeOrderings_effective {p : Projection} (checks : p.Checks)
    (plain : p.select.Plain) :
    ∃ p', p.placeOrderings.result = .ok p' ∧ (p.select.collapses = false →
      ∀ {V : Type} [LinearOrder V] (x y : Valuation V),
        OrderTerm.compareAll x.value y.value
            (p'.select.ordering.map (OrderTerm.subst p'.select.meaning)) =
          OrderTerm.compareAll x.value y.value p.select.effective) := by
  have labels := Projection.nodup_select_labels checks.labels
  have schecks := Select.check_eq_ok_iff.1 checks.select
  have sources := Select.sources_kept plain schecks labels
  have kept := Select.sourceKept sources labels
  have resolvable := Select.resolvable plain.everywhere_conditions checks.select .nil
  refine ⟨_, Projection.placeOrderings_eq_ok_iff.2 ⟨resolvable, rfl⟩, fun collapses V _ x y => ?_⟩
  have receives : p.select.renewed.receives .outermost = true := by
    rw [plain.renewed_eq]
    simp only [Select.receives, Select.mayOrder, Bool.and_eq_true, Bool.not_eq_true']
    exact ⟨rfl, collapses⟩
  have ordering : (p.select.exposed .outermost).ordering =
      p.select.renewed.allTerms p.select.gathered := by
    rw [Select.exposed_of_ne_source (by decide), Select.settled_eq]
    simp only [Select.arranged, receives, if_true]
  have meaning : (p.select.exposed .outermost).meaning = p.select.renewed.meaning := by
    rw [Select.exposed_of_ne_source (by decide), Select.settled_eq]
    rfl
  show OrderTerm.compareAll x.value y.value ((p.select.exposed .outermost).ordering.map _) = _
  rw [ordering, meaning]
  exact Select.compareAll_allTerms plain schecks kept x y

/-- **Placing orderings keeps the effective ordering.** On a valid statement without subqueries in
expressions the pass succeeds. Of each query whose select does not collapse rows, the ordering of
the resulting select, expanded through the columns of the resulting tree, compares any two rows
exactly as the effective ordering of the select did. -/
theorem Statement.placeOrderings_keeps_effective {s : Statement} (valid : s.check = .ok ())
    (plain : ∀ e, Node.expr e ∈ s.nodes → e.query? = none) :
    ∃ s', s.placeOrderings.result = .ok s' ∧
      List.Forall₂ (fun p p' => p.select.collapses = false →
        ∀ {V : Type} [LinearOrder V] (x y : Valuation V),
          OrderTerm.compareAll x.value y.value
              (p'.select.ordering.map (OrderTerm.subst p'.select.meaning)) =
            OrderTerm.compareAll x.value y.value p.select.effective) s.queries s'.queries := by
  have each : ∀ p ∈ s.queries, p.Checks ∧ p.select.Plain := fun p hp =>
    ⟨Statement.check_eq_ok_iff.1 valid p hp, Select.plain_of_nodes fun e he =>
      plain e (List.mem_flatMap_of_mem hp (List.mem_append_left _ he))⟩
  cases run : s.placeOrderings.result with
  | error failure =>
    have failed : outcome s.placeOrderings () = .error failure := Traced.outcome_eq_error_iff.2 run
    obtain ⟨p, hp, st, hfail⟩ := Statement.exists_of_mapQueriesM_eq_error failed
    obtain ⟨p', ok, -⟩ := Projection.placeOrderings_effective (each p hp).1 (each p hp).2
    rw [Traced.outcome_eq_error_iff, ok] at hfail
    cases hfail
  | ok s' =>
    refine ⟨s', rfl, ?_⟩
    have first : outcome s.placeOrderings () = .ok (s', ()) := Traced.outcome_eq_ok_iff.2 run
    have steps := forall₂_of_outcome_mapM (Statement.of_outcome_mapQueriesM first)
    refine ((List.forall₂_and_left _ _).2 ⟨each, steps⟩).imp fun p p' h => ?_
    obtain ⟨⟨checks, splain⟩, st, st', step⟩ := h
    obtain ⟨q, ok, compares⟩ := Projection.placeOrderings_effective checks splain
    obtain rfl : q = p' := Except.ok.inj (ok.symm.trans (Traced.outcome_eq_ok_iff.1 step))
    exact compares

/-- Orders, the latest first, joined with customers by score; the select that reads both is reversed
and orders by the score as well. -/
def ordersOfCustomers : Select :=
  let orders : Select :=
    ⟨"a", [⟨"id", .column "o" "id", .int⟩], some (.table "orders" "o"), none,
      [⟨.column "o" "date", .ascending⟩], [], [], false, none, none, true⟩
  let customers : Select :=
    ⟨"b", [⟨"cid", .column "c" "id", .int⟩, ⟨"rank", .column "c" "score", .int⟩],
      some (.table "customers" "c"), none,
      [⟨.column "c" "score", .ascending⟩, ⟨.column "c" "id", .descending⟩], [], [], false, none,
      none, false⟩
  ⟨"q", [⟨"id", .column "a" "id", .int⟩],
    some (.join .inner (.subquery orders) (.subquery customers)
      (some (.binary .eq (.column "a" "id") (.column "b" "cid")))),
    none, [⟨.column "b" "rank", .descending⟩], [], [], false, none, none, true⟩

/-- Two rows with one score that differ in the date, which only the subquery orders by. -/
theorem Statement.placeOrderings_keeps_effective_ordersOfCustomers :
    ∃ s', (Statement.query ⟨ordersOfCustomers, .scalar (.column "q" "id")⟩).placeOrderings.result =
        .ok s' ∧
      ∀ p' ∈ s'.queries, OrderTerm.compareAll
        (Valuation.ofColumns (fun _ name => if name = "date" then 1 else 0) (0 : Nat)).value
        (Valuation.ofColumns (fun _ name => if name = "date" then 2 else 0) 0).value
        (p'.select.ordering.map (OrderTerm.subst p'.select.meaning)) = .lt := by
  have plain : ∀ n ∈ (Statement.query ⟨ordersOfCustomers, .scalar (.column "q" "id")⟩).nodes,
      ∀ e, n = .expr e → e.query? = none := by
    simp [Statement.nodes, Statement.queries, Projection.nodes, Projector.exprs, ordersOfCustomers,
      Select.nodes, Source.nodesOption, Source.nodes, Expr.nodesOption, Expr.nodes, Expr.query?]
  obtain ⟨s', placed, compares⟩ := Statement.placeOrderings_keeps_effective
    (s := .query ⟨ordersOfCustomers, .scalar (.column "q" "id")⟩) (by cbv)
    fun e he => plain _ he e rfl
  refine ⟨s', placed, fun p' hp' => ?_⟩
  obtain ⟨p, hp, same⟩ := exists_of_forall₂_of_mem compares hp'
  obtain rfl := List.mem_singleton.1 hp
  rw [same (by cbv)]
  cbv

end HiveQuery
