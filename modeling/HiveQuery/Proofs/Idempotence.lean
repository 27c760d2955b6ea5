import HiveQuery.Proofs.Placement
import Mathlib
/-!
# Placing orderings a second time

A second pass over a settled tree finds nothing left to do. The paged subqueries pass their terms on
again, but each of these terms has come up before: its column is there already, and the select that
receives it has a term for it that stands in front. A column that was added for a term may make a
select aggregating; it then passes nothing on, which is less than before.

The proof looks at one select at a time and uses what is known of the clauses of a settled select
(`Select.mem_clauses_exposed`).
-/

namespace HiveQuery

open Outcome

/-! ## A query before and after its orderings are placed -/

/-- Orders read by customer from a subquery, with the terms that each of the two keeps. The subquery
is paged; `extra` are the columns that it declares for its terms alone. -/
def ordersByCustomer (extra : List Column) (inner outer : List OrderTerm) (reversed : Bool) :
    Statement :=
  let paged : Select :=
    ⟨"i", [⟨"id", .column "o" "id", .int⟩, ⟨"customer", .column "o" "customer", .string⟩] ++ extra,
      some (.table "orders" "o"), none, inner, [], [], false, none, some 5, reversed⟩
  .query ⟨⟨"q", [⟨"id", .column "i" "id", .int⟩], some (.subquery paged), none, outer, [], [],
      false,
    none, none, false⟩, .scalar (.column "q" "id")⟩

/-- The subquery is reversed, repeats a term and orders by a date that it does not declare. -/
def latestOrders : Statement :=
  ordersByCustomer []
    [⟨.column "o" "date", .ascending⟩, ⟨.column "o" "id", .descending⟩,
      ⟨.column "o" "date", .descending⟩]
    [⟨.column "i" "customer", .ascending⟩] true

def latestOrdersPlaced : Statement :=
  ordersByCustomer [⟨"c0", .column "o" "date", .unknown⟩]
    [⟨.column "o" "date", .descending⟩, ⟨.column "o" "id", .ascending⟩]
    [⟨.column "i" "customer", .ascending⟩, ⟨.column "i" "c0", .descending⟩,
      ⟨.column "i" "id", .ascending⟩] false

/-! ## Settling brings no NaN and no resource -/

section AllNodes

variable {P : Node → Prop} (inherent : Node.Inherent P)
include inherent

/-- An inherent property of an expression holds of the settled one, if it holds of the exposed
subqueries. -/
theorem Expr.AllNodes.settled_of_subqueries {e : Expr} (h : e.AllNodes P)
    (subqueries : ∀ q ∈ e.subqueries, (q.exposed .expression).AllNodes P) :
    e.settled.AllNodes P := by
  induction e using Expr.parts_induction with
  | step e ih =>
    obtain ⟨own, parts, -⟩ := Expr.allNodes_iff.1 h
    rw [Expr.subqueries_eq] at subqueries
    simp only [List.forall_mem_append, List.forall_mem_flatMap, Option.mem_toList] at subqueries
    rw [Expr.settled_eq, Expr.allNodes_iff, Expr.parts_mapParts, Expr.query?_mapParts,
      List.forall_mem_map]
    refine ⟨inherent.withParts own _ _, fun p hp => ih p hp (parts p hp) (subqueries.1 p hp),
      fun q hq => ?_⟩
    obtain ⟨q₀, hq₀, rfl⟩ := Option.map_eq_some_iff.1 hq
    rw [← Select.exposed_of_ne_source (by decide)]
    exact subqueries.2 q₀ hq₀

/-- **Settling a select keeps what is inherent in its nodes.** -/
theorem Select.AllNodes.exposed {s : Select} (h : s.AllNodes P) (placement : Placement) :
    (s.exposed placement).AllNodes P := by
  induction s using Select.children_induction generalizing placement with
  | step s ih =>
    obtain ⟨-, conditions, clauses⟩ := (Select.allNodes_iff inherent).1 h
    have below := fun q hq => ih q hq (h.child inherent hq)
    simp only [Select.children, List.forall_mem_append, List.forall_mem_flatMap] at below
    rw [Select.allNodes_iff inherent, Select.sources_exposed, Select.conditions_exposed,
      List.forall_mem_map, List.forall_mem_map]
    refine ⟨fun q hq => below.1.1 q hq .source, fun e he => ?_, ?_⟩
    · exact (conditions e he).settled_of_subqueries inherent
        fun q hq => below.1.2 e he q hq .expression
    · intro e he
      rcases Select.mem_clauses_exposed he with ⟨e₀, he₀, rfl⟩ | ⟨t, ht, rfl⟩
      · exact (clauses e₀ he₀).settled_of_subqueries inherent
          fun q hq => below.2 e₀ he₀ q hq .expression
      · obtain ⟨label, name, ht⟩ := Select.expr_of_mem_gathered ht
        rw [ht]
        exact .column inherent label name

end AllNodes

/-- Placing orderings makes no NaN. -/
theorem Select.NaNFree.exposed {s : Select} (h : s.NaNFree) (placement : Placement) :
    (s.exposed placement).NaNFree :=
  Select.AllNodes.exposed Node.inherent_isNaN h placement

theorem Expr.NaNFree.settled {e : Expr} (h : e.NaNFree) : e.settled.NaNFree :=
  Expr.AllNodes.settled_of_subqueries Node.inherent_isNaN h
    fun _ hq => (h.subquery hq).exposed .expression

/-- What a select may order by equals itself. -/
theorem Select.Offers.beq_self {s : Select} (h : s.NaNFree) {e : Expr} (offers : s.Offers e) :
    (e == e) = true := by
  rcases offers with ⟨t, ht, rfl⟩ | ⟨t, ht, rfl⟩
  · have clause := (Select.naNFree_iff.1 h).2.2 t.expr (Select.mem_clauses_of_ordering ht)
    exact clause.settled.beq_self
  · obtain ⟨label, name, ht⟩ := Select.expr_of_mem_gathered ht
    rw [ht, Expr.beq_column_iff]

/-! ## A settled tree is at rest -/

/-- **The exposed select is at rest**: settling it again changes nothing, and it passes on only
terms that it has passed on before. -/
structure Select.Rests (s : Select) (placement : Placement) : Prop where
  settled : ((s.exposed placement).settled placement).1 = s.exposed placement
  passed : ∀ t ∈ ((s.exposed placement).settled placement).2,
    ∃ u ∈ (s.settled placement).2, t.expr = u.expr

/-- An expression is settled at once, if its subqueries rest. -/
theorem Expr.settled_settled_of_subqueries {e : Expr}
    (h : ∀ q ∈ e.subqueries, q.Rests .expression) : e.settled.settled = e.settled := by
  induction e using Expr.parts_induction with
  | step e ih =>
    rw [Expr.subqueries_eq] at h
    simp only [List.forall_mem_append, List.forall_mem_flatMap, Option.mem_toList] at h
    rw [Expr.settled_eq e, Expr.settled_eq (e.mapParts _ _)]
    refine Expr.mapParts_eq_self ?_ ?_
    · rw [Expr.parts_mapParts, List.forall_mem_map]
      exact fun p hp => ih p hp (h.1 p hp)
    · rw [Expr.query?_mapParts]
      intro q hq
      obtain ⟨q₀, hq₀, rfl⟩ := Option.map_eq_some_iff.1 hq
      have rests := (h.2 q₀ hq₀).settled
      rwa [Select.exposed_of_ne_source (by decide)] at rests

/-- The columns of a select at rest are found again under their names. -/
theorem Select.Rests.subquery {q : Select} (h : q.Rests .source) (free : q.NaNFree) :
    (Source.subquery (q.exposed .source)).settled.1 = .subquery (q.exposed .source) ∧
      ∀ t ∈ (Source.subquery (q.exposed .source)).settled.2,
        ∃ u ∈ q.handed .source, t.expr = u.expr := by
  obtain ⟨cs, hcs, -, declared, refs⟩ := (q.settled .source).1.exposing_spec
    fun t ht => (Select.offers_of_mem_passed ht).beq_self free
  have known : ∀ t ∈ ((q.exposed .source).settled .source).2,
      ((q.exposed .source).columnFor? t.expr).isSome := by
    intro t ht
    obtain ⟨u, hu, htu⟩ := h.passed t ht
    rw [htu, Select.exposed, hcs]
    exact declared u hu
  have again := Select.exposing_of_declared known
  have found : (Source.subquery (q.exposed .source)).settled =
      (.subquery (q.exposed .source), ((q.exposed .source).settled .source).2.map fun t =>
        ⟨(q.exposed .source).ref ((q.exposed .source).nameFor t.expr), t.direction⟩) := by
    rw [Source.settled_subquery, Select.exposed, Select.handed, h.settled, again]
  rw [found]
  refine ⟨rfl, fun t ht => ?_⟩
  obtain ⟨t₀, ht₀, rfl⟩ := List.mem_map.1 ht
  obtain ⟨u, hu, htu⟩ := h.passed t₀ ht₀
  refine ⟨_, by rw [Select.handed, refs]; exact List.mem_map_of_mem hu, ?_⟩
  show (q.exposed .source).ref ((q.exposed .source).nameFor t₀.expr) = _
  rw [htu, Select.exposed, hcs]
  rfl

/-- A source is at rest if its subqueries are. -/
theorem Source.settled_settled {source : Source} (free : ∀ q ∈ source.selects, q.NaNFree)
    (selects : ∀ q ∈ source.selects, q.Rests .source)
    (conditions : ∀ e ∈ source.conditions, e.settled.settled = e.settled) :
    source.settled.1.settled.1 = source.settled.1 ∧
      ∀ t ∈ source.settled.1.settled.2, ∃ u ∈ source.settled.2, t.expr = u.expr := by
  induction source using Source.join_induction with
  | table => simp [Source.settled]
  | subquery query =>
    simp only [Source.selects, List.forall_mem_singleton] at free selects
    rw [Source.settled_subquery query]
    exact selects.subquery free
  | join kind left right condition ihl ihr =>
    simp only [Source.selects, Source.conditions, List.forall_mem_append, Option.mem_toList]
      at free selects conditions
    obtain ⟨hl, hlt⟩ := ihl free.1 selects.1 conditions.1.1
    obtain ⟨hr, hrt⟩ := ihr free.2 selects.2 conditions.1.2
    have hc : (condition.map Expr.settled).map Expr.settled = condition.map Expr.settled := by
      cases condition with
      | none => rfl
      | some e => simp [conditions.2 e rfl]
    simp only [Source.settled, Expr.settledOption_eq, hl, hr, hc, List.mem_append, true_and]
    rintro t (ht | ht)
    · obtain ⟨u, hu, htu⟩ := hlt t ht
      exact ⟨u, .inl hu, htu⟩
    · obtain ⟨u, hu, htu⟩ := hrt t ht
      exact ⟨u, .inr hu, htu⟩

namespace Select

/-- What a select orders by has no repeats. -/
theorem new_allTerms (s : Select) (gathered : List OrderTerm) :
    OrderTerm.New [] (s.allTerms gathered) := by
  unfold allTerms
  split
  · exact OrderTerm.new_flipAll.2 (OrderTerm.new_keepNew [] _)
  · exact OrderTerm.new_keepNew [] _

theorem new_ownTerms (s : Select) : OrderTerm.New [] s.ownTerms := by
  unfold ownTerms
  split
  · exact OrderTerm.new_flipAll.2 (OrderTerm.new_keepNew [] _)
  · exact OrderTerm.new_keepNew [] _

/-- Every gathered term that equals itself is covered by the terms of the select. -/
theorem covers_allTerms (s : Select) {gathered : List OrderTerm} {t : OrderTerm}
    (ht : t ∈ gathered) (h : (t.expr == t.expr) = true) :
    OrderTerm.covers (s.allTerms gathered) t.expr := by
  have kept := OrderTerm.covers_withoutRepeats
    (List.mem_append_right (OrderTerm.withoutRepeats s.ordering) ht) h
  unfold allTerms
  split
  · rwa [OrderTerm.covers_flipAll]
  · exact kept

/-- A reference that is gathered is an expression of the terms. -/
theorem exists_mem_allTerms_of_gathered (s : Select) {gathered : List OrderTerm} {t : OrderTerm}
    (ht : t ∈ gathered) (h : ∃ label name, t.expr = .column label name) :
    ∃ u ∈ s.allTerms gathered, t.expr = u.expr := by
  obtain ⟨label, name, he⟩ := h
  have covered := s.covers_allTerms ht (by rw [he, Expr.beq_column_iff])
  obtain ⟨u, hu, heq⟩ := OrderTerm.covers_iff.1 covered
  rw [he, Expr.beq_column_iff] at heq
  exact ⟨u, hu, he.trans heq.symm⟩

/-- The terms of a select that is not reversed and has no repeats win over covered ones. -/
theorem allTerms_eq_ordering {s : Select} {gathered : List OrderTerm} (plain : s.reversed = false)
    (new : OrderTerm.New [] s.ordering)
    (covered : ∀ t ∈ gathered, OrderTerm.covers s.ordering t.expr) :
    s.allTerms gathered = s.ordering := by
  unfold allTerms
  rw [plain, OrderTerm.withoutRepeats_eq_self new,
    OrderTerm.withoutRepeats_append_eq_self new covered]
  rfl

/-- An ordering without repeats, not reversed, is kept as it is. -/
theorem ownTerms_eq_ordering {s : Select} (plain : s.reversed = false)
    (new : OrderTerm.New [] s.ordering) : s.ownTerms = s.ordering := by
  unfold ownTerms
  rw [plain, OrderTerm.withoutRepeats_eq_self new]
  rfl

/-- Columns at the end do not make a collapsing select plain. -/
theorem collapses_adding {s : Select} (h : s.collapses) (cs : List Column) :
    (s.adding cs).collapses := by
  simp only [collapses, hasAggregates, adding, List.any_append, Bool.or_eq_true] at h ⊢
  tauto

/-- A select whose source and clauses are settled is renewed to itself. -/
theorem renewed_eq_self {s : Select}
    (source : (s.source.map fun source => source.settled.1) = s.source)
    (clauses : ∀ e ∈ s.clauses, e.settled = e) : s.renewed = s := by
  rw [renewed_eq_of_clauses clauses, source]
  cases s
  rfl

/-- **The ordering that a select has kept is kept again.** -/
theorem arranged_adding_arranged (placement : Placement) (s : Select) (cs : List Column)
    {gathered gathered' : List OrderTerm}
    (refs : ∀ t ∈ gathered, ∃ label name, t.expr = .column label name)
    (known : ∀ t ∈ gathered', ∃ u ∈ gathered, t.expr = u.expr) :
    ((s.arranged placement gathered).adding cs).arranged placement gathered' =
      (s.arranged placement gathered).adding cs := by
  set e := (s.arranged placement gathered).adding cs with he
  have plain : e.reversed = false := rfl
  have mayOrder : e.mayOrder placement = s.mayOrder placement := rfl
  have kept : (if e.receives placement then e.allTerms gathered'
      else if e.mayOrder placement then e.ownTerms else []) = e.ordering := by
    by_cases may : s.mayOrder placement
    · by_cases collapses : s.collapses
      · -- The select has kept its own terms only, and collapsing it still does not receive any.
        have own : e.ordering = s.ownTerms := by
          simp [he, adding, arranged, receives, may, collapses]
        have still : e.receives placement = false := by
          simp [receives, collapses_adding (s := s.arranged placement gathered) collapses cs, he]
        rw [still, mayOrder, may, if_neg (by simp), if_pos rfl]
        exact ownTerms_eq_ordering plain (own ▸ new_ownTerms s)
      · have all : e.ordering = s.allTerms gathered := by
          simp [he, adding, arranged, receives, may, collapses]
        have new : OrderTerm.New [] e.ordering := all ▸ new_allTerms s gathered
        have covered : ∀ t ∈ gathered', OrderTerm.covers e.ordering t.expr := by
          intro t ht
          obtain ⟨u, hu, htu⟩ := known t ht
          obtain ⟨label, name, hu'⟩ := refs u hu
          rw [all, htu]
          exact s.covers_allTerms hu (by rw [hu', Expr.beq_column_iff])
        -- A column added for a term may aggregate; then the select only keeps what it has.
        rw [mayOrder, may, allTerms_eq_ordering plain new covered, ownTerms_eq_ordering plain new]
        simp
    · have none : e.ordering = [] := by
        simp [he, adding, arranged, receives, may]
      rw [none, receives, mayOrder]
      simp [may]
  rw [arranged, kept]
  rfl

theorem exists_passed_of_passed_again (placement : Placement) (s : Select) (cs : List Column)
    {gathered gathered' : List OrderTerm}
    (refs : ∀ t ∈ gathered, ∃ label name, t.expr = .column label name)
    (known : ∀ t ∈ gathered', ∃ u ∈ gathered, t.expr = u.expr) :
    ∀ t ∈ ((s.arranged placement gathered).adding cs).passed placement gathered',
      ∃ u ∈ s.passed placement gathered, t.expr = u.expr := by
  set e := (s.arranged placement gathered).adding cs with he
  intro t ht
  unfold passed at ht
  split at ht
  · next passes =>
    have collapses : s.collapses = false := by
      by_contra h
      have before : (s.arranged placement gathered).collapses = true := by
        show s.collapses = true
        simpa using h
      have after : e.collapses = true := collapses_adding before cs
      simp [passesOn, after] at passes
    have before : s.passed placement gathered = s.allTerms gathered := by
      have source : s.passesOn placement = true := by
        simp only [passesOn, Bool.and_eq_true] at passes ⊢
        exact ⟨passes.1, by simp [collapses]⟩
      rw [passed, if_pos source]
    have plain : e.reversed = false := rfl
    rw [allTerms, plain] at ht
    rw [before]
    rcases List.mem_append.1 (OrderTerm.mem_of_mem_withoutRepeats ht) with ht | ht
    · -- A term of the select itself is kept only by a paged select, which passes it on as well.
      have ht := OrderTerm.mem_of_mem_withoutRepeats ht
      by_cases may : s.mayOrder placement
      · refine ⟨t, ?_, rfl⟩
        simpa [he, adding, arranged, receives, may, collapses] using ht
      · simp [he, adding, arranged, receives, may] at ht
    · obtain ⟨u, hu, htu⟩ := known t ht
      obtain ⟨v, hv, huv⟩ := s.exists_mem_allTerms_of_gathered hu (refs u hu)
      exact ⟨v, hv, htu.trans huv⟩
  · simp at ht

end Select

/-- **A settled select is at rest**, wherever it stands. -/
theorem Select.NaNFree.rests {s : Select} (h : s.NaNFree) (placement : Placement) :
    s.Rests placement := by
  induction s using Select.children_induction generalizing placement with
  | step s ih =>
    have below := fun q hq => ih q hq (h.child hq)
    simp only [Select.children, List.forall_mem_append, List.forall_mem_flatMap] at below
    have sources := (Select.naNFree_iff.1 h).1
    have source : ∀ source ∈ s.source, source.settled.1.settled.1 = source.settled.1 ∧
        ∀ t ∈ source.settled.1.settled.2, ∃ u ∈ source.settled.2, t.expr = u.expr := by
      intro source hs
      have hs' : source ∈ s.source.toList := Option.mem_toList.2 hs
      refine Source.settled_settled (fun q hq => sources q (List.mem_flatMap_of_mem hs' hq))
        (fun q hq => below.1.1 q (List.mem_flatMap_of_mem hs' hq) .source) fun e he => ?_
      exact Expr.settled_settled_of_subqueries fun q hq =>
        below.1.2 e (List.mem_flatMap_of_mem hs' he) q hq .expression
    have renewed : (s.exposed placement).renewed = s.exposed placement := by
      refine Select.renewed_eq_self ?_ fun e he => ?_
      · rw [Select.source_exposed]
        cases hs : s.source with
        | none => rfl
        | some src => simp only [Option.map_some, (source src hs).1]
      · rcases Select.mem_clauses_exposed he with ⟨e₀, he₀, rfl⟩ | ⟨t, ht, rfl⟩
        · exact Expr.settled_settled_of_subqueries fun q hq => below.2 e₀ he₀ q hq .expression
        · obtain ⟨label, name, ht⟩ := Select.expr_of_mem_gathered ht
          rw [ht, Expr.settled]
    have known : ∀ t ∈ (s.exposed placement).gathered, ∃ u ∈ s.gathered, t.expr = u.expr := by
      intro t ht
      rw [Select.gathered, Select.source_exposed, Option.toList_map, List.flatMap_map] at ht
      obtain ⟨src, hs, ht⟩ := List.mem_flatMap.1 ht
      obtain ⟨u, hu, htu⟩ := (source src (Option.mem_toList.1 hs)).2 t ht
      exact ⟨u, List.mem_flatMap_of_mem hs hu, htu⟩
    obtain ⟨cs, hcs, -⟩ := s.exposed_eq placement
    have refs := fun t (ht : t ∈ s.gathered) => Select.expr_of_mem_gathered ht
    constructor
    · rw [Select.settled_eq, renewed]
      conv_lhs => rw [hcs]
      rw [hcs] at known ⊢
      exact Select.arranged_adding_arranged placement s.renewed cs refs known
    · rw [Select.settled_eq, Select.settled_eq placement s, renewed]
      rw [hcs] at known ⊢
      exact Select.exists_passed_of_passed_again placement s.renewed cs refs known

/-! ## A settled tree resolves -/

theorem Select.NaNFree.source {s : Select} (h : s.NaNFree) {source : Source}
    (hs : source ∈ s.source) : source.NaNFree := by
  obtain ⟨sources, conditions, -⟩ := Select.naNFree_iff.1 h
  have hs' : source ∈ s.source.toList := Option.mem_toList.2 hs
  exact Source.naNFree_iff.2 ⟨fun q hq => sources q (List.mem_flatMap_of_mem hs' hq),
    fun e he => conditions e (List.mem_flatMap_of_mem hs' he)⟩

namespace Source

/-- **A source without a NaN is settled at once.** -/
theorem NaNFree.settled_settled {source : Source} (h : source.NaNFree) :
    source.settled.1.settled.1 = source.settled.1 := by
  obtain ⟨selects, conditions⟩ := naNFree_iff.1 h
  exact (Source.settled_settled selects (fun q hq => (selects q hq).rests .source) fun e he =>
    Expr.settled_settled_of_subqueries fun q hq =>
      ((conditions e he).subquery hq).rests .expression).1

/-- The conditions of a settled source, in the frames that they had. -/
theorem framedConditions_settled {source : Source} (free : source.NaNFree) :
    source.settled.1.framedConditions =
      source.framedConditions.map fun c => (c.1, c.2.settled) := by
  induction source using Source.join_induction with
  | table => rfl
  | subquery query => rw [settled_subquery]; rfl
  | join kind left right condition ihl ihr =>
    rw [naNFree_iff] at free
    simp only [Source.selects, Source.conditions, List.forall_mem_append] at free
    have leftFree : left.NaNFree := naNFree_iff.2 ⟨free.1.1, free.2.1.1⟩
    have rightFree : right.NaNFree := naNFree_iff.2 ⟨free.1.2, free.2.1.2⟩
    simp only [Source.settled, framedConditions, ihl leftFree, ihr rightFree,
      leftFree.settled_settled, rightFree.settled_settled, List.map_append, Expr.settledOption_eq,
      Option.toList_map, List.map_map, Function.comp_def]

end Source

theorem Select.NaNFree.renewed_exposed {s : Select} (h : s.NaNFree) (placement : Placement) :
    (s.exposed placement).renewed.frame = s.renewed.frame := by
  unfold Select.frame Select.renewed
  simp only [Select.source_exposed]
  cases hs : s.source with
  | none => rfl
  | some source => simp only [Option.map_some, (h.source hs).settled_settled]

/-- The terms of a settled select resolve where its clauses stand: a gathered one refers to the
subquery that it comes from, if no label is declared twice. -/
theorem Select.resolves_of_mem_ordering_exposed {s : Select} (labels : s.labels.Nodup)
    {scope : Scope}
    (terms : ∀ t ∈ s.ordering, ∀ r ∈ t.expr.localRefs,
      Scope.error? (s.renewed.frame :: scope) r = none)
    {placement : Placement} {t : OrderTerm} (ht : t ∈ (s.exposed placement).ordering) :
    ∀ r ∈ t.expr.localRefs, Scope.error? (s.renewed.frame :: scope) r = none := by
  obtain ⟨cs, hcs, -⟩ := s.exposed_eq placement
  have kept : t ∈ (s.settled placement).1.ordering := by
    rw [hcs] at ht
    rw [Select.settled_eq]
    exact ht
  rcases Select.offers_of_mem_ordering kept with ⟨o, ho, he⟩ | ⟨g, hg, he⟩
  · rw [he, Expr.localRefs_settled]
    exact terms o ho
  · rw [he]
    exact Select.resolves_of_mem_gathered labels hg scope

/-- **A resolvable select is resolvable once it is settled**, if no label is declared twice. -/
theorem Select.Resolvable.exposed {s : Select} {scope : Scope} (h : s.Resolvable scope)
    (free : s.NaNFree) (labels : s.labels.Nodup) (placement : Placement) :
    (s.exposed placement).Resolvable scope := by
  induction s using Select.children_induction generalizing scope placement with
  | step s ih =>
    obtain ⟨sources, conditions, clauses, terms⟩ := h
    have below : ∀ q ∈ s.children, ∀ {scope}, q.Resolvable scope → ∀ placement,
        (q.exposed placement).Resolvable scope := fun q hq _ hr placement =>
      ih q hq hr (free.child hq) (labels.sublist (Select.labels_sublist_of_mem_children hq))
        placement
    simp only [Select.children, List.forall_mem_append, List.forall_mem_flatMap] at below
    constructor
    · rw [Select.sources_exposed, List.forall_mem_map]
      exact fun q hq => below.1.1 q hq (sources q hq) .source
    · rw [Select.source_exposed]
      intro settled hsettled
      obtain ⟨source, hs, rfl⟩ := Option.map_eq_some_iff.1 hsettled
      rw [Source.framedConditions_settled (free.source hs), List.forall_mem_map]
      intro c hc q hq
      obtain ⟨q₀, hq₀, rfl⟩ := Select.mem_subqueries_settled.1 hq
      have condition : c.2 ∈ s.conditions :=
        List.mem_flatMap_of_mem (Option.mem_toList.2 hs) (Source.mem_conditions_of_framed hc)
      exact below.1.2 c.2 condition q₀ hq₀ (conditions source hs c hc q₀ hq₀) .expression
    · rw [free.renewed_exposed]
      intro e he q hq
      rcases Select.mem_clauses_exposed he with ⟨e₀, he₀, rfl⟩ | ⟨t, ht, rfl⟩
      · obtain ⟨q₀, hq₀, rfl⟩ := Select.mem_subqueries_settled.1 hq
        exact below.2 e₀ he₀ q₀ hq₀ (clauses e₀ he₀ q₀ hq₀) .expression
      · rw [Select.subqueries_of_mem_gathered ht] at hq
        cases hq
    · rw [free.renewed_exposed]
      exact fun t ht => Select.resolves_of_mem_ordering_exposed labels terms ht

/-! ## Statements -/

/-- The select of a query has no NaN if the statement has none. -/
theorem Statement.NaNFree.select {s : Statement} (h : s.NaNFree) {p : Projection}
    (hp : p ∈ s.queries) : p.select.NaNFree := fun n hn =>
  h n (List.mem_flatMap_of_mem hp (List.mem_append_left _ hn))

/-- **Placing orderings twice is placing them once**: on a statement without a NaN whose queries
declare no label twice, the second run succeeds and returns what the first has returned. -/
theorem Statement.placeOrderings_idempotent {s s' : Statement} (free : s.NaNFree)
    (labels : ∀ p ∈ s.queries, p.labels.Nodup) (h : s.placeOrderings.result = .ok s') :
    s'.placeOrderings.result = .ok s' := by
  have first : outcome s.placeOrderings () = .ok (s', ()) := Traced.outcome_eq_ok_iff.2 h
  have steps := forall₂_of_outcome_mapM (Statement.of_outcome_mapQueriesM first)
  have rest : ∀ p' ∈ s'.queries, p'.placeOrderings.result = .ok p' := by
    intro p' hp'
    obtain ⟨p, hp, st, st', step⟩ := exists_of_forall₂_of_mem steps hp'
    have run : p.placeOrderings.result = .ok p' := Traced.outcome_eq_ok_iff.1 step
    obtain ⟨resolvable, rfl⟩ := Projection.placeOrderings_eq_ok_iff.1 run
    have pfree := free.select hp
    refine Projection.placeOrderings_eq_ok_iff.2 ⟨?_, ?_⟩
    · exact resolvable.exposed pfree (Projection.nodup_select_labels (labels p hp)) .outermost
    · have fixed := (pfree.rests .outermost).settled
      rw [← Select.exposed_of_ne_source (by decide)] at fixed
      simp only [fixed]
  have second : outcome s'.placeOrderings () = .ok (s', ()) :=
    Statement.mapQueriesM_eq_self fun p' hp' _ => Traced.outcome_eq_ok_iff.2 (rest p' hp')
  exact Traced.outcome_eq_ok_iff.1 second

/-- The first run lifts the terms of the reversed subquery, and the second one finds nothing to
do. -/
theorem Statement.placeOrderings_idempotent_latestOrders :
    latestOrders.placeOrderings.result = .ok latestOrdersPlaced ∧
      latestOrdersPlaced.placeOrderings.result = .ok latestOrdersPlaced := by
  have placed : latestOrders.placeOrderings.result = .ok latestOrdersPlaced := by cbv
  have free : latestOrders.NaNFree := by
    unfold Statement.NaNFree
    decide
  exact ⟨placed, Statement.placeOrderings_idempotent free (by decide) placed⟩

end HiveQuery
