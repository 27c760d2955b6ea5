import HiveQuery.Proofs.Levels
import HiveQuery.Validity
/-!
# What the checks accept

The checks walk a statement in a fixed order and stop at the first fault. Whether they find one does
not depend on the order: a select passes exactly if its column names differ, the selects it reads
pass, and every expression of it is accepted in the scope of its source (`Select.check_eq_ok_iff`).
An expression is accepted if its own references resolve and its subqueries pass.
-/

namespace HiveQuery

/-! ## Sequences of checks -/

/-- A check after a check passes exactly if both do. -/
theorem seq_eq_ok_iff {a : Except Failure Unit} {b : Unit → Except Failure Unit} :
    (a >>= b) = .ok () ↔ a = .ok () ∧ b () = .ok () := by
  cases a <;> simp [bind, Except.bind]

/-- No item is found repeated exactly if the items differ from each other and from those seen. -/
theorem firstRepeated?_eq_none_iff {seen items : List String} :
    firstRepeated? seen items = none ↔ items.Nodup ∧ ∀ item ∈ items, item ∉ seen := by
  induction items generalizing seen with
  | nil => simp [firstRepeated?]
  | cons item items ih =>
    rw [firstRepeated?, List.nodup_cons]
    by_cases h : item ∈ seen
    · simp [h]
    · rw [if_neg (by simpa using h), ih]
      simp only [List.mem_cons, not_or, forall_eq_or_imp]
      constructor
      · rintro ⟨hnodup, hnew⟩
        exact ⟨⟨fun hmem => (hnew item hmem).1 rfl, hnodup⟩, h, fun i hi => (hnew i hi).2⟩
      · rintro ⟨⟨hitem, hnodup⟩, -, hnew⟩
        exact ⟨hnodup, fun i hi => ⟨fun heq => hitem (heq ▸ hi), hnew i hi⟩⟩

/-- No item is found repeated exactly if all differ. -/
theorem firstRepeated?_nil_eq_none_iff {items : List String} :
    firstRepeated? [] items = none ↔ items.Nodup := by
  simp [firstRepeated?_eq_none_iff]

/-- The names of a select pass if no two columns have the same. -/
theorem Select.checkNames_eq_ok_iff {s : Select} :
    s.checkNames = .ok () ↔ s.columnNames.Nodup := by
  rw [Select.checkNames, ← firstRepeated?_nil_eq_none_iff]
  cases firstRepeated? [] s.columnNames <;> simp

/-! ## Expressions -/

namespace Scope

/-- Every reference that an expression makes itself resolves. -/
theorem exprError?_eq_none_iff {scope : Scope} {e : Expr} :
    scope.exprError? e = none ↔ ∀ r ∈ e.localRefs, scope.error? r = none := by
  rw [exprError?, List.findSome?_eq_none_iff]

/-- The expression may stand in a clause whose scope this is. -/
structure Accepts (scope : Scope) (e : Expr) : Prop where
  resolves : ∀ r ∈ e.localRefs, scope.error? r = none
  queries : ∀ q ∈ e.subqueries, q.check scope = .ok ()

/-- An expression passes if every reference on its own level resolves. -/
theorem checkExpr_eq_ok_iff {scope : Scope} {label : String} {e : Expr} :
    scope.checkExpr label e = .ok () ↔ ∀ r ∈ e.localRefs, scope.error? r = none := by
  rw [← exprError?_eq_none_iff, checkExpr]
  cases scope.exprError? e <;> simp

end Scope

variable {scope : Scope} {label : String}

/-- The subqueries of several expressions pass if those of each do. -/
theorem Expr.checkQueriesList_eq_ok_iff {es : List Expr} :
    Expr.checkQueriesList scope es = .ok () ↔ ∀ e ∈ es, e.checkQueries scope = .ok () := by
  induction es with
  | nil => simp [Expr.checkQueriesList]
  | cons e es ih => simp [Expr.checkQueriesList, seq_eq_ok_iff, ih]

theorem Expr.checkQueriesOption_eq_ok_iff {o : Option Expr} :
    Expr.checkQueriesOption scope o = .ok () ↔ ∀ e ∈ o, e.checkQueries scope = .ok () := by
  cases o <;> simp [Expr.checkQueriesOption]

/-- The subqueries of branches pass if those of their conditions and results do. -/
theorem Branch.checkQueriesList_eq_ok_iff {bs : List Branch} :
    Branch.checkQueriesList scope bs = .ok () ↔
      ∀ e ∈ bs.flatMap Branch.parts, e.checkQueries scope = .ok () := by
  induction bs with
  | nil => simp [Branch.checkQueriesList]
  | cons b bs ih => cases b; simp [Branch.checkQueriesList, seq_eq_ok_iff, ih]

/-- The subqueries of terms pass if those of what they order by do. -/
theorem OrderTerm.checkQueriesList_eq_ok_iff {ts : List OrderTerm} :
    OrderTerm.checkQueriesList scope ts = .ok () ↔
      ∀ e ∈ ts.map (·.expr), e.checkQueries scope = .ok () := by
  induction ts with
  | nil => simp [OrderTerm.checkQueriesList]
  | cons t ts ih => cases t; simp_all [OrderTerm.checkQueriesList, seq_eq_ok_iff]

/-- The parts of an expression are checked, and then its select. -/
theorem Expr.checkQueries_parts {e : Expr} :
    e.checkQueries scope = .ok () ↔
      (∀ p ∈ e.parts, p.checkQueries scope = .ok ()) ∧ ∀ q ∈ e.query?, q.check scope = .ok () := by
  cases e <;>
    simp [Expr.checkQueries, Expr.parts, Expr.query?, seq_eq_ok_iff, or_imp, forall_and,
      Expr.checkQueriesList_eq_ok_iff, Expr.checkQueriesOption_eq_ok_iff,
      Branch.checkQueriesList_eq_ok_iff, OrderTerm.checkQueriesList_eq_ok_iff]

/-- **The subqueries of an expression pass if each of them does.** By induction on the parts. -/
theorem Expr.checkQueries_eq_ok_iff {e : Expr} :
    e.checkQueries scope = .ok () ↔ ∀ q ∈ e.subqueries, q.check scope = .ok () := by
  induction e using Expr.parts_induction with
  | step e ih =>
    rw [Expr.checkQueries_parts, Expr.subqueries_eq]
    simp only [List.mem_append, List.mem_flatMap, Option.mem_toList, or_imp, forall_and,
      forall_exists_index, and_imp]
    refine and_congr ⟨fun h q p hp => ?_, fun h p hp => ?_⟩ Iff.rfl
    · exact (ih p hp).1 (h p hp) q
    · exact (ih p hp).2 fun q => h q p hp

/-! ## Clauses -/

/-- The two checks of an expression in a clause say together that the scope accepts it. -/
theorem Scope.accepts_iff (label : String) {e : Expr} :
    (scope.checkExpr label e = .ok () ∧ e.checkQueries scope = .ok ()) ↔ scope.Accepts e := by
  rw [Scope.checkExpr_eq_ok_iff, Expr.checkQueries_eq_ok_iff]
  exact ⟨fun h => ⟨h.1, h.2⟩, fun h => ⟨h.resolves, h.queries⟩⟩

/-- A clause of expressions passes if its scope accepts each of them. -/
theorem Expr.checkList_eq_ok_iff {es : List Expr} :
    Expr.checkList scope label es = .ok () ↔ ∀ e ∈ es, scope.Accepts e := by
  induction es with
  | nil => simp [Expr.checkList]
  | cons e es ih =>
    simp [Expr.checkList, seq_eq_ok_iff, ih, ← Scope.accepts_iff label, and_assoc]

theorem Expr.checkOption_eq_ok_iff {o : Option Expr} :
    Expr.checkOption scope label o = .ok () ↔ ∀ e ∈ o, scope.Accepts e := by
  cases o <;>
    simp [Expr.checkOption, seq_eq_ok_iff, ← Scope.accepts_iff label]

/-- An ordering passes if its scope accepts what its terms order by. -/
theorem OrderTerm.checkList_eq_ok_iff {ts : List OrderTerm} :
    OrderTerm.checkList scope label ts = .ok () ↔ ∀ t ∈ ts, scope.Accepts t.expr := by
  induction ts with
  | nil => simp [OrderTerm.checkList]
  | cons t ts ih =>
    cases t
    simp [OrderTerm.checkList, seq_eq_ok_iff, ih, ← Scope.accepts_iff label, and_assoc]

/-- The columns pass if their scope accepts their expressions. -/
theorem Column.checkList_eq_ok_iff {cs : List Column} :
    Column.checkList scope label cs = .ok () ↔ ∀ c ∈ cs, scope.Accepts c.expr := by
  induction cs with
  | nil => simp [Column.checkList]
  | cons c cs ih =>
    cases c
    simp [Column.checkList, seq_eq_ok_iff, ih, ← Scope.accepts_iff label, and_assoc]

/-- A source passes if its subqueries do. They see what is around the select and not each other. -/
theorem Source.check_eq_ok_iff {source : Source} :
    source.check scope = .ok () ↔ ∀ q ∈ source.selects, q.check scope = .ok () := by
  induction source using Source.join_induction with
  | table => simp [Source.check, Source.selects]
  | subquery => simp [Source.check, Source.selects]
  | join kind left right condition hl hr =>
    simp [Source.check, Source.selects, seq_eq_ok_iff, hl, hr, or_imp, forall_and]

/-- The conditions of the joins pass if the scope of the whole source accepts them. -/
theorem Source.checkConditions_eq_ok_iff {source : Source} :
    source.checkConditions scope label = .ok () ↔ ∀ e ∈ source.conditions, scope.Accepts e := by
  induction source using Source.join_induction with
  | table => simp [Source.checkConditions, Source.conditions]
  | subquery => simp [Source.checkConditions, Source.conditions]
  | join kind left right condition hl hr =>
    simp [Source.checkConditions, Source.conditions, seq_eq_ok_iff, hl, hr, or_imp, forall_and,
      Expr.checkOption_eq_ok_iff]

/-! ## Selects -/

namespace Select

/-- The labels that the source of a select declares. -/
def frame (s : Select) : Frame :=
  Source.frameOption s.source

/-- **What a valid select is.** The selects of its source see what is around it; its own
expressions, the conditions of its joins among them, see its source as well. -/
structure Checks (scope : Scope) (s : Select) : Prop where
  names : s.columnNames.Nodup
  sources : ∀ q ∈ s.sources, q.check scope = .ok ()
  clauses : ∀ e ∈ s.clauses, Scope.Accepts (s.frame :: scope) e
  conditions : ∀ e ∈ s.conditions, Scope.Accepts (s.frame :: scope) e

/-- **The check of a select passes exactly if the select is valid.** -/
theorem check_eq_ok_iff {s : Select} : s.check scope = .ok () ↔ s.Checks scope := by
  obtain ⟨label, columns, source, filter, ordering, grouping, clustering, distinct, skip, take,
    reversed⟩ := s
  have hsource : Source.checkOption scope source = .ok () ↔
      ∀ q ∈ source.toList.flatMap Source.selects, q.check scope = .ok () := by
    cases source <;> simp [Source.checkOption, Source.check_eq_ok_iff]
  have hconditions : ∀ inner : Scope, Source.checkConditionsOption inner label source = .ok () ↔
      ∀ e ∈ source.toList.flatMap Source.conditions, inner.Accepts e := by
    intro inner
    cases source <;> simp [Source.checkConditionsOption, Source.checkConditions_eq_ok_iff]
  rw [Select.check]
  simp only [seq_eq_ok_iff, checkNames_eq_ok_iff, hsource, hconditions, Column.checkList_eq_ok_iff,
    Expr.checkOption_eq_ok_iff, Expr.checkList_eq_ok_iff, OrderTerm.checkList_eq_ok_iff]
  constructor
  · rintro ⟨hnames, hsources, hcolumns, hfilter, hordering, hgrouping, hclustering, hconds⟩
    refine ⟨hnames, hsources, fun e he => ?_, hconds⟩
    simp only [Select.clauses, List.mem_append, List.mem_map, Option.mem_toList] at he
    rcases he with (((⟨c, hc, rfl⟩ | he) | ⟨t, ht, rfl⟩) | he) | he
    · exact hcolumns c hc
    · exact hfilter e he
    · exact hordering t ht
    · exact hgrouping e he
    · exact hclustering e he
  · rintro ⟨hnames, hsources, hclauses, hconds⟩
    simp only [Select.clauses, List.mem_append, List.mem_map, Option.mem_toList] at hclauses
    exact ⟨hnames, hsources,
      fun c hc => hclauses _ (.inl (.inl (.inl (.inl ⟨c, hc, rfl⟩)))),
      fun e he => hclauses e (.inl (.inl (.inl (.inr he)))),
      fun t ht => hclauses _ (.inl (.inl (.inr ⟨t, ht, rfl⟩))),
      fun e he => hclauses e (.inl (.inr he)), fun e he => hclauses e (.inr he), hconds⟩

end Select

/-! ## Queries and statements -/

/-- **What a valid query is.** -/
structure Projection.Checks (p : Projection) : Prop where
  labels : p.labels.Nodup
  select : p.select.check [] = .ok ()
  projector : ∀ e ∈ p.projector.exprs, ∀ r ∈ e.localRefs,
    Scope.error? [(Source.subquery p.select).frame] r = none

/-- The labels of a query pass if no two selects or tables of it have the same. -/
theorem Projection.checkLabels_eq_ok_iff {p : Projection} :
    p.checkLabels = .ok () ↔ p.labels.Nodup := by
  rw [Projection.checkLabels, ← firstRepeated?_nil_eq_none_iff]
  cases firstRepeated? [] p.labels <;> simp

/-- The projector passes if all it refers to are columns of the select. -/
theorem Projection.checkProjector_eq_ok_iff {p : Projection} :
    p.checkProjector = .ok () ↔ ∀ e ∈ p.projector.exprs, ∀ r ∈ e.localRefs,
      Scope.error? [(Source.subquery p.select).frame] r = none := by
  simp only [← Scope.exprError?_eq_none_iff]
  rw [← List.findSome?_eq_none_iff, Projection.checkProjector]
  cases p.projector.exprs.findSome? (Scope.exprError? [(Source.subquery p.select).frame]) <;> simp

/-- **The check of a query passes exactly if the query is valid.** -/
theorem Projection.check_eq_ok_iff {p : Projection} : p.check = .ok () ↔ p.Checks := by
  rw [Projection.check, seq_eq_ok_iff, seq_eq_ok_iff, checkLabels_eq_ok_iff,
    checkProjector_eq_ok_iff]
  exact ⟨fun h => ⟨h.1, h.2.1, h.2.2⟩, fun h => ⟨h.labels, h.select, h.projector⟩⟩

/-- **The check of a statement passes exactly if all its queries are valid.** -/
theorem Statement.check_eq_ok_iff {s : Statement} :
    s.check = .ok () ↔ ∀ p ∈ s.queries, p.Checks := by
  rw [Statement.check]
  induction s.queries with
  | nil => simp [pure, Except.pure]
  | cons p ps ih =>
    change (p.check >>= fun _ => ps.forM Projection.check) = .ok () ↔ _
    rw [seq_eq_ok_iff, Projection.check_eq_ok_iff, ih]
    simp

end HiveQuery
