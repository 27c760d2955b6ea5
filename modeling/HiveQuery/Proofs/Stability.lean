import HiveQuery.Proofs.Idempotence
import HiveQuery.Proofs.Remnants
/-!
# Placing the orderings of a compiled statement

Once a statement is compiled, only its top selects are ordered and nothing is paged. Placing its
orderings once more therefore moves nothing: below the top it finds no term, and the top keeps its
own. What it may still do is drop terms. Columns of a subquery that declare the same expression are
merged after the orderings were placed last, and two terms that referred to two of them become the
same reference. `Compiler.lower_placed_again` says that this is all that can happen.
-/

namespace HiveQuery

/-! ## Terms that differ -/

namespace OrderTerm

/-- The expressions of the terms differ from each other. -/
def Differ (ts : List OrderTerm) : Prop :=
  ts.Pairwise fun t u => (t.expr == u.expr) = false

instance (ts : List OrderTerm) : Decidable (Differ ts) :=
  inferInstanceAs (Decidable (ts.Pairwise _))

/-- Terms are new if none is covered before them and no two are equal. -/
theorem new_iff {kept ts : List OrderTerm} :
    New kept ts ↔ (∀ t ∈ ts, ¬ covers kept t.expr) ∧ Differ ts := by
  induction ts generalizing kept with
  | nil => simp [New, Differ]
  | cons t ts ih =>
    have step : ∀ u : OrderTerm, ¬ covers (kept ++ [t]) u.expr ↔
        ¬ covers kept u.expr ∧ (t.expr == u.expr) = false := by
      intro u
      simp [covers]
    simp only [New, ih, step, Differ, List.pairwise_cons, List.forall_mem_cons]
    constructor
    · rintro ⟨here, new, differ⟩
      exact ⟨⟨here, fun u hu => (new u hu).1⟩, fun u hu => (new u hu).2, differ⟩
    · rintro ⟨⟨here, new⟩, first, differ⟩
      exact ⟨here, fun u hu => ⟨new u hu, first u hu⟩, differ⟩

theorem new_nil_iff {ts : List OrderTerm} : New [] ts ↔ Differ ts := by
  simp [new_iff, covers]

/-- **Dropping repeats drops nothing exactly if there are none.** -/
theorem withoutRepeats_eq_self_iff {ts : List OrderTerm} : withoutRepeats ts = ts ↔ Differ ts := by
  rw [← new_nil_iff]
  refine ⟨fun h => ?_, withoutRepeats_eq_self⟩
  rw [← h]
  exact new_keepNew [] ts

/-- Once repeats are dropped there are none. -/
theorem withoutRepeats_withoutRepeats (ts : List OrderTerm) :
    withoutRepeats (withoutRepeats ts) = withoutRepeats ts :=
  withoutRepeats_eq_self (new_keepNew [] ts)

end OrderTerm

/-! ## Where nothing is ordered -/

/-- A source of settled subqueries that pass nothing on is settled. -/
theorem Source.settled_eq_self {source : Source}
    (selects : ∀ q ∈ source.selects, q.settled .source = (q, []))
    (conditions : ∀ e ∈ source.conditions, e.settled = e) : source.settled = (source, []) := by
  induction source using Source.join_induction with
  | table => rfl
  | subquery query =>
    have settled := selects query (List.mem_singleton_self _)
    rw [Source.settled, settled]
    rfl
  | join kind left right condition ihl ihr =>
    simp only [Source.selects, Source.conditions, List.forall_mem_append, Option.mem_toList]
      at selects conditions
    have kept : condition.map Expr.settled = condition := by
      cases condition with
      | none => rfl
      | some e => rw [Option.map_some, conditions.2 e rfl]
    rw [Source.settled, ihl selects.1 conditions.1.1, ihr selects.2 conditions.1.2,
      Expr.settledOption_eq, kept]
    rfl

namespace Select

variable {s : Select}

/-- The select is settled to itself wherever it stands, and passes no term on. -/
def Still (s : Select) : Prop :=
  ∀ placement, s.settled placement = (s, [])

/-- A select above still ones is renewed to itself and gathers nothing. -/
theorem renewed_of_still (h : ∀ c ∈ s.children, c.Still) : s.renewed = s ∧ s.gathered = [] := by
  simp only [children, List.forall_mem_append, List.forall_mem_flatMap] at h
  obtain ⟨⟨sources, conditions⟩, clauses⟩ := h
  have source : ∀ source ∈ s.source, source.settled = (source, []) := by
    intro source hs
    have hs' := Option.mem_toList.2 hs
    refine Source.settled_eq_self
      (fun q hq => sources q (List.mem_flatMap_of_mem hs' hq) .source) fun e he => ?_
    exact Expr.settled_eq_self fun q hq => by
      rw [conditions e (List.mem_flatMap_of_mem hs' he) q hq]
  refine ⟨renewed_eq_self ?_ fun e he => Expr.settled_eq_self fun q hq => by
    rw [clauses e he q hq], ?_⟩
  · cases hs : s.source with
    | none => rfl
    | some src => rw [Option.map_some, source src hs]
  · refine List.flatMap_eq_nil_iff.2 fun src hs => ?_
    rw [source src (Option.mem_toList.1 hs)]

/-- Above selects that stay as they are, only the ordering of the select is arranged. -/
theorem settled_of_still (h : ∀ c ∈ s.children, c.Still) (placement : Placement) :
    s.settled placement = (s.arranged placement [], s.passed placement []) := by
  obtain ⟨renewed, gathered⟩ := renewed_of_still h
  rw [settled_eq, renewed, gathered]

/-- Without a reversal, a select that takes no terms keeps its own, each once. -/
theorem terms_of_forward (h : s.reversed = false) :
    s.allTerms [] = OrderTerm.withoutRepeats s.ordering ∧
      s.ownTerms = OrderTerm.withoutRepeats s.ordering := by
  rw [allTerms, ownTerms, h, List.append_nil, OrderTerm.withoutRepeats_withoutRepeats]
  exact ⟨rfl, rfl⟩

/-- **Selects without pages, reversals and orderings are still.** -/
theorem still_of_everywhere (h : s.Everywhere fun q => q.Bare ∧ q.ordering = []) : s.Still := by
  induction s using children_induction with
  | step s ih =>
    obtain ⟨⟨bare, unordered⟩, below⟩ := everywhere_iff.1 h
    intro placement
    -- Nothing comes from below, so the select has only its own terms to arrange, and it has none.
    rw [settled_of_still (fun c hc => ih c hc (below c hc))]
    obtain ⟨all, own⟩ := terms_of_forward bare.reversed
    rw [unordered] at all own
    have arranged : s.arranged placement [] = s := by
      have nothing : OrderTerm.withoutRepeats [] = [] := rfl
      rw [Select.arranged, all, own, nothing, ite_self, ite_self, ← unordered, ← bare.reversed]
      cases s
      rfl
    rw [arranged, passed, all]
    exact congrArg _ (ite_self _)

/-- A select above ones that resolve everywhere resolves if its own terms do. -/
theorem resolvable_of_children {scope : Scope} (h : ∀ c ∈ s.children, ∀ scope, c.Resolvable scope)
    (terms : ∀ t ∈ s.ordering, ∀ r ∈ t.expr.localRefs,
      Scope.error? (s.renewed.frame :: scope) r = none) : s.Resolvable scope := by
  simp only [children, List.forall_mem_append, List.forall_mem_flatMap] at h
  obtain ⟨⟨sources, conditions⟩, clauses⟩ := h
  refine ⟨fun q hq => sources q hq scope, fun source hs c hc q hq => ?_,
    fun e he q hq => clauses e he q hq _, terms⟩
  exact conditions c.2 (List.mem_flatMap_of_mem (Option.mem_toList.2 hs)
    (Source.mem_conditions_of_framed hc)) q hq _

/-- Where nothing is ordered, every term resolves. -/
theorem resolvable_of_everywhere {scope : Scope}
    (h : s.Everywhere fun q => q.Bare ∧ q.ordering = []) : s.Resolvable scope := by
  induction s using children_induction generalizing scope with
  | step s ih =>
    obtain ⟨⟨-, unordered⟩, below⟩ := everywhere_iff.1 h
    refine resolvable_of_children (fun c hc scope => ih c hc (below c hc)) ?_
    rw [unordered]
    exact fun t ht => absurd ht List.not_mem_nil

end Select

/-! ## Queries that are cleared -/

namespace Projection

variable {p : Projection}

/-- The query with every term of its ordering once. -/
def withoutRepeats (p : Projection) : Projection :=
  { p with select := { p.select with ordering := OrderTerm.withoutRepeats p.select.ordering } }

theorem withoutRepeats_eq_self_iff :
    p.withoutRepeats = p ↔ OrderTerm.Differ p.select.ordering := by
  rw [← OrderTerm.withoutRepeats_eq_self_iff]
  constructor
  · intro h
    exact congrArg (fun p => p.select.ordering) h
  · intro h
    rw [withoutRepeats, h]
    obtain ⟨⟨⟩, _⟩ := p
    rfl

theorem Cleared.withoutRepeats (h : p.Cleared) : p.withoutRepeats.Cleared := by
  refine ⟨⟨h.top.skip, h.top.take, h.top.reversed⟩, fun c hc => h.below c ?_⟩
  -- With fewer terms the select has no more children than before.
  simp only [Select.children, List.mem_append, List.mem_flatMap] at hc ⊢
  refine hc.imp_right ?_
  rintro ⟨e, he, hc⟩
  refine ⟨e, ?_, hc⟩
  simp only [Select.clauses, Projection.withoutRepeats, List.mem_append, List.mem_map] at he ⊢
  refine he.imp_left fun he => he.imp_left fun he => he.imp_right ?_
  rintro ⟨t, ht, rfl⟩
  exact ⟨t, OrderTerm.mem_of_mem_withoutRepeats ht, rfl⟩

/-- **Placing the orderings of a cleared query drops the repeats of its top ordering**, once the
terms of that ordering resolve. -/
theorem Cleared.placeOrderings (h : p.Cleared)
    (terms : ∀ t ∈ p.select.ordering, ∀ r ∈ t.expr.localRefs,
      Scope.error? [p.select.frame] r = none) :
    p.placeOrderings.result = .ok p.withoutRepeats := by
  have still : ∀ c ∈ p.select.children, c.Still := fun c hc =>
    Select.still_of_everywhere (h.below c hc)
  refine placeOrderings_eq_ok_iff.2 ⟨?_, ?_⟩
  · refine Select.resolvable_of_children
      (fun c hc scope => Select.resolvable_of_everywhere (h.below c hc)) ?_
    rwa [(Select.renewed_of_still still).1]
  · obtain ⟨all, own⟩ := Select.terms_of_forward h.top.reversed
    have may : p.select.mayOrder .outermost = true := rfl
    rw [Select.exposed_of_ne_source (by decide), Select.settled_of_still still, Select.arranged,
      all, own, may, if_pos rfl, ite_self, ← h.top.reversed]
    rfl

end Projection

/-- A statement stays as it is if its queries do. -/
theorem Statement.placeOrderings_eq_self {t : Statement}
    (h : ∀ p ∈ t.queries, p.placeOrderings.result = .ok p) : t.placeOrderings.result = .ok t := by
  have run : Outcome.outcome t.placeOrderings () = .ok (t, ()) :=
    Statement.mapQueriesM_eq_self fun p hp _ => Traced.outcome_eq_ok_iff.2 (h p hp)
  exact Traced.outcome_eq_ok_iff.1 run

namespace Compiler

variable {c : Compiler} {s t : Statement}

/-- What a compiled statement needs for its orderings to be placed again. -/
theorem cleared_of_lower (h : (c.lower s).result = .ok t) {p : Projection} (hp : p ∈ t.queries) :
    p.Cleared ∧ ∀ t ∈ p.select.ordering, ∀ r ∈ t.expr.localRefs,
      Scope.error? [p.select.frame] r = none := by
  obtain ⟨_, -, lowers⟩ := exists_of_forall₂_of_mem (forall₂_lowers h) hp
  refine ⟨Projection.cleared_of_lowers lowers, ?_⟩
  obtain ⟨-, -, -, -, -, checks⟩ := lowers
  have accepted := (Select.check_eq_ok_iff.1 checks.select).clauses
  exact fun t ht => (accepted t.expr (Select.mem_clauses_of_ordering ht)).resolves

/-- **The orderings of a compiled statement can be placed again, and that does no more than to drop
repeated terms.** The run succeeds; it drops from the ordering of each top select the terms whose
expression has come before, and changes nothing else. So it returns the statement exactly if the
terms of each top select differ, and a further run returns what it has returned. -/
theorem lower_placed_again (h : (c.lower s).result = .ok t) :
    ∃ t', t.placeOrderings.result = .ok t' ∧
      List.Forall₂ (fun p p' => p' = p.withoutRepeats) t.queries t'.queries ∧
      (t' = t ↔ ∀ p ∈ t.queries, OrderTerm.Differ p.select.ordering) ∧
      t'.placeOrderings.result = .ok t' := by
  have run : ∀ p ∈ t.queries, p.placeOrderings.result = .ok p.withoutRepeats := fun p hp =>
    (cleared_of_lower h hp).1.placeOrderings (cleared_of_lower h hp).2
  obtain ⟨t', ht'⟩ := Statement.mapQueriesM_succeeds fun p hp => ⟨_, run p hp⟩
  have dropped : List.Forall₂ (fun p p' => p' = p.withoutRepeats) t.queries t'.queries := by
    refine ((List.forall₂_and_left _ _).2 ⟨run, Statement.forall₂_of_mapQueriesM ht'⟩).imp ?_
    rintro p p' ⟨own, placed⟩
    exact Except.ok.inj (placed.symm.trans own)
  refine ⟨t', ht', dropped, ⟨?_, fun differ => ?_⟩, ?_⟩
  · rintro rfl p hp
    exact Projection.withoutRepeats_eq_self_iff.1 (List.forall₂_same.1 dropped p hp).symm
  · have same := Statement.placeOrderings_eq_self fun p hp => by
      rw [run p hp, Projection.withoutRepeats_eq_self_iff.2 (differ p hp)]
    exact Except.ok.inj (ht'.symm.trans same)
  · -- What the run has returned is cleared as well, and its terms differ.
    refine Statement.placeOrderings_eq_self fun p' hp' => ?_
    obtain ⟨p, hp, rfl⟩ := exists_of_forall₂_of_mem dropped hp'
    obtain ⟨cleared, terms⟩ := cleared_of_lower h hp
    have again := cleared.withoutRepeats.placeOrderings fun t ht =>
      terms t (OrderTerm.mem_of_mem_withoutRepeats ht)
    have differ : OrderTerm.Differ p.withoutRepeats.select.ordering :=
      OrderTerm.new_nil_iff.1 (OrderTerm.new_keepNew [] p.select.ordering)
    rwa [Projection.withoutRepeats_eq_self_iff.2 differ] at again

/-- Two pages, one of them in a filter, and an order that comes from below a join: the top select is
ordered by the row numbers alone. -/
theorem lower_placed_again_paidOrders :
    ∃ t, (orderCompiler.lower (.query ⟨paidOrders, .entity "Order" []⟩)).result = .ok t ∧
      t.placeOrderings.result = .ok t := by
  obtain ⟨t, run⟩ := exists_lower_paidOrders
  obtain ⟨t', placed, -, same, -⟩ := lower_placed_again run
  have computed : (orderCompiler.lower (.query ⟨paidOrders, .entity "Order" []⟩)).result.map
      (fun t => t.queries.map fun p => p.select.ordering) =
        .ok [[⟨.column "t1" "rn", .ascending⟩]] := by
    rw [result_lower, if_pos (by decide)]
    cbv
  rw [run] at computed
  have orderings : t.queries.map (fun p => p.select.ordering) =
      [[⟨.column "t1" "rn", .ascending⟩]] := Except.ok.inj computed
  have differ : ∀ p ∈ t.queries, OrderTerm.Differ p.select.ordering := by
    intro p hp
    have known := List.mem_map_of_mem (f := fun p : Projection => p.select.ordering) hp
    rw [orderings, List.mem_singleton] at known
    rw [known]
    exact List.pairwise_singleton _ _
  rw [same.2 differ] at placed
  exact ⟨t, run, placed⟩

/-- Orders read from a subquery that declares columns with dates. -/
def datedOrders (dates : List Column) (ordering : List OrderTerm) : Statement :=
  .query ⟨⟨"q", [⟨"id", .column "s" "id", .int⟩], some (.subquery
      ⟨"s", [⟨"id", .column "o" "id", .int⟩] ++ dates, some (.table "orders" "o"), none, [], [], [],
        false, none, none, false⟩), none, ordering, [], [], false, none, none, false⟩,
    .scalar (.column "q" "id")⟩

/-- Two columns that show the same date, in an ordering by both. -/
def twiceDated : Statement :=
  datedOrders [⟨"placed", .column "o" "date", .date⟩, ⟨"due", .column "o" "date", .date⟩]
    [⟨.column "s" "placed", .ascending⟩, ⟨.column "s" "due", .descending⟩]

/-- **A compiled statement need not be at rest.** The two columns are merged into one, and the
ordering by both becomes one that names it twice; placing the orderings drops the second term. -/
theorem twiceDated_placed_again_differs :
    twiceDated.check = .ok () ∧ twiceDated.NaNFree ∧
      ∃ t t', (orderCompiler.lower twiceDated).result = .ok t ∧
        t.placeOrderings.result = .ok t' ∧ t' ≠ t := by
  refine ⟨by cbv, ?_, datedOrders [⟨"placed", .column "o" "date", .date⟩]
    [⟨.column "s" "placed", .ascending⟩, ⟨.column "s" "placed", .descending⟩],
    datedOrders [⟨"placed", .column "o" "date", .date⟩] [⟨.column "s" "placed", .ascending⟩],
    ?_, by cbv, ?_⟩
  · unfold Statement.NaNFree
    decide
  · rw [result_lower, if_pos (by decide)]
    cbv
  · simp [datedOrders]

end Compiler

end HiveQuery
