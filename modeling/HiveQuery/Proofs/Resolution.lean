import HiveQuery.Proofs.Frames
import HiveQuery.Proofs.Tidy
import Mathlib
/-!
# Which references the checks cover

A reference may be made at any depth, and what it may refer to depends on where it is made: a select
sees its own source, and behind it what the selects around it see. `Select.Within` says which
selects stand within a select and what is around each of them. The check of a select accepts exactly
the trees in which every reference that is made anywhere resolves where it is made
(`Select.check_eq_ok_iff_within`).

The projector of a query is checked apart, and only for the references that its expressions make
themselves. What its subqueries refer to is left to chance
(`Statement.check_covers_projector`).
-/

namespace HiveQuery

namespace Select

/-- The expressions of a select, the conditions of its joins included. -/
def exprs (s : Select) : List Expr :=
  s.clauses ++ s.conditions

/-- **A select within a select.** If `scope` is what `s` sees around it, then `around` is what `q`
sees around it. -/
inductive Within : Scope → Select → Scope → Select → Prop
  | self {scope : Scope} {s : Select} : Within scope s scope s
  /-- The selects of a source do not see each other. -/
  | source {scope around : Scope} {s c q : Select} (hc : c ∈ s.sources)
      (h : Within scope c around q) : Within scope s around q
  /-- A subquery of an expression sees what the expression sees. -/
  | subquery {scope around : Scope} {s c q : Select} {e : Expr} (he : e ∈ s.exprs)
      (hc : c ∈ e.subqueries) (h : Within (s.frame :: scope) c around q) : Within scope s around q

variable {s q : Select} {scope around : Scope}

/-- The selects below a select stand in its source or in its expressions. -/
theorem mem_children_iff {c : Select} :
    c ∈ s.children ↔ c ∈ s.sources ∨ ∃ e ∈ s.exprs, c ∈ e.subqueries := by
  simp only [children, exprs, List.mem_append, List.mem_flatMap, or_and_right, exists_or]
  rw [or_assoc, or_comm (a := ∃ e, e ∈ s.conditions ∧ _)]

/-- The selects within a select are those that it holds. -/
theorem Within.holds (h : s.Within scope around q) : s.Holds q := by
  induction h with
  | self => exact .self _
  | source hc _ ih => exact .child (mem_children_iff.2 (.inl hc)) ih
  | subquery he hc _ ih => exact .child (mem_children_iff.2 (.inr ⟨_, he, hc⟩)) ih

/-- What a select holds, it holds in some scope. -/
theorem Holds.exists_within (h : s.Holds q) (scope : Scope) :
    ∃ around, Within scope s around q := by
  induction h generalizing scope with
  | self => exact ⟨scope, .self⟩
  | child hc _ ih =>
    rcases mem_children_iff.1 hc with hc | ⟨e, he, hc⟩
    · obtain ⟨around, within⟩ := ih scope
      exact ⟨around, .source hc within⟩
    · obtain ⟨around, within⟩ := ih (frame _ :: scope)
      exact ⟨around, .subquery he hc within⟩

/-- The select names its columns apart, and what its expressions refer to themselves resolves. -/
structure Resolves (around : Scope) (s : Select) : Prop where
  names : s.columnNames.Nodup
  refs : ∀ e ∈ s.exprs, ∀ r ∈ e.localRefs, Scope.error? (s.frame :: around) r = none

/-- **The check of a select covers every select within it.** -/
theorem check_eq_ok_iff_within :
    s.check scope = .ok () ↔ ∀ around q, s.Within scope around q → q.Resolves around := by
  induction s using children_induction generalizing scope with
  | step s ih =>
    -- The scope is generalised, since a subquery of an expression sees one frame more.
    rw [check_eq_ok_iff]
    constructor
    · intro checks around q within
      have accepted : ∀ e ∈ s.exprs, Scope.Accepts (s.frame :: scope) e :=
        List.forall_mem_append.2 ⟨checks.clauses, checks.conditions⟩
      cases within with
      | self => exact ⟨checks.names, fun e he => (accepted e he).resolves⟩
      | source hc within =>
        exact (ih _ (mem_children_iff.2 (.inl hc))).1 (checks.sources _ hc) _ _ within
      | subquery he hc within =>
        exact (ih _ (mem_children_iff.2 (.inr ⟨_, he, hc⟩))).1 ((accepted _ he).queries _ hc) _ _
          within
    · intro h
      have own := h scope s .self
      have accepted : ∀ e ∈ s.exprs, Scope.Accepts (s.frame :: scope) e := fun e he =>
        ⟨own.refs e he, fun c hc => (ih c (mem_children_iff.2 (.inr ⟨e, he, hc⟩))).2
          fun around q within => h around q (.subquery he hc within)⟩
      refine ⟨own.names, fun c hc => ?_, (List.forall_mem_append.1 accepted).1,
        (List.forall_mem_append.1 accepted).2⟩
      exact (ih c (mem_children_iff.2 (.inl hc))).2 fun around q within =>
        h around q (.source hc within)

end Select

/-! ## References at any depth -/

def Source.refs (source : Source) : List (String × String) :=
  source.nodes.filterMap Node.ref?

def Select.refs (s : Select) : List (String × String) :=
  s.nodes.filterMap Node.ref?

/-- The references of an expression are its own, those of its parts and those of its select. -/
theorem Expr.refs_eq (e : Expr) :
    e.refs = e.ref?.toList ++
      (e.parts.flatMap Expr.refs ++ e.query?.toList.flatMap Select.refs) := by
  unfold Expr.refs Select.refs
  have own : [Node.expr e].filterMap Node.ref? = e.ref?.toList := by
    cases h : e.ref? <;> simp [Node.ref?, h]
  rw [Expr.nodes_eq, ← List.singleton_append, List.filterMap_append, List.filterMap_append,
    List.filterMap_flatMap, List.filterMap_flatMap, own]

theorem Source.refs_join (kind : JoinKind) (left right : Source) (condition : Option Expr) :
    (Source.join kind left right condition).refs =
      left.refs ++ right.refs ++ condition.toList.flatMap Expr.refs := by
  unfold Source.refs Expr.refs
  rw [Source.nodes, List.filterMap_cons_none rfl, List.filterMap_append, List.filterMap_append,
    Expr.nodesOption_eq, List.filterMap_flatMap]

/-- The references of a select are those of its source, and then those of its clauses. -/
theorem Select.refs_eq (s : Select) :
    s.refs = s.source.toList.flatMap Source.refs ++ s.clauses.flatMap Expr.refs := by
  unfold Select.refs Source.refs Expr.refs
  rw [Select.nodes_eq, List.filterMap_cons_none rfl, List.filterMap_append,
    List.filterMap_flatMap, List.filterMap_flatMap]

/-- The references of an expression are its own and those of its subqueries. -/
theorem Expr.mem_refs_iff {e : Expr} {r : String × String} :
    r ∈ e.refs ↔ r ∈ e.localRefs ∨ ∃ c ∈ e.subqueries, r ∈ c.refs := by
  induction e using Expr.parts_induction with
  | step e ih =>
    -- Both sides are collected over the same parts; only the order in which they list them differs.
    rw [Expr.refs_eq, Expr.localRefs_eq, Expr.subqueries_eq]
    simp only [List.mem_append, List.mem_flatMap]
    constructor
    · rintro (own | ⟨p, hp, hr⟩ | ⟨c, hc, hr⟩)
      · exact .inl (.inr own)
      · rcases (ih p hp).1 hr with hr | ⟨c, hc, hr⟩
        · exact .inl (.inl ⟨p, hp, hr⟩)
        · exact .inr ⟨c, .inl ⟨p, hp, hc⟩, hr⟩
      · exact .inr ⟨c, .inr hc, hr⟩
    · rintro ((⟨p, hp, hr⟩ | own) | ⟨c, ⟨p, hp, hc⟩ | hc, hr⟩)
      · exact .inr (.inl ⟨p, hp, (ih p hp).2 (.inl hr)⟩)
      · exact .inl own
      · exact .inr (.inl ⟨p, hp, (ih p hp).2 (.inr ⟨c, hc, hr⟩)⟩)
      · exact .inr (.inr ⟨c, hc, hr⟩)

theorem Source.mem_refs_iff {source : Source} {r : String × String} :
    r ∈ source.refs ↔
      (∃ c ∈ source.selects, r ∈ c.refs) ∨ ∃ e ∈ source.conditions, r ∈ e.refs := by
  induction source using Source.join_induction with
  | table => simp [Source.refs, Source.nodes, Source.selects, Source.conditions, Node.ref?]
  | subquery query =>
    simp [Source.refs, Source.nodes, Source.selects, Source.conditions, Node.ref?, Select.refs]
  | join kind left right condition ihl ihr =>
    rw [Source.refs_join, List.mem_append, List.mem_append, ihl, ihr, List.mem_flatMap]
    simp only [Source.selects, Source.conditions, List.mem_append, or_and_right, exists_or,
      or_assoc, or_left_comm]

/-- A reference in a select stands in its sources or in its expressions. -/
theorem Select.mem_refs_iff {s : Select} {r : String × String} :
    r ∈ s.refs ↔ (∃ c ∈ s.sources, r ∈ c.refs) ∨ ∃ e ∈ s.exprs, r ∈ e.refs := by
  have source : (∃ source ∈ s.source.toList, r ∈ source.refs) ↔
      (∃ c ∈ s.sources, r ∈ c.refs) ∨ ∃ e ∈ s.conditions, r ∈ e.refs := by
    unfold Select.sources Select.conditions
    cases s.source <;> simp [Source.mem_refs_iff]
  rw [Select.refs_eq, List.mem_append, List.mem_flatMap, List.mem_flatMap, source, Select.exprs]
  simp only [List.mem_append, or_and_right, exists_or, or_assoc, or_comm]

/-- Every reference in a select is made by an expression of a select within it. -/
theorem Select.mem_refs_iff_within {s : Select} {r : String × String} (scope : Scope) :
    r ∈ s.refs ↔ ∃ around q, s.Within scope around q ∧ ∃ e ∈ q.exprs, r ∈ e.localRefs := by
  induction s using children_induction generalizing scope with
  | step s ih =>
    rw [mem_refs_iff]
    constructor
    · rintro (⟨c, hc, hr⟩ | ⟨e, he, hr⟩)
      · obtain ⟨around, q, within, made⟩ := (ih c (mem_children_iff.2 (.inl hc)) scope).1 hr
        exact ⟨around, q, .source hc within, made⟩
      · rcases Expr.mem_refs_iff.1 hr with hr | ⟨c, hc, hr⟩
        · exact ⟨scope, s, .self, e, he, hr⟩
        · obtain ⟨around, q, within, made⟩ :=
            (ih c (mem_children_iff.2 (.inr ⟨e, he, hc⟩)) (s.frame :: scope)).1 hr
          exact ⟨around, q, .subquery he hc within, made⟩
    · rintro ⟨around, q, within, made⟩
      cases within with
      | self =>
        obtain ⟨e, he, hr⟩ := made
        exact .inr ⟨e, he, e.localRefs_subset_refs hr⟩
      | source hc within =>
        exact .inl ⟨_, hc, (ih _ (mem_children_iff.2 (.inl hc)) scope).2 ⟨_, _, within, made⟩⟩
      | @subquery _ _ _ c _ e he hc within =>
        refine .inr ⟨e, he, Expr.mem_refs_iff.2 (.inr ⟨c, hc, ?_⟩)⟩
        exact (ih c (mem_children_iff.2 (.inr ⟨e, he, hc⟩)) _).2 ⟨_, _, within, made⟩

/-! ## Expressions -/

namespace Expr

/-- **A reference under an expression.** If `scope` is what the expression sees, then the third
argument is what is visible where the reference is made. -/
inductive Reads (scope : Scope) (e : Expr) : Scope → String × String → Prop
  | own {r : String × String} (hr : r ∈ e.localRefs) : Reads scope e scope r
  | below {around : Scope} {c q : Select} {e' : Expr} {r : String × String}
      (hc : c ∈ e.subqueries) (h : c.Within scope around q) (he : e' ∈ q.exprs)
      (hr : r ∈ e'.localRefs) : Reads scope e (q.frame :: around) r

variable {scope : Scope} {e : Expr}

/-- Every reference under an expression is read somewhere. -/
theorem mem_refs_iff_reads (scope : Scope) {r : String × String} :
    r ∈ e.refs ↔ ∃ place, e.Reads scope place r := by
  rw [mem_refs_iff]
  constructor
  · rintro (hr | ⟨c, hc, hr⟩)
    · exact ⟨scope, .own hr⟩
    · obtain ⟨around, q, within, e', he, hr⟩ := (Select.mem_refs_iff_within scope).1 hr
      exact ⟨_, .below hc within he hr⟩
  · rintro ⟨_, ⟨hr⟩ | ⟨hc, within, he, hr⟩⟩
    · exact .inl hr
    · exact .inr ⟨_, hc, (Select.mem_refs_iff_within scope).2 ⟨_, _, within, _, he, hr⟩⟩

/-- The check of the subqueries of an expression covers what they read. -/
theorem checkQueries_eq_ok_iff_within : e.checkQueries scope = .ok () ↔
    ∀ c ∈ e.subqueries, ∀ around q, c.Within scope around q → q.Resolves around := by
  simp only [checkQueries_eq_ok_iff, Select.check_eq_ok_iff_within]

/-- The selects among the nodes of an expression are those within its subqueries. -/
theorem select_mem_nodes_iff {q : Select} :
    .select q ∈ e.nodes ↔ ∃ c ∈ e.subqueries, ∃ around, c.Within scope around q := by
  constructor
  · intro h
    obtain ⟨c, hc, h⟩ := exists_subquery_of_mem_nodes h
    exact ⟨c, hc, (Select.mem_nodes_iff_holds.1 h).exists_within scope⟩
  · rintro ⟨c, hc, around, within⟩
    exact nodes_subset_of_mem_subqueries hc within.holds.mem_nodes

/-- **All that is read under an expression resolves, if its own references do, exactly where its
subqueries pass their check**, up to names of columns. -/
theorem reads_resolve_iff (own : ∀ r ∈ e.localRefs, scope.error? r = none) :
    ((∀ place r, e.Reads scope place r → place.error? r = none) ∧
      ∀ q, .select q ∈ e.nodes → q.columnNames.Nodup) ↔ e.checkQueries scope = .ok () := by
  rw [checkQueries_eq_ok_iff_within]
  constructor
  · rintro ⟨reads, names⟩ c hc around q within
    exact ⟨names q (select_mem_nodes_iff.2 ⟨c, hc, around, within⟩),
      fun e' he r hr => reads _ r (.below hc within he hr)⟩
  · intro h
    constructor
    · rintro place r (⟨hr⟩ | ⟨hc, within, he, hr⟩)
      · exact own r hr
      · exact (h _ hc _ _ within).refs _ he r hr
    · intro q hq
      obtain ⟨c, hc, around, within⟩ := select_mem_nodes_iff.1 hq
      exact (h c hc around q within).names

end Expr

/-! ## Queries -/

/-- What the projector of a query sees: the top select, by its columns. -/
def Projection.top (p : Projection) : Scope :=
  [(Source.subquery p.select).frame]

/-- What resolves at the top is a column of the top select. -/
theorem Projection.error?_top_eq_none_iff {p : Projection} {r : String × String} :
    p.top.error? r = none ↔ r.1 = p.select.label ∧ r.2 ∈ p.select.columnNames := by
  constructor
  · intro h
    have label : r.1 = p.select.label := by
      simpa [Source.frame] using Frame.mem_labels_of_error? h
    obtain ⟨_, name⟩ := r
    obtain rfl := label
    exact ⟨rfl, Scope.mem_columnNames_of_error? h⟩
  · obtain ⟨_, name⟩ := r
    rintro ⟨rfl, hname⟩
    exact Scope.error?_eq_none_of_mem (by simp [Source.frame]) (List.mem_singleton_self _) hname

/-- **What the check of a statement covers.** Every reference that is made anywhere in the selects
of a query resolves where it is made. An expression of the projector refers by itself only to
columns of the top select. Whatever else is read under it, in subqueries at any depth, resolves
where it is read exactly if these subqueries pass the check that those of a clause have to pass;
names of columns that a select declares twice are found by that check as well. -/
theorem Statement.check_covers_projector {s : Statement} (h : s.check = .ok ()) {p : Projection}
    (hp : p ∈ s.queries) :
    (∀ around q, p.select.Within [] around q → ∀ e ∈ q.exprs, ∀ r ∈ e.localRefs,
      Scope.error? (q.frame :: around) r = none) ∧
    ∀ e ∈ p.projector.exprs,
      (∀ r ∈ e.localRefs, r.1 = p.select.label ∧ r.2 ∈ p.select.columnNames) ∧
      (∀ r, r ∈ e.refs ↔ ∃ place, e.Reads p.top place r) ∧
      (((∀ place r, e.Reads p.top place r → place.error? r = none) ∧
        ∀ q, .select q ∈ e.nodes → q.columnNames.Nodup) ↔ e.checkQueries p.top = .ok ()) := by
  have checks := Statement.check_eq_ok_iff.1 h p hp
  refine ⟨fun around q within => ?_, fun e he => ⟨fun r hr => ?_, fun r => ?_, ?_⟩⟩
  · exact (Select.check_eq_ok_iff_within.1 checks.select around q within).refs
  · exact Projection.error?_top_eq_none_iff.1 (checks.projector e he r hr)
  · exact Expr.mem_refs_iff_reads p.top
  · exact Expr.reads_resolve_iff (checks.projector e he)

/-- Orders, each with what has been paid for it. -/
def ordersWith (payments : Select) : Projection :=
  ⟨⟨"q", [⟨"id", .column "o" "id", .int⟩], some (.table "orders" "o"), none, [], [], [], false,
    none, none, false⟩, .scalar (.scalarQuery payments)⟩

/-- The payments of an order that were not returned; the inner subquery reads three levels. -/
def keptPayments : Select :=
  ⟨"s", [⟨"total", .column "p" "amount", .int⟩], some (.table "payments" "p"),
    some (.unary .not (.existsQuery ⟨"t", [⟨"id", .column "r" "id", .int⟩],
      some (.table "returns" "r"),
      some (.binary .and (.binary .eq (.column "r" "payment") (.column "p" "id"))
        (.binary .eq (.column "r" "order") (.column "q" "id"))),
      [], [], [], false, none, none, false⟩)), [], [], [], false, none, none, false⟩

/-- The inner subquery of the projector reads three levels, and the check has looked at all of
them. -/
theorem Statement.check_covers_projector_keptPayments :
    (Statement.query (ordersWith keptPayments)).check = .ok () ∧
      ∀ place r, (Expr.scalarQuery keptPayments).Reads (ordersWith keptPayments).top place r →
        place.error? r = none := by
  have check : (Statement.query (ordersWith keptPayments)).check = .ok () := by cbv
  have covers := (Statement.check_covers_projector check (List.mem_singleton_self _)).2 _
    (List.mem_singleton_self _)
  exact ⟨check, (covers.2.2.2 (by cbv)).1⟩

/-- Payments that refer to a label which nothing declares. -/
def strayPayments : Select :=
  ⟨"s", [⟨"total", .column "z" "amount", .int⟩], some (.table "payments" "p"), none, [], [], [],
    false, none, none, false⟩

/-- **A subquery of the projector may refer to nothing.** -/
theorem Statement.check_misses_strayPayments :
    (Statement.query (ordersWith strayPayments)).check = .ok () ∧
      ∃ e ∈ (ordersWith strayPayments).projector.exprs, ∃ place,
        e.Reads (ordersWith strayPayments).top place ("z", "amount") ∧
          place.error? ("z", "amount") = some (.notInScope "z" "amount") := by
  refine ⟨by cbv, .scalarQuery strayPayments, List.mem_singleton_self _,
    strayPayments.frame :: (ordersWith strayPayments).top, ?_, by decide⟩
  have held : strayPayments ∈ (Expr.scalarQuery strayPayments).subqueries := by
    simp [Expr.subqueries_eq, Expr.parts, Expr.query?]
  have column : Expr.column "z" "amount" ∈ strayPayments.exprs := by
    simp [Select.exprs, Select.clauses, strayPayments]
  exact .below held .self column (by simp [Expr.localRefs_eq, Expr.parts, Expr.ref?])

end HiveQuery
