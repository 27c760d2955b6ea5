import HiveQuery.Proofs.Nodes
import HiveQuery.Proofs.Outcome
import HiveQuery.QueryText
import Mathlib
/-!
# What a dialect can express

A select has a text exactly if every node below it can be expressed in the dialect
(`Select.isOk_render_iff`), and what must hold of a node is said of each node alone
(`Node.Expressible`). Only one thing that is asked of a select depends on where it stands: right
below an expression it may need a source. It is asked of the expression here.

Success goes down the levels of a tree: an expression has a text if it is admitted itself, its parts
have texts and its select has one, and likewise for sources and selects.
-/

namespace HiveQuery

open QueryText

/-! ## Nodes -/

/-- Whether the dialect can express an expression itself, whatever its parts and its select are. -/
def Expr.Admitted (d : Dialect) : Expr → Prop
  | literal (.float x) => x.isFinite
  | aggregate function arg distinct =>
    (distinct → d.allowsDistinctAggregates) ∧ (arg.isSome ∨ function = .count)
  | generatedId _ => False
  | _ => True

/-- **Whether the dialect can express a node**: a select is neither reversed nor skips rows, and an
expression is admitted and its select has a source if the dialect asks for one. -/
def Node.Expressible (d : Dialect) : Node → Prop
  | select s => s.reversed = false ∧ ∀ n ∈ s.skip, n = 0
  | source _ => True
  | expr e => e.Admitted d ∧ ∀ q ∈ e.query?, q.source.isSome ∨ d.allowsSubqueryWithoutSource

/-! ## Success -/

section

variable {α β : Type} {x : Except Failure α} {f : α → Except Failure β}

/-- A sequence succeeds if its parts do, where they do not depend on each other. -/
theorem isOk_bind_iff {P : Prop} (h : ∀ a, (f a).isOk ↔ P) : (x >>= f).isOk ↔ x.isOk ∧ P := by
  cases x with
  | error => simp [bind, Except.bind]
  | ok a => exact (h a).trans (and_iff_right rfl).symm

/-- What is made of a result afterwards does not bear on success. -/
theorem isOk_bind_pure {g : α → β} : (x >>= fun a => pure (g a)).isOk ↔ x.isOk := by
  cases x <;> exact Iff.rfl

theorem isOk_map {g : α → β} : (x.map g).isOk ↔ x.isOk := by
  cases x <;> exact Iff.rfl

/-- What is written item by item succeeds if every item does. -/
theorem isOk_items_iff {write : List α → Except Failure β} {P : α → Prop} (nil : (write []).isOk)
    (cons : ∀ a as, (write (a :: as)).isOk ↔ P a ∧ (write as).isOk) {as : List α} :
    (write as).isOk ↔ ∀ a ∈ as, P a := by
  induction as with
  | nil => simpa using nil
  | cons a as ih => rw [cons, ih, List.forall_mem_cons]

end

variable {d : Dialect} {indent : ℕ}

/-! ## Lists of parts -/

/-- Several expressions have texts if each of them has one. -/
theorem Expr.isOk_renderList {es : List Expr} :
    (Expr.renderList d indent es).isOk ↔ ∀ e ∈ es, (e.render d indent).isOk :=
  isOk_items_iff rfl fun _ _ => isOk_bind_iff fun _ => isOk_bind_pure

theorem Expr.isOk_renderOption {o : Option Expr} :
    (Expr.renderOption d indent o).isOk ↔ ∀ e ∈ o.toList, (e.render d indent).isOk := by
  cases o with
  | none => simp [Expr.renderOption]
  | some e => simpa [Expr.renderOption] using isOk_bind_pure

/-- Branches have texts if their conditions and results have. -/
theorem Branch.isOk_renderList {bs : List Branch} :
    (Branch.renderList d indent bs).isOk ↔
      ∀ e ∈ bs.flatMap Branch.parts, (e.render d indent).isOk := by
  rw [List.forall_mem_flatMap]
  refine isOk_items_iff rfl fun b bs => ?_
  rw [Branch.parts_eq, List.forall_mem_cons, List.forall_mem_singleton, and_assoc]
  cases b
  exact isOk_bind_iff fun _ => isOk_bind_iff fun _ => isOk_bind_pure

/-- An ordering has a text if what it orders by has. -/
theorem OrderTerm.isOk_renderList {ts : List OrderTerm} :
    (OrderTerm.renderList d indent ts).isOk ↔
      ∀ e ∈ ts.map (·.expr), (e.render d indent).isOk := by
  rw [List.forall_mem_map]
  refine isOk_items_iff rfl fun t ts => ?_
  cases t
  exact isOk_bind_iff fun _ => isOk_bind_pure

/-- The columns have texts if their expressions have: a name always has one. -/
theorem Column.isOk_renderList {cs : List Column} :
    (Column.renderList d indent cs).isOk ↔
      ∀ e ∈ cs.map (·.expr), (e.render d indent).isOk := by
  rw [List.forall_mem_map]
  refine isOk_items_iff rfl fun c cs => ?_
  cases c
  exact isOk_bind_iff fun _ => isOk_bind_pure

/-! ## Expressions -/

/-- A literal has a text unless it is an infinite float or a NaN. -/
theorem Literal.isOk_render (d : Dialect) {value : Literal} :
    value.render.isOk ↔ (Expr.literal value).Admitted d := by
  cases value with
  | float x =>
    rw [Literal.render, Expr.Admitted]
    cases x.isFinite <;> simp
  | bool b => cases b <;> exact iff_of_true rfl trivial
  | _ => exact iff_of_true rfl trivial

/-- An aggregate is accepted if the dialect knows distinct ones, where it is distinct, and if it has
an argument, where it is no count. -/
theorem AggregateFunction.isOk_accept {function : AggregateFunction} {arg : Option Expr}
    {distinct : Bool} :
    (function.accept d arg.isSome distinct).isOk ↔
      (Expr.aggregate function arg distinct).Admitted d := by
  unfold AggregateFunction.accept Expr.Admitted
  cases distinct <;> cases d.allowsDistinctAggregates <;> cases arg <;> cases function <;>
    simp

/-- **An expression has a text** if it is admitted and its parts and its select have texts. -/
theorem Expr.isOk_render_iff_parts {e : Expr} :
    (e.render d indent).isOk ↔ e.Admitted d ∧ (∀ p ∈ e.parts, (p.render d indent).isOk) ∧
      ∀ q ∈ e.query?, (q.render d (indent + indentStep) .expression).isOk := by
  cases e with
  | column => simp [render, Admitted, parts, query?]
  | literal value =>
    rw [render, Literal.isOk_render d]
    simp [parts, query?]
  | binary op left right =>
    refine (isOk_bind_iff fun _ => isOk_bind_pure).trans ?_
    simp [Admitted, parts, query?]
  | unary | isNull | cast | scalarQuery | existsQuery =>
    refine isOk_bind_pure.trans ?_
    simp [Admitted, parts, query?]
  | caseWhen branches otherwise =>
    refine (isOk_bind_iff fun _ => isOk_bind_pure).trans ?_
    rw [Branch.isOk_renderList, isOk_renderOption, ← List.forall_mem_append]
    simp [Admitted, parts, query?]
  | call name args resource =>
    refine isOk_bind_pure.trans (isOk_renderList.trans ?_)
    simp [Admitted, parts, query?]
  | aggregate function arg distinct =>
    refine (isOk_bind_iff fun _ => isOk_bind_pure).trans ?_
    rw [AggregateFunction.isOk_accept, isOk_renderOption]
    simp [parts, query?]
  | rowNumber order =>
    refine isOk_bind_pure.trans (OrderTerm.isOk_renderList.trans ?_)
    simp [Admitted, parts, query?]
  | inQuery operand query =>
    refine (isOk_bind_iff fun _ => isOk_bind_pure).trans ?_
    simp [Admitted, parts, query?]
  | generatedId member =>
    simp only [render, Admitted, false_and, iff_false]
    cases d.generatedId member <;> simp [bind, Except.bind]

/-- An expression has a text if all its nodes are expressible, provided that this holds of its
subqueries. By induction on its parts. -/
theorem Expr.isOk_render_iff {e : Expr}
    (below : ∀ q ∈ e.subqueries, ∀ indent, (q.render d indent .expression).isOk ↔
      (q.source.isSome ∨ d.allowsSubqueryWithoutSource) ∧ ∀ n ∈ q.nodes, n.Expressible d) :
    (e.render d indent).isOk ↔ ∀ n ∈ e.nodes, n.Expressible d := by
  induction e using Expr.parts_induction with
  | step e ih =>
    rw [Expr.subqueries_eq, List.forall_mem_append, List.forall_mem_flatMap] at below
    have parts : (∀ p ∈ e.parts, (p.render d indent).isOk) ↔
        ∀ p ∈ e.parts, ∀ n ∈ p.nodes, n.Expressible d :=
      forall₂_congr fun p hp => ih p hp (below.1 p hp)
    have query : (∀ q ∈ e.query?, (q.render d (indent + indentStep) .expression).isOk) ↔
        ∀ q ∈ e.query?, (q.source.isSome ∨ d.allowsSubqueryWithoutSource) ∧
          ∀ n ∈ q.nodes, n.Expressible d :=
      forall₂_congr fun q hq => below.2 q (Option.mem_toList.2 hq) _
    rw [Expr.isOk_render_iff_parts, parts, query, Expr.nodes_eq, List.forall_mem_cons,
      List.forall_mem_append, List.forall_mem_flatMap, List.forall_mem_flatMap, Node.Expressible]
    simp only [Option.mem_toList, forall₂_and]
    tauto

/-! ## Sources and selects -/

/-- A source has a text if its subqueries and its conditions have. -/
theorem Source.isOk_render_iff {source : Source} :
    (source.render d indent).isOk ↔
      (∀ q ∈ source.selects, (q.render d (indent + indentStep) .source).isOk) ∧
        ∀ e ∈ source.conditions, (e.render d indent).isOk := by
  induction source using Source.join_induction with
  | table => simp [render, selects, conditions]
  | subquery query =>
    refine isOk_bind_pure.trans ?_
    simp [selects, conditions]
  | join kind left right condition ihl ihr =>
    refine (isOk_bind_iff fun _ => isOk_bind_iff fun _ => isOk_bind_pure).trans ?_
    rw [ihl, ihr, Expr.isOk_renderOption]
    simp only [selects, conditions, List.forall_mem_append]
    tauto

theorem Source.isOk_renderOption {o : Option Source} :
    (Source.renderOption d indent o).isOk ↔ ∀ source ∈ o.toList, (source.render d indent).isOk := by
  cases o with
  | none => simp [Source.renderOption]
  | some source => simpa [Source.renderOption] using isOk_bind_pure

namespace Select

variable {s : Select} {place : SelectPlace}

/-- What is asked of a select before any of it is written. Only the first half depends on where it
stands. -/
theorem isOk_accept_iff :
    (s.accept d place).isOk ↔
      (place = .expression → s.source.isSome ∨ d.allowsSubqueryWithoutSource) ∧
        (Node.select s).Expressible d := by
  have skips : s.skip.any (0 < ·) ↔ ¬ ∀ n ∈ s.skip, n = 0 := by
    cases s.skip <;> simp [UInt64.pos_iff_ne_zero]
  have bare : (s.source.isNone && place == .expression && !d.allowsSubqueryWithoutSource) ↔
      ¬ (place = .expression → s.source.isSome ∨ d.allowsSubqueryWithoutSource) := by
    cases s.source <;> simp
  unfold accept Node.Expressible
  split_ifs with reversed skipped sourceless
  · exact iff_of_false (by simp) (by simp [reversed])
  · exact iff_of_false (by simp) fun h => skips.1 skipped h.2.2
  · exact iff_of_false (by simp) fun h => bare.1 sourceless h.1
  · exact iff_of_true rfl ⟨not_not.1 (bare.not.1 sourceless), Bool.eq_false_iff.2 reversed,
      not_not.1 (skips.not.1 skipped)⟩

/-- A select has a text if it is accepted and what it reads and holds has one. -/
theorem isOk_render_iff_parts :
    (s.render d indent place).isOk ↔ (s.accept d place).isOk ∧
      (∀ q ∈ s.sources, (q.render d (indent + indentStep) .source).isOk) ∧
      (∀ e ∈ s.conditions, (e.render d indent).isOk) ∧
      ∀ e ∈ s.clauses, (e.render d indent).isOk := by
  obtain ⟨label, columns, source, filter, ordering, grouping, clustering, distinct, skip, take,
    reversed⟩ := s
  refine (isOk_bind_iff fun _ => isOk_bind_iff fun _ => isOk_bind_iff fun _ =>
    isOk_bind_iff fun _ => isOk_bind_iff fun _ => isOk_bind_iff fun _ => isOk_bind_pure).trans ?_
  rw [Column.isOk_renderList, Source.isOk_renderOption, Expr.isOk_renderOption,
    Expr.isOk_renderList, Expr.isOk_renderList, OrderTerm.isOk_renderList]
  simp only [Source.isOk_render_iff, sources, conditions, clauses, List.forall_mem_append,
    List.forall_mem_flatMap, forall₂_and]
  tauto

/-- **A select has a text exactly if all nodes below it can be expressed**, and itself has a source
where it has to. -/
theorem isOk_render_iff :
    (s.render d indent place).isOk ↔
      (place = .expression → s.source.isSome ∨ d.allowsSubqueryWithoutSource) ∧
        ∀ n ∈ s.nodes, n.Expressible d := by
  induction s using children_induction generalizing indent place with
  | step s ih =>
    have sources : ∀ q ∈ s.sources, ((q.render d (indent + indentStep) .source).isOk ↔
        ∀ n ∈ q.nodes, n.Expressible d) := fun q hq => by
      rw [ih q (List.mem_append_left _ (List.mem_append_left _ hq))]
      exact and_iff_right fun same => absurd same (by decide)
    have expression : ∀ q ∈ s.children, ∀ indent, (q.render d indent .expression).isOk ↔
        (q.source.isSome ∨ d.allowsSubqueryWithoutSource) ∧ ∀ n ∈ q.nodes, n.Expressible d :=
      fun q hq indent => by simp [ih q hq]
    have conditions : ∀ e ∈ s.conditions, ((e.render d indent).isOk ↔
        ∀ n ∈ e.nodes, n.Expressible d) := fun e he =>
      Expr.isOk_render_iff fun q hq => expression q
        (List.mem_append_left _ (List.mem_append_right _ (List.mem_flatMap_of_mem he hq)))
    have clauses : ∀ e ∈ s.clauses, ((e.render d indent).isOk ↔
        ∀ n ∈ e.nodes, n.Expressible d) := fun e he =>
      Expr.isOk_render_iff fun q hq => expression q
        (List.mem_append_right _ (List.mem_flatMap_of_mem he hq))
    rw [isOk_render_iff_parts, isOk_accept_iff, forall₂_congr sources, forall₂_congr conditions,
      forall₂_congr clauses, Select.forall_nodes_iff fun _ => trivial, and_assoc]

/-- At the top and in a source, a select has a text if all its nodes are expressible. -/
theorem isOk_render_iff_of_ne (h : place ≠ .expression) :
    (s.render d indent place).isOk ↔ ∀ n ∈ s.nodes, n.Expressible d :=
  isOk_render_iff.trans (and_iff_right fun same => absurd same h)

end Select

/-! ## Statements -/

theorem Projection.isOk_renderList {ps : List Projection} :
    (Projection.renderList d ps).isOk ↔ ∀ p ∈ ps, (p.select.render d 0 .top).isOk :=
  isOk_items_iff rfl fun _ _ => isOk_bind_iff fun _ => isOk_bind_pure

/-- **A statement has a text exactly if the dialect can express it**: there is a query, several ones
may stand in one text, and every node below their selects can be expressed. -/
theorem Statement.exists_render_iff (d : Dialect) (s : Statement) :
    (∃ text, s.render d = .ok text) ↔
      s.queries ≠ [] ∧ (s.queries.length = 1 ∨ d.allowsSeveralQueries) ∧
        ∀ p ∈ s.queries, ∀ n ∈ p.select.nodes, n.Expressible d := by
  have texts : (∀ p ∈ s.queries, (p.select.render d 0 .top).isOk) ↔
      ∀ p ∈ s.queries, ∀ n ∈ p.select.nodes, n.Expressible d :=
    forall₂_congr fun p _ => Select.isOk_render_iff_of_ne (by decide)
  rw [← isOk_iff_exists, ← texts, Statement.render]
  split
  · next empty => simp [empty]
  · next p single => simp [single]
  · next _ nonempty several =>
    have length : s.queries.length ≠ 1 := fun one => by
      obtain ⟨p, single⟩ := List.length_eq_one_iff.1 one
      exact several p single
    split
    · next allowed =>
      rw [isOk_map, Projection.isOk_renderList]
      exact ⟨fun h => ⟨nonempty, .inr allowed, h⟩, fun h => h.2.2⟩
    · next refused => simp [length, refused]

end HiveQuery
