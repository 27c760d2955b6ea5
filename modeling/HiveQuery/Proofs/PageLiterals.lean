import HiveQuery.Proofs.Idempotence
import HiveQuery.Proofs.Likeness
import HiveQuery.Proofs.PageLevels
/-!
# The literals of a page

The bounds of a page are integers, and everything else in it comes from the paged select, where it
is or equals a clause. So a page has no literal and no resource of a new kind
(`Select.AllNodes.page`), and paging neither brings a NaN nor loses one
(`Select.naNFree_paging_iff`).
-/

namespace HiveQuery

open Outcome

section AllNodes

variable {P : Node → Prop} (inherent : Node.Inherent P)
include inherent

theorem Expr.AllNodes.rowNumber {order : List OrderTerm}
    (h : ∀ term ∈ order, term.expr.AllNodes P) : (Expr.rowNumber order).AllNodes P := by
  refine Expr.allNodes_iff.2 ⟨inherent.plain rfl rfl, fun p hp => ?_, fun q hq => by cases hq⟩
  obtain ⟨term, hterm, rfl⟩ := List.mem_map.1 hp
  exact h term hterm

/-- The bounds of a page are integers. -/
theorem Expr.AllNodes.of_pagePredicate {rowNumber filter : Expr} {skip take : Option UInt64}
    (all : rowNumber.AllNodes P) (h : pagePredicate rowNumber skip take = .ok filter) :
    filter.AllNodes P := by
  have compared : ∀ {op : BinaryOp} {n : Nat} {e : Expr},
      (pageBound n).map (.binary op rowNumber) = .ok e → e.AllNodes P := by
    intro op n e he
    obtain ⟨bound, rfl, -⟩ := of_map_pageBound he
    have literal : (Expr.literal (.int bound)).AllNodes P :=
      .single rfl (inherent.plain rfl rfl)
    refine Expr.allNodes_iff.2 ⟨inherent.plain rfl rfl, ?_, fun q hq => by cases hq⟩
    simp [Expr.parts, all, literal]
  rcases of_pagePredicate_eq_ok h with ⟨n, -, -, h⟩ | ⟨k, -, -, h⟩ |
    ⟨k, n, after, upTo, -, -, hafter, hupTo, rfl⟩
  · exact compared h
  · exact compared h
  · refine Expr.allNodes_iff.2 ⟨inherent.plain rfl rfl, ?_, fun q hq => by cases hq⟩
    simp [Expr.and, Expr.parts, compared hafter, compared hupTo]

end AllNodes

namespace Select

variable {s s' q b numbered : Select} {order : List OrderTerm} {supply supply' : LabelSupply}
variable {rowNumberColumn : String} {depth : Nat}

section AllNodes

variable {P : Node → Prop} (inherent : Node.Inherent P)
include inherent

/-- A level over one subquery has the property if the subquery and its own clauses have it. -/
theorem AllNodes.of_subquery (all : b.AllNodes P) (source : q.source = some (.subquery b))
    (clauses : ∀ e ∈ q.clauses, e.AllNodes P) : q.AllNodes P := by
  refine (allNodes_iff inherent).2 ⟨?_, ?_, clauses⟩
  · simpa [sources, source, Source.selects] using all
  · simp [conditions, source, Source.conditions]

theorem AllNodes.others (all : s.AllNodes P) {e : Expr} (he : e ∈ s.others) : e.AllNodes P :=
  all.clause inherent (mem_clauses_iff.2 (.inl he))

/-- The lowest level of a page has what the paged select has, -/
theorem AllNodes.exposedBase (all : s.AllNodes P) (label : String) :
    (s.exposedBase label).AllNodes P := by
  obtain ⟨cs, eq, -⟩ := s.exposedBase_eq label
  refine all.of_source inherent (by rw [eq]; rfl) fun e he => ?_
  rcases mem_clauses_iff.1 he with he | he
  · exact all.others inherent (mem_others_exposedBase he)
  · rw [eq] at he
    exact all.clause inherent (mem_clauses_of_filter he)

/-- and so has the one that is numbered. -/
theorem Numbers.allNodes (h : s.Numbers supply numbered order supply') (all : s.AllNodes P)
    (name : String) : (numbered.numbering name order).AllNodes P := by
  cases h with
  | plain =>
    refine all.of_source inherent rfl fun e he => ?_
    rcases mem_clauses_iff.1 he with he | he
    · rcases mem_others_numbering he with he | rfl
      · exact all.others inherent he
      · exact .rowNumber inherent fun term hterm =>
          all.others inherent (mem_others_of_pageTerms hterm)
    · exact all.clause inherent (mem_clauses_of_filter he)
  | wrapped =>
    refine (all.exposedBase inherent supply.fresh.1).of_subquery inherent rfl fun e he => ?_
    rcases mem_clauses_wrapped he with ⟨c, -, rfl⟩ | rfl
    · exact .column inherent _ _
    · refine .rowNumber inherent fun term hterm => ?_
      obtain ⟨n, -, he⟩ := expr_of_mem_exposing hterm
      rw [he]
      exact .column inherent _ _

/-- **A page keeps what is inherent in the nodes of a select.** -/
theorem AllNodes.page (all : s.AllNodes P)
    (h : outcome (s.page rowNumberColumn) supply = .ok (s', supply')) : s'.AllNodes P := by
  rcases of_page h with ⟨-, -, rfl, rfl⟩ | ⟨numbered, order, filter, numbers, predicate, rfl⟩
  · exact all.of_source inherent rfl fun _ he => all.clause inherent he
  · refine (numbers.allNodes inherent all _).of_subquery inherent rfl fun e he => ?_
    rcases mem_clauses_pageOf he with ⟨c, -, rfl⟩ | rfl | rfl
    · exact .column inherent _ _
    · exact .of_pagePredicate inherent (.column inherent _ _) predicate
    · exact .column inherent _ _

end AllNodes

/-- A page without a NaN is that of a select without one. -/
theorem Numbers.naNFree_of (h : s.Numbers supply numbered order supply') (name : String)
    (free : (numbered.numbering name order).NaNFree) : s.NaNFree := by
  obtain ⟨level, holds, source, clauses⟩ := h.exists_level name
  have own : level.NaNFree := fun n hn => free n (holds.nodes_subset hn)
  refine own.of_source source.symm fun e he => ?_
  obtain ⟨e', same, sublist⟩ := clauses e he
  rcases same with rfl | equal
  · exact fun n hn => own n (sublist.subset hn)
  -- what equals anything has no NaN, whatever becomes of it
  · exact Expr.naNFree_of_beq equal

/-- A page has a NaN exactly if the paged select has one. -/
theorem naNFree_page_iff (h : outcome (s.page rowNumberColumn) supply = .ok (s', supply')) :
    s'.NaNFree ↔ s.NaNFree := by
  refine ⟨fun free => ?_, fun free => AllNodes.page Node.inherent_isNaN free h⟩
  rcases of_page h with ⟨-, -, rfl, -⟩ | ⟨numbered, order, filter, numbers, -, rfl⟩
  · exact free.of_source rfl (naNFree_iff.1 free).2.2
  · exact numbers.naNFree_of _ (free.child (mem_children_of_subquery rfl))

/-- **Paging neither brings a NaN nor loses one.** -/
theorem naNFree_paging_iff
    (h : outcome (s.transform (.paging rowNumberColumn) depth) supply = .ok (s', supply')) :
    s'.NaNFree ↔ s.NaNFree := by
  have leaves := Transform.paging_keepsLeaves rowNumberColumn
  refine transform_induction leaves (R := fun _ _ s s' _ => s'.NaNFree ↔ s.NaNFree) ?_ h
  intro depth s s₁ s' st st₁ st' chain mirrors hact
  have act : s'.NaNFree ↔ s₁.NaNFree := by
    rcases of_select_paging hact with hpage | ⟨-, -, rfl, -⟩
    · exact naNFree_page_iff hpage
    · exact Iff.rfl
  refine act.trans ⟨fun free => ?_, fun free => ?_⟩
  · refine mirrors.naNFree_of leaves free fun q hq => ?_
    obtain ⟨q₁, hq₁, _, _, same⟩ := chain.exists_of_mem_left (mem_visited_iff.2 hq)
    exact same.1 (free.child (mem_visited_iff.1 hq₁))
  · refine mirrors.naNFree leaves free fun q₁ hq₁ => ?_
    obtain ⟨q, hq, _, _, same⟩ := chain.exists_of_mem (mem_visited_iff.2 hq₁)
    exact same.2 (free.child (mem_visited_iff.1 hq))

/-- The same for the expressions of a select whose parts are paged. -/
theorem naNFree_becomes_iff {e e' : Expr}
    (h : e.Becomes (.paging rowNumberColumn) depth e') : e'.NaNFree ↔ e.NaNFree := by
  have leaves := Transform.paging_keepsLeaves rowNumberColumn
  have subqueries := h.subqueries leaves
  refine ⟨fun free => h.naNFree_of leaves free fun q hq => ?_,
    fun free => h.naNFree leaves free fun q' hq' => ?_⟩
  · obtain ⟨q', hq', _, _, hrun⟩ := exists_of_forall₂_of_mem_left subqueries hq
    exact (naNFree_paging_iff hrun).1 (free.subquery hq')
  · obtain ⟨q, hq, _, _, hrun⟩ := exists_of_forall₂_of_mem subqueries hq'
    exact (naNFree_paging_iff hrun).2 (free.subquery hq)

end Select

end HiveQuery
