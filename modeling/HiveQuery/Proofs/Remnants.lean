import HiveQuery.Proofs.Passage
import HiveQuery.Proofs.Rendering
/-!
# Nothing is left of paging and placing

Placing the orderings undoes every reversal, and paging then replaces every skip and take by a
condition on row numbers. The second placing meets no page, so it leaves an ordering to the top
select alone. The passes after it drop columns and rename references, which brings nothing back. A
compiled statement therefore is not refused for a reversal or a skip. The text that is written of it
has a line for the columns of a select and one for each of its clauses, and it bounds the number of
rows nowhere (`Compiler.lower_leaves_nothing`).
-/

namespace HiveQuery

open Outcome

namespace Select

/-- The select has neither a page nor a reversal. -/
structure Bare (s : Select) : Prop where
  skip : s.skip = none
  take : s.take = none
  reversed : s.reversed = false

variable {s s' : Select}

/-- A bare select is not paged. -/
theorem Bare.hasPaging (h : s.Bare) : s.hasPaging = false := by
  rw [Select.hasPaging, h.skip, h.take]
  rfl

/-! ## Placing -/

/-- After orderings are placed nothing is reversed. -/
theorem everywhere_reversed_exposed (placement : Placement) (s : Select) :
    (s.exposed placement).Everywhere (·.reversed = false) := by
  intro q hq
  obtain ⟨q₀, placement', -, rfl⟩ := hq.exists_of_exposed
  exact reversed_exposed placement' q₀

theorem Bare.exposed (h : s.Bare) (placement : Placement) : (s.exposed placement).Bare := by
  refine ⟨?_, ?_, reversed_exposed placement s⟩
  · rw [skip_exposed, h.skip]
  · rw [take_exposed, h.take]

/-- **Placing leaves no ordering below the top** where there is no page. -/
theorem settled_of_bare (h : s.Everywhere Bare) (placement : Placement) :
    (s.exposed placement).Bare ∧
      ∀ c ∈ (s.exposed placement).children, c.Everywhere fun q => q.Bare ∧ q.ordering = [] := by
  induction s using children_induction generalizing placement with
  | step s ih =>
    obtain ⟨here, below⟩ := everywhere_iff.1 h
    refine ⟨here.exposed placement, fun c hc => ?_⟩
    obtain ⟨c₀, hc₀, placement', inner, rfl⟩ := exists_of_mem_children_exposed hc
    obtain ⟨bare, deeper⟩ := ih c₀ hc₀ (below c₀ hc₀) placement'
    -- only a page keeps its ordering inside, so this one goes up
    have unpaged := ((everywhere_iff.1 (below c₀ hc₀)).1).hasPaging
    exact everywhere_iff.2 ⟨⟨bare, ordering_exposed_of_unpaged inner unpaged⟩, deeper⟩

/-! ## Paging -/

section Paging

variable {P Q : Select → Prop} (bare : ∀ q : Select, q.Bare → P q)
include bare

/-- The levels of a page are bare, and what is below them was below the paged select. -/
theorem Numbers.everywhere {numbered : Select} {order : List OrderTerm}
    {supply supply' : LabelSupply} (h : s.Numbers supply numbered order supply')
    (below : ∀ c ∈ s.children, c.Everywhere P) (name : String) :
    (numbered.numbering name order).Everywhere P := by
  cases h with
  | plain =>
    refine everywhere_iff.2 ⟨bare _ ⟨rfl, rfl, rfl⟩, fun c hc => ?_⟩
    exact below c (s.children_numbering_subset _ _ hc)
  | wrapped =>
    have inner : (s.exposedBase supply.fresh.1).Bare := by
      obtain ⟨cs, eq, -⟩ := s.exposedBase_eq supply.fresh.1
      rw [eq]
      exact ⟨rfl, rfl, rfl⟩
    have base : (s.exposedBase supply.fresh.1).Everywhere P :=
      everywhere_iff.2 ⟨bare _ inner, fun c hc => below c (s.children_exposedBase_subset _ hc)⟩
    exact everywhere_of_subquery rfl (fun _ he => (of_mem_clauses_wrapped he).1)
      (bare _ ⟨rfl, rfl, rfl⟩) base

/-- What holds of every level of a page, and of the selects below the paged one, holds everywhere in
the page. -/
theorem everywhere_page {rowNumberColumn : String} {t : Select} {supply supply' : LabelSupply}
    (h : outcome (s.page rowNumberColumn) supply = .ok (t, supply'))
    (own : s.take = none → P { s with skip := none })
    (below : ∀ c ∈ s.children, c.Everywhere P) : t.Everywhere P := by
  rcases of_page h with ⟨-, noTake, rfl, -⟩ | ⟨numbered, order, filter, numbers, predicate, rfl⟩
  · exact everywhere_iff.2 ⟨own noTake, below⟩
  · exact everywhere_of_subquery rfl
      (fun _ he => (of_mem_clauses_pageOf numbers.columnNames_subset predicate he).1)
      (bare _ ⟨rfl, rfl, rfl⟩) (numbers.everywhere bare below _)

/-- **Paging leaves no page behind**: its selects are bare, or they are those of before without a
page. -/
theorem everywhere_paging {rowNumberColumn : String} {depth : Nat} {supply supply' : LabelSupply}
    (own : ∀ q q₁ : Select, Q q → q₁.reversed = q.reversed → q₁.skip = none → q₁.take = none → P q₁)
    (start : s.Everywhere Q)
    (h : outcome (s.transform (.paging rowNumberColumn) depth) supply = .ok (s', supply')) :
    s'.Everywhere P := by
  have run : s.Everywhere Q → s'.Everywhere P := by
    refine transform_induction (Transform.paging_keepsLeaves rowNumberColumn)
      (R := fun _ _ s s' _ => s.Everywhere Q → s'.Everywhere P) ?_ h
    intro depth s s₁ s' st st₁ st' chain mirrors hact start
    obtain ⟨here, inner⟩ := everywhere_iff.1 start
    have below : ∀ c ∈ s₁.children, c.Everywhere P := by
      intro c hc
      obtain ⟨c₀, hc₀, _, _, ended⟩ := chain.exists_of_mem (mem_visited_iff.2 hc)
      exact ended (inner c₀ (mem_visited_iff.1 hc₀))
    rcases of_select_paging hact with hpage | ⟨noSkip, noTake, rfl, -⟩
    · exact everywhere_page bare hpage
        (fun noTake => own s { s₁ with skip := none } here mirrors.reversed rfl noTake) below
    · exact everywhere_iff.2 ⟨own s _ here mirrors.reversed noSkip noTake, below⟩
  exact run start

end Paging

/-- **After paging no select is paged or reversed**, if none was reversed before. -/
theorem everywhere_bare_paging {rowNumberColumn : String} {depth : Nat}
    {supply supply' : LabelSupply} (forward : s.Everywhere (·.reversed = false))
    (h : outcome (s.transform (.paging rowNumberColumn) depth) supply = .ok (s', supply')) :
    s'.Everywhere Bare :=
  everywhere_paging (fun _ bare => bare)
    (fun _ _ forward reversed skip take => ⟨skip, take, reversed.trans forward⟩) forward h

end Select

/-! ## The passes after paging -/

namespace Projection

/-- **What is left of a query**: its selects are bare, and only the top one may have an ordering. -/
structure Cleared (p : Projection) : Prop where
  top : p.select.Bare
  below : ∀ c ∈ p.select.children, c.Everywhere fun q => q.Bare ∧ q.ordering = []

variable {p p' : Projection}

/-- A transformation that drops columns keeps a query cleared. -/
theorem Cleared.of_thins {m : Type → Type} [Monad m] [LawfulMonad m] {σ : Type} [Outcome m σ]
    {t : Transform m} {st st' : σ} (h : p.Cleared) (thins : t.Thins)
    (hselect : outcome (p.select.transform t 0) st = .ok (p'.select, st')) : p'.Cleared := by
  have bare := (thins.keeps (P := Select.Bare) (fun depth s s₁ cs here mirrors _ =>
    ⟨mirrors.skip.trans here.skip, mirrors.take.trans here.take,
      mirrors.reversed.trans here.reversed⟩) hselect).1
  have unordered := (thins.keeps (P := fun q => q.Bare ∧ q.ordering = [])
    (fun depth s s₁ cs here mirrors _ => by
      have ordering := mirrors.ordering
      rw [here.2, List.forall₂_nil_left_iff] at ordering
      exact ⟨⟨mirrors.skip.trans here.1.skip, mirrors.take.trans here.1.take,
        mirrors.reversed.trans here.1.reversed⟩, ordering⟩) hselect).2
  exact ⟨bare h.top, unordered h.below⟩

/-- Conforming touches the columns alone. -/
theorem Cleared.of_conform {mapping : Mapping} {byPosition : Bool} (h : p.Cleared)
    (run : (p.conform mapping byPosition).result = .ok p') : p'.Cleared := by
  rcases Projection.of_conform run with ⟨-, -, rfl⟩ |
    ⟨name, bindings, entity, columns, -, -, rfl, -, -, exprs⟩
  · exact h
  · exact ⟨⟨h.top.skip, h.top.take, h.top.reversed⟩, fun c hc =>
      h.below c (Select.children_subset_of_columns exprs hc)⟩

/-- **A query that has gone its way is cleared.** -/
theorem cleared_of_lowers {c : Compiler} (h : c.Lowers p p') : p'.Cleared := by
  obtain ⟨-, page, conform, merge, prune, -⟩ := h
  obtain ⟨st₁, hpage, -⟩ := Projection.of_outcome_transform page
  have bare := Select.everywhere_bare_paging
    (p.select.everywhere_reversed_exposed .outermost) hpage
  -- the pages are gone, so the second placing takes every ordering to the top
  obtain ⟨top, below⟩ := Select.settled_of_bare bare .outermost
  have conformed := Cleared.of_conform ⟨top, below⟩ conform
  obtain ⟨_, _, hmerge, -⟩ := of_mergeColumns merge
  have merged := conformed.of_thins Transform.merging_thins hmerge
  refine pruneColumns_induction (P := Cleared) (fun p p' cleared round => ?_) merged prune
  exact cleared.of_thins (Transform.keepColumns_thins _) (of_round round).1

end Projection

/-! ## Texts -/

/-- A bare select bounds no rows. -/
theorem Select.Bare.limitClause {s : Select} (h : s.Bare) (indent : Nat) :
    s.limitClause indent = [] := by
  rw [Select.limitClause, h.take]
  rfl

/-- **The text of a bare select has no line for the number of rows.** -/
theorem Select.Bare.lines {s : Select} (h : s.Bare) {d : Dialect} {indent : Nat}
    {place : SelectPlace} {text : String} (written : s.render d indent place = .ok text) :
    s.Lines d indent [] text := by
  have lines := Select.lines_of_render written
  rwa [h.limitClause] at lines

/-- A bare select is not refused for a reversal or for a skip. -/
theorem Select.Bare.accept_ne {s : Select} (h : s.Bare) (d : Dialect) (place : SelectPlace)
    (name label : String) : s.accept d place ≠ .error (.reversedLeft label) ∧
      s.accept d place ≠ .error (.skipLeft name label) := by
  simp only [Select.accept, h.reversed, h.skip, Option.any_none, Bool.false_eq_true, if_false]
  constructor <;> intro refuses <;> split at refuses <;> cases refuses

/-- An expression is never refused for what a select has. -/
theorem Expr.Refused.ne {d : Dialect} {e : Expr} {failure : Failure} (h : e.Refused d failure)
    (name label : String) : failure ≠ .reversedLeft label ∧ failure ≠ .skipLeft name label := by
  cases h with
  | notFinite => simp
  | generatedIdText => simp
  | aggregate h =>
    unfold AggregateFunction.accept at h
    split at h
    · obtain rfl := Except.error.inj h
      simp
    · split at h
      · obtain rfl := Except.error.inj h
        simp
      · cases h
  | generatedId h =>
    unfold Dialect.generatedId at h
    split at h
    · cases h
    · obtain rfl := Except.error.inj h
      simp

namespace Compiler

/-- **Nothing is left of paging and placing.** In a compiled statement no select that a query holds
has a skip, a take or a reversal, and none but the top selects has an ordering. So no dialect
refuses the statement for a reversal or a skip. The text of the statement is made of the lines of
its queries, and at the top as in every subquery these are the line of the columns and those from
`FROM` to `ORDER BY`; no `LIMIT` follows. -/
theorem lower_leaves_nothing {c : Compiler} {s t : Statement} (h : (c.lower s).result = .ok t) :
    (∀ p ∈ t.queries,
      (∀ q, .select q ∈ p.select.nodes → q.skip = none ∧ q.take = none ∧ q.reversed = false) ∧
      ∀ q, .select q ∈ p.select.nodes.tail → q.ordering = []) ∧
    ∀ d : Dialect,
      (∀ label, t.render d ≠ .error (.reversedLeft label)) ∧
      (∀ name label, t.render d ≠ .error (.skipLeft name label)) ∧
      (∀ text, t.render d = .ok text → ∃ texts, text = String.intercalate ";\n" texts ∧
        List.Forall₂ (fun p text => p.select.Lines d 0 [] text) t.queries texts) ∧
      ∀ p ∈ t.queries, ∀ q, .select q ∈ p.select.nodes → ∀ indent place text,
        q.render d indent place = .ok text → q.Lines d indent [] text := by
  have cleared : ∀ p ∈ t.queries, p.Cleared := by
    intro p' hp'
    obtain ⟨p, -, lowers⟩ := exists_of_forall₂_of_mem (forall₂_lowers h) hp'
    exact Projection.cleared_of_lowers lowers
  have bare : ∀ p ∈ t.queries, ∀ q, .select q ∈ p.select.nodes → q.Bare := by
    intro p hp q hq
    have all : p.select.Everywhere Select.Bare := Select.everywhere_iff.2
      ⟨(cleared p hp).top, fun c hc q hq => ((cleared p hp).below c hc q hq).1⟩
    exact all q (Select.mem_nodes_iff_holds.1 hq)
  have refused : ∀ (d : Dialect) (name label : String) (failure : Failure),
      failure = .reversedLeft label ∨ failure = .skipLeft name label →
      t.render d ≠ .error failure := by
    intro d name label failure left fails
    rcases Statement.unwritable_of_render fails with ⟨-, rfl⟩ | ⟨-, rfl⟩ | ⟨p, hp, unwritable⟩
    · simp at left
    · simp at left
    · cases unwritable with
      | select holds own =>
        obtain ⟨forward, unskipped⟩ :=
          (bare p hp _ holds.mem_nodes).accept_ne d _ name label
        rcases left with rfl | rfl
        · exact forward own
        · exact unskipped own
      | expr here own =>
        obtain ⟨forward, unskipped⟩ := own.ne name label
        exact left.elim forward unskipped
  refine ⟨fun p hp => ⟨fun q hq => ?_, fun q hq => ?_⟩, fun d => ⟨fun label => ?_,
    fun name label => ?_, fun text written => ?_,
    fun p hp q hq indent place text written => (bare p hp q hq).lines written⟩⟩
  · have h := bare p hp q hq
    exact ⟨h.skip, h.take, h.reversed⟩
  · obtain ⟨c, hc, holds⟩ := Select.mem_nodes_tail_iff.1 hq
    exact ((cleared p hp).below c hc q holds).2
  · exact refused d "" label _ (.inl rfl)
  · exact refused d name label _ (.inr rfl)
  · obtain ⟨texts, rfl, queries⟩ := Statement.exists_texts_of_render written
    exact ⟨texts, rfl, forall₂_imp_of_mem queries fun p hp _ _ written =>
      (cleared p hp).top.lines written⟩

/-- The page of paid orders, with another page in its filter, is written without a `LIMIT`. -/
theorem lower_leaves_nothing_paidOrders :
    ∃ t text texts,
      (orderCompiler.lower (.query ⟨paidOrders, .entity "Order" []⟩)).result = .ok t ∧
      (∀ p ∈ t.queries, ∀ q, .select q ∈ p.select.nodes.tail → q.ordering = []) ∧
      t.render .hive = .ok text ∧ text = String.intercalate ";\n" texts ∧
      List.Forall₂ (fun p text => p.select.Lines .hive 0 [] text) t.queries texts := by
  have succeeds : ((orderCompiler.lower (.query ⟨paidOrders, .entity "Order" []⟩)).result >>=
      fun t => t.render .hive).isOk := by
    rw [result_lower, if_pos (by decide)]
    cbv
  obtain ⟨text, compiled⟩ := isOk_iff_exists.1 succeeds
  obtain ⟨t, run, written⟩ := exists_of_bind_eq_ok compiled
  obtain ⟨queries, texts⟩ := lower_leaves_nothing run
  obtain ⟨lines, joined, each⟩ := (texts .hive).2.2.1 text written
  exact ⟨t, text, lines, run, fun p hp => (queries p hp).2, written, joined, each⟩

end Compiler

end HiveQuery
