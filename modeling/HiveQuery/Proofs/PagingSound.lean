import HiveQuery.Proofs.Governed
import HiveQuery.Proofs.Names
import HiveQuery.Proofs.Page
/-!
# Paging keeps trees valid

A page is a select over a select over the paged one, with one more level if that is grouped or
distinct. Each new level reads the one below it by its column names alone (`Select.ReadsOnly`), and
the lowest one has the source, the filter and the clauses of the paged select under a new label
(`Select.Renews`). So a page is valid where the paged select was, and declares one or two new labels
besides (`paging_governs`).
-/

namespace HiveQuery

open Outcome

/-! ## Drawn labels -/

namespace LabelSupply

/-- The labels that are drawn from one state of a supply to another: they differ from each other and
from those taken. -/
structure Draws (supply : LabelSupply) (drawn : List String) (supply' : LabelSupply) : Prop where
  taken : supply'.taken = supply.taken
  next : supply.next ≤ supply'.next
  nodup : drawn.Nodup
  free : ∀ label ∈ drawn, label ∉ supply.taken
  numbered : ∀ label ∈ drawn, ∃ n, supply.next ≤ n ∧ n < supply'.next ∧ label = candidate n

theorem Draws.nil (supply : LabelSupply) : supply.Draws [] supply :=
  ⟨rfl, le_rfl, List.nodup_nil, by simp, by simp⟩

/-- Different numbers make different labels. -/
theorem candidate_injective : Function.Injective candidate :=
  append_repr_injective "t"

/-- What is drawn first is not drawn again. -/
theorem Draws.append {supply supply₁ supply₂ : LabelSupply} {drawn drawn' : List String}
    (h : supply.Draws drawn supply₁) (h' : supply₁.Draws drawn' supply₂) :
    supply.Draws (drawn ++ drawn') supply₂ := by
  refine ⟨h'.taken.trans h.taken, h.next.trans h'.next, ?_, ?_, ?_⟩
  · refine List.nodup_append.2 ⟨h.nodup, h'.nodup, ?_⟩
    rintro label here _ there rfl
    obtain ⟨n, -, below, rfl⟩ := h.numbered label here
    obtain ⟨k, above, -, same⟩ := h'.numbered _ there
    have equal : n = k := candidate_injective same
    omega
  · intro label hlabel
    rcases List.mem_append.1 hlabel with here | there
    · exact h.free label here
    · exact h.taken ▸ h'.free label there
  · intro label hlabel
    have first := h.next
    have second := h'.next
    rcases List.mem_append.1 hlabel with here | there
    · obtain ⟨n, lower, upper, rfl⟩ := h.numbered label here
      exact ⟨n, lower, by omega, rfl⟩
    · obtain ⟨n, lower, upper, rfl⟩ := h'.numbered label there
      exact ⟨n, by omega, upper, rfl⟩

/-- A fresh label is neither taken nor drawn before. -/
theorem draws_fresh (supply : LabelSupply) : supply.Draws [supply.fresh.1] supply.fresh.2 := by
  obtain ⟨lower, -⟩ := firstFree_spec supply.taken candidate supply.next supply.taken.length
  refine ⟨rfl, ?_, List.nodup_singleton _, ?_, ?_⟩
  · exact lower.trans (Nat.le_succ _)
  · rintro label hlabel
    obtain rfl := List.mem_singleton.1 hlabel
    exact firstFree_not_mem supply.taken candidate_injective supply.next
  · rintro label hlabel
    obtain rfl := List.mem_singleton.1 hlabel
    exact ⟨_, lower, Nat.lt_succ_self _, rfl⟩

end LabelSupply

/-! ## A level over a select -/

namespace Select

variable {s q : Select}

/-- The select `q` reads the columns of one subquery `b` by name and does nothing else. -/
structure ReadsOnly (b q : Select) : Prop where
  source : q.source = some (.subquery b)
  names : q.columnNames.Nodup
  clauses : ∀ e ∈ q.clauses, e.subqueries = [] ∧
    ∀ r ∈ e.localRefs, ∃ name ∈ b.columnNames, r = (b.label, name)

variable {b : Select}

/-- **A select that does nothing but read a valid one is valid.** -/
theorem ReadsOnly.check (h : b.ReadsOnly q) {scope : Scope} (check : b.check scope = .ok ()) :
    q.check scope = .ok () := by
  have frame : q.frame = [(b.label, .columns b.columnNames)] := by
    rw [frame, h.source]
    rfl
  refine check_eq_ok_iff.2 ⟨h.names, ?_, fun e he => ⟨fun r hr => ?_, fun c hc => ?_⟩, ?_⟩
  · simpa [sources, h.source, Source.selects] using check
  · obtain ⟨name, hname, rfl⟩ := (h.clauses e he).2 r hr
    rw [frame]
    exact Scope.error?_eq_none_of_mem (by simp) (List.mem_singleton_self _) hname
  · rw [(h.clauses e he).1] at hc
    cases hc
  · simp [conditions, h.source, Source.conditions]

/-- It is tidy, since it holds no subquery but the one that it reads. -/
theorem ReadsOnly.tidy (h : b.ReadsOnly q) : q.Tidy := by
  refine ⟨fun e he => (h.clauses e (mem_clauses_iff.2 (.inl he))).1, ?_, fun source hs => ?_⟩
  · simp [conditions, h.source, Source.conditions]
  · obtain rfl := Option.some.inj (h.source.symm.trans hs)
    trivial

/-- What is below it is the select that it reads, and what is below that. -/
theorem ReadsOnly.everywhere (h : b.ReadsOnly q) (tidy : b.Everywhere Tidy) :
    q.Everywhere Tidy := by
  refine everywhere_iff.2 ⟨h.tidy, fun c hc => ?_⟩
  rcases h.tidy.mem_children_iff.1 hc with hc | ⟨e, he, hc⟩
  · simp only [sources, h.source, Option.toList_some, List.flatMap_singleton, Source.selects,
      List.mem_singleton] at hc
    exact hc ▸ tidy
  · rw [(h.clauses e (mem_clauses_of_filter he)).1] at hc
    cases hc

/-- It declares one label more. -/
theorem ReadsOnly.labels (h : b.ReadsOnly q) : q.labels = q.label :: b.labels := by
  have filter : q.filter.toList.flatMap Expr.labels = [] := Expr.flatMap_labels_eq_nil fun e he =>
    (h.clauses e (mem_clauses_of_filter (Option.mem_toList.1 he))).1
  rw [h.tidy.labels_eq, filter, h.source]
  simp [Source.labels_subquery]

end Select

/-! ## The levels of a page -/

theorem Expr.localRefs_rowNumber (order : List OrderTerm) :
    (Expr.rowNumber order).localRefs = order.flatMap (·.expr.localRefs) := by
  rw [Expr.localRefs_eq]
  simp [Expr.parts, Expr.ref?, List.flatMap_map]

theorem Expr.subqueries_rowNumber (order : List OrderTerm) :
    (Expr.rowNumber order).subqueries = order.flatMap (·.expr.subqueries) := by
  rw [Expr.subqueries_eq]
  simp [Expr.parts, Expr.query?, List.flatMap_map]

/-- The condition of a page refers to the row number alone. -/
theorem of_pagePredicate {rowNumber filter : Expr} {skip take : Option UInt64}
    (h : pagePredicate rowNumber skip take = .ok filter) :
    filter.subqueries ⊆ rowNumber.subqueries ∧ filter.localRefs ⊆ rowNumber.localRefs := by
  have single : ∀ {op : BinaryOp} {n : Nat} {e : Expr},
      (pageBound n).map (.binary op rowNumber) = .ok e →
        e.subqueries = rowNumber.subqueries ∧ e.localRefs = rowNumber.localRefs := by
    intro op n e he
    obtain ⟨bound, rfl, -⟩ := of_map_pageBound he
    rw [Expr.subqueries_eq, Expr.localRefs_eq]
    have literal : (Expr.literal (.int bound)).subqueries = [] ∧
        (Expr.literal (.int bound)).localRefs = [] := ⟨rfl, rfl⟩
    simp [Expr.parts, Expr.query?, Expr.ref?, literal.1, literal.2]
  rcases of_pagePredicate_eq_ok h with ⟨n, -, -, h⟩ | ⟨k, -, -, h⟩ |
    ⟨k, n, after, upTo, -, -, hafter, hupTo, rfl⟩
  · obtain ⟨queries, refs⟩ := single h
    rw [queries, refs]
    exact ⟨List.Subset.refl _, List.Subset.refl _⟩
  · obtain ⟨queries, refs⟩ := single h
    rw [queries, refs]
    exact ⟨List.Subset.refl _, List.Subset.refl _⟩
  · obtain ⟨queries, refs⟩ := single hafter
    obtain ⟨queries', refs'⟩ := single hupTo
    rw [Expr.and, Expr.subqueries_eq, Expr.localRefs_eq]
    simp [Expr.parts, Expr.query?, Expr.ref?, queries, refs, queries', refs']

namespace Select

variable {s : Select}

/-- A page is ordered by terms of the select itself, or by its columns. -/
theorem mem_others_of_pageTerms {term : OrderTerm} (h : term ∈ s.pageTerms) :
    term.expr ∈ s.others := by
  unfold pageTerms at h
  split at h
  · obtain ⟨c, hc, rfl⟩ := List.mem_map.1 h
    exact mem_others_of_columns (List.mem_of_mem_filter hc)
  · exact mem_others_of_ordering h

/-- A new column of row numbers may be added under a name that is free. -/
theorem nodup_numbering {name : String} {order : List OrderTerm} (names : s.columnNames.Nodup)
    (fresh : name ∉ s.columnNames) : (s.numbering name order).columnNames.Nodup := by
  rw [columnNames, numbering, List.map_append]
  refine List.nodup_append.2 ⟨names, List.nodup_singleton _, ?_⟩
  rintro a ha _ hb rfl
  obtain rfl : a = name := List.mem_singleton.1 hb
  exact fresh ha

/-- A numbered select has the clauses of the paged one and the row number. -/
theorem mem_others_numbering {label name : String} {e : Expr}
    (he : e ∈ ((s.unpaged label).numbering name s.pageTerms).others) :
    e ∈ s.others ∨ e = .rowNumber s.pageTerms := by
  simp only [others, numbering, unpaged, List.map_append, List.map_nil, List.append_nil,
    List.mem_append, List.map_singleton, List.mem_singleton] at he ⊢
  tauto

/-- A plain select is numbered itself. -/
theorem renews_numbering (names : s.columnNames.Nodup) (label : String) {name : String}
    (fresh : name ∉ s.columnNames) :
    s.Renews ((s.unpaged label).numbering name s.pageTerms) := by
  refine ⟨rfl, rfl, ?_, fun e he => ?_⟩
  · have base : (s.unpaged label).columnNames.Nodup := names
    exact nodup_numbering base fresh
  · rcases mem_others_numbering he with own | rfl
    · exact ⟨fun r hr => ⟨e, own, hr⟩, fun c hc => ⟨e, own, hc⟩⟩
    · rw [Expr.localRefs_rowNumber, Expr.subqueries_rowNumber]
      refine ⟨fun r hr => ?_, fun c hc => ?_⟩
      · obtain ⟨term, hterm, hr⟩ := List.mem_flatMap.1 hr
        exact ⟨term.expr, mem_others_of_pageTerms hterm, hr⟩
      · obtain ⟨term, hterm, hc⟩ := List.mem_flatMap.1 hc
        exact ⟨term.expr, mem_others_of_pageTerms hterm, hc⟩

/-- The lowest level is the select under a new label, with columns for the terms that the page is
ordered by. -/
theorem exposedBase_eq (label : String) (s : Select) :
    ∃ cs, s.exposedBase label = (s.unpaged label).adding cs ∧
      ∀ c ∈ cs, ∃ term ∈ s.pageTerms, c.expr = term.expr :=
  (s.unpaged label).exposing_adds s.pageTerms

/-- The columns for the terms of a page are of expressions that the select has. -/
theorem mem_others_exposedBase {label : String} {e : Expr}
    (he : e ∈ (s.exposedBase label).others) : e ∈ s.others := by
  obtain ⟨cs, eq, hexpr⟩ := s.exposedBase_eq label
  have added : ∀ c ∈ cs, c.expr ∈ s.others := fun c hc => by
    obtain ⟨term, hterm, hc⟩ := hexpr c hc
    exact hc ▸ mem_others_of_pageTerms hterm
  rw [eq] at he
  simp only [others, adding, unpaged, List.map_append, List.map_nil, List.append_nil,
    List.mem_append] at he
  rcases he with ((he | he) | he) | he
  · exact List.mem_append_left _ (List.mem_append_left _ (List.mem_append_left _ he))
  · obtain ⟨c, hc, rfl⟩ := List.mem_map.1 he
    exact added c hc
  · exact List.mem_append_left _ (List.mem_append_right _ he)
  · exact List.mem_append_right _ he

/-- Any other select is given the columns for the terms of its page. -/
theorem renews_exposedBase (names : s.columnNames.Nodup) (label : String) :
    s.Renews (s.exposedBase label) := by
  have base : (s.unpaged label).columnNames.Nodup := names
  obtain ⟨cs, eq, -⟩ := s.exposedBase_eq label
  refine ⟨by rw [eq]; rfl, by rw [eq]; rfl, (exposing_names base s.pageTerms).1, fun e he => ?_⟩
  have own := mem_others_exposedBase he
  exact ⟨fun r hr => ⟨e, own, hr⟩, fun c hc => ⟨e, own, hc⟩⟩

@[simp] theorem label_exposedBase (label : String) (s : Select) :
    (s.exposedBase label).label = label := by
  obtain ⟨cs, eq, -⟩ := s.exposedBase_eq label
  rw [eq]
  rfl

/-- It keeps the columns of the select. -/
theorem columnNames_exposedBase (label : String) (s : Select) :
    s.columnNames ⊆ (s.exposedBase label).columnNames := by
  obtain ⟨cs, eq, -⟩ := s.exposedBase_eq label
  rw [eq, columnNames, columnNames, adding, List.map_append]
  exact List.subset_append_left _ _

/-- The level that is put around a grouped or distinct select has its columns. -/
theorem columnNames_wrapped (label : String) (s : Select) :
    (s.wrapped label).columnNames = s.columnNames := by
  simp [columnNames, wrapped, forwardedColumns]

/-- All that the level in between holds are references to the select and a row number. -/
theorem mem_clauses_wrapped {label name : String} {order : List OrderTerm} {e : Expr}
    (he : e ∈ ((s.wrapped label).numbering name order).clauses) :
    (∃ c ∈ s.columns, e = s.ref c.name) ∨ e = .rowNumber order := by
  simp only [clauses, numbering, wrapped, forwardedColumns, List.map_append, List.map_map,
    List.map_singleton, Option.toList_none, List.map_nil, List.append_nil, List.mem_append,
    List.mem_map, List.mem_singleton, Function.comp_apply] at he
  refine he.imp_left ?_
  rintro ⟨c, hc, same⟩
  exact ⟨c, hc, same.symm⟩

/-- The level over it reads all of them, and numbers its rows by them. -/
theorem of_mem_clauses_wrapped {label label' name : String} {e : Expr}
    (he : e ∈ (((s.exposedBase label).wrapped label').numbering name
      ((s.unpaged label).exposing s.pageTerms).2).clauses) :
    e.subqueries = [] ∧ ∀ r ∈ e.localRefs, ∃ n ∈ (s.exposedBase label).columnNames,
      r = ((s.exposedBase label).label, n) := by
  rcases mem_clauses_wrapped he with ⟨c, hc, rfl⟩ | rfl
  · exact ⟨rfl, fun r hr => ⟨c.name, List.mem_map_of_mem hc, List.mem_singleton.1 hr⟩⟩
  · have terms : ∀ term ∈ ((s.unpaged label).exposing s.pageTerms).2,
        ∃ n ∈ (s.exposedBase label).columnNames, term.expr = .column label n :=
      fun term hterm => expr_of_mem_exposing hterm
    rw [Expr.localRefs_rowNumber, Expr.subqueries_rowNumber, label_exposedBase]
    refine ⟨List.flatMap_eq_nil_iff.2 fun term hterm => ?_, fun r hr => ?_⟩
    · obtain ⟨n, -, he⟩ := terms term hterm
      rw [he]
      rfl
    · obtain ⟨term, hterm, hr⟩ := List.mem_flatMap.1 hr
      obtain ⟨n, hn, he⟩ := terms term hterm
      rw [he] at hr
      exact ⟨n, hn, List.mem_singleton.1 hr⟩

/-- The level in between reads the lowest one by its columns alone. -/
theorem readsOnly_wrapped (names : s.columnNames.Nodup) (label label' : String) {name : String}
    (fresh : name ∉ ((s.exposedBase label).wrapped label').columnNames) :
    (s.exposedBase label).ReadsOnly (((s.exposedBase label).wrapped label').numbering name
      ((s.unpaged label).exposing s.pageTerms).2) := by
  refine ⟨rfl, nodup_numbering ?_ fresh, fun e he => of_mem_clauses_wrapped he⟩
  rw [columnNames_wrapped]
  exact (renews_exposedBase names label).names

/-- All that a page holds are references to the numbered select and a filter on the row number. -/
theorem mem_clauses_pageOf {numbered : Select} {order : List OrderTerm} {name : String}
    {filter e : Expr} (he : e ∈ (s.pageOf numbered order name filter).clauses) :
    (∃ c ∈ s.columns, e = numbered.ref c.name) ∨ e = filter ∨ e = numbered.ref name := by
  simp only [clauses, pageOf, pageOver, OrderTerm.ascending, List.map_map, Option.toList_some,
    List.map_singleton, List.append_nil, List.mem_append, List.mem_map, List.mem_singleton,
    Function.comp_apply] at he
  rcases he with (⟨c, hc, rfl⟩ | he) | he
  · exact .inl ⟨c, hc, rfl⟩
  · exact .inr (.inl he)
  · exact .inr (.inr he)

/-- The page reads the numbered select by the names of its columns and by the row number. -/
theorem of_mem_clauses_pageOf {numbered : Select} {order : List OrderTerm} {name : String}
    {filter : Expr} (sub : s.columnNames ⊆ numbered.columnNames)
    (h : pagePredicate (numbered.ref name) s.effectiveSkip s.take = .ok filter) {e : Expr}
    (he : e ∈ (s.pageOf numbered order name filter).clauses) :
    e.subqueries = [] ∧ ∀ r ∈ e.localRefs, ∃ n ∈ (numbered.numbering name order).columnNames,
      r = ((numbered.numbering name order).label, n) := by
  have declared : (numbered.numbering name order).columnNames =
      numbered.columnNames ++ [name] := by
    simp [columnNames, numbering]
  have rowNumber : name ∈ (numbered.numbering name order).columnNames := by
    rw [declared]
    exact List.mem_append_right _ (List.mem_singleton_self _)
  have reads : ∀ r ∈ (numbered.ref name).localRefs,
      ∃ n ∈ (numbered.numbering name order).columnNames,
        r = ((numbered.numbering name order).label, n) :=
    fun r hr => ⟨name, rowNumber, List.mem_singleton.1 hr⟩
  obtain ⟨queries, refs⟩ := of_pagePredicate h
  rcases mem_clauses_pageOf he with ⟨c, hc, rfl⟩ | rfl | rfl
  · refine ⟨rfl, fun r hr => ⟨c.name, ?_, List.mem_singleton.1 hr⟩⟩
    rw [declared]
    exact List.mem_append_left _ (sub (List.mem_map_of_mem hc))
  · exact ⟨List.subset_nil.1 queries, fun r hr => reads r (refs hr)⟩
  · exact ⟨rfl, reads⟩

/-- A page reads the numbered select by its columns alone. -/
theorem readsOnly_pageOf {numbered : Select} (order : List OrderTerm) {name : String}
    {filter : Expr} (names : s.columnNames.Nodup) (sub : s.columnNames ⊆ numbered.columnNames)
    (h : pagePredicate (numbered.ref name) s.effectiveSkip s.take = .ok filter) :
    (numbered.numbering name order).ReadsOnly (s.pageOf numbered order name filter) := by
  have pageNames : (s.pageOf numbered order name filter).columnNames = s.columnNames := by
    simp [columnNames, pageOf, pageOver]
  exact ⟨rfl, pageNames ▸ names, fun e he => of_mem_clauses_pageOf sub h he⟩

/-- The numbered select has the columns of the paged one. -/
theorem Numbers.columnNames_subset {numbered : Select} {order : List OrderTerm}
    {supply supply' : LabelSupply} (h : s.Numbers supply numbered order supply') :
    s.columnNames ⊆ numbered.columnNames := by
  cases h with
  | plain => exact List.Subset.refl _
  | wrapped =>
    rw [columnNames_wrapped]
    exact columnNames_exposedBase supply.fresh.1 s

/-- The select that is numbered for a page is valid where the paged select was. -/
theorem Numbers.check {numbered : Select} {order : List OrderTerm} {supply supply' : LabelSupply}
    (h : s.Numbers supply numbered order supply') {name : String}
    (fresh : name ∉ numbered.columnNames) {scope : Scope} (check : s.check scope = .ok ()) :
    (numbered.numbering name order).check scope = .ok () := by
  have names := (check_eq_ok_iff.1 check).names
  cases h with
  | plain => exact (renews_numbering names supply.fresh.1 fresh).check check
  | wrapped =>
    have reads := readsOnly_wrapped names supply.fresh.1 supply.fresh.2.fresh.1 fresh
    exact reads.check ((renews_exposedBase names supply.fresh.1).check check)

/-- **The select that is numbered for a page** has the columns of the paged select, and declares the
labels drawn for it. -/
theorem Numbers.sound {numbered : Select} {order : List OrderTerm} {supply supply' : LabelSupply}
    (h : s.Numbers supply numbered order supply') (names : s.columnNames.Nodup)
    (tidy : s.Everywhere Tidy) {name : String} (fresh : name ∉ numbered.columnNames) :
    s.columnNames ⊆ numbered.columnNames ∧
      (numbered.numbering name order).Everywhere Tidy ∧
      ∃ drawn, (numbered.numbering name order).labels.Perm (s.labels.tail ++ drawn) ∧
        supply.Draws drawn supply' := by
  have here := (everywhere_iff.1 tidy).1
  refine ⟨h.columnNames_subset, ?_⟩
  cases h with
  | plain =>
    have renews := renews_numbering names supply.fresh.1 fresh
    refine ⟨renews.everywhere tidy, [supply.fresh.1], ?_, supply.draws_fresh⟩
    rw [renews.labels here]
    exact (List.perm_append_singleton _ _).symm
  | wrapped =>
    have renews := renews_exposedBase names supply.fresh.1
    have reads := readsOnly_wrapped names supply.fresh.1 supply.fresh.2.fresh.1 fresh
    have swap : ([supply.fresh.1, supply.fresh.2.fresh.1] ++ s.labels.tail).Perm
      (s.labels.tail ++ [supply.fresh.1, supply.fresh.2.fresh.1]) := List.perm_append_comm
    have labels : (((s.exposedBase supply.fresh.1).wrapped supply.fresh.2.fresh.1).numbering name
        ((s.unpaged supply.fresh.1).exposing s.pageTerms).2).labels =
        supply.fresh.2.fresh.1 :: supply.fresh.1 :: s.labels.tail := by
      rw [reads.labels, renews.labels here, label_exposedBase]
      rfl
    refine ⟨reads.everywhere (renews.everywhere tidy), [supply.fresh.1, supply.fresh.2.fresh.1], ?_,
      supply.draws_fresh.append supply.fresh.2.draws_fresh⟩
    exact (List.Perm.of_eq labels).trans ((List.Perm.swap _ _ _).trans swap)

end Select

/-! ## The pass -/

/-- Paging renames nothing and draws labels from its supply. -/
def Plan.paging : Plan LabelSupply where
  rename _ r := r
  used _ := True
  draws := LabelSupply.Draws

/-- A select that need not be paged is the select without its skip. -/
theorem Select.renews_unskipped {s : Select} (names : s.columnNames.Nodup) :
    s.Renews { s with skip := none } :=
  ⟨rfl, rfl, names, fun e he => ⟨fun _ hr => ⟨e, he, hr⟩, fun _ hc => ⟨e, he, hc⟩⟩⟩

/-- **A page is valid where the paged select is.** -/
theorem Select.check_page {rowNumberColumn : String} {s t : Select} {supply supply' : LabelSupply}
    (h : outcome (s.page rowNumberColumn) supply = .ok (t, supply')) {scope : Scope}
    (check : s.check scope = .ok ()) : t.check scope = .ok () := by
  have names := (check_eq_ok_iff.1 check).names
  rcases of_page h with ⟨-, -, rfl, rfl⟩ | ⟨numbered, order, filter, numbers, predicate, rfl⟩
  · exact (renews_unskipped names).check check
  · have reads := readsOnly_pageOf order names numbers.columnNames_subset predicate
    exact reads.check (numbers.check (Column.availableName_not_mem _ rowNumberColumn) check)

/-- **What paging does to a select**: it is left alone, or it becomes a page that is valid where the
select is and declares one or two labels more. -/
theorem Select.acts_page {rowNumberColumn : String} {s t : Select} {supply supply' : LabelSupply}
    (h : outcome (s.page rowNumberColumn) supply = .ok (t, supply')) (names : s.columnNames.Nodup)
    (tidy : s.Everywhere Tidy) : Plan.paging.Acts supply s t supply' := by
  have valid : ∀ scope, s.check scope = .ok () → t.check scope = .ok () := fun _ => check_page h
  rcases of_page h with ⟨-, -, rfl, rfl⟩ | ⟨numbered, order, filter, numbers, predicate, rfl⟩
  · have renews := renews_unskipped names
    refine ⟨rfl, renews.everywhere tidy, valid, ⟨[], ?_, .nil _⟩, fun _ h _ => h⟩
    rw [List.append_nil, renews.labels_eq (everywhere_iff.1 tidy).1 rfl]
  · obtain ⟨sub, below, drawn, perm, draws⟩ :=
      numbers.sound names tidy (Column.availableName_not_mem _ rowNumberColumn)
    have reads := readsOnly_pageOf order names sub predicate
    refine ⟨rfl, reads.everywhere below, valid, ⟨drawn, ?_, draws⟩, fun name hname _ => ?_⟩
    · rw [reads.labels, labels_eq_cons s]
      exact perm.cons _
    · simpa [Plan.paging, columnNames, pageOf, pageOver] using hname

/-- **Paging keeps to its plan.** -/
theorem paging_governs (rowNumberColumn : String) :
    Plan.paging.Governs (Transform.paging rowNumberColumn) where
  label _ _ := rfl
  draws_nil := .nil
  draws_append := .append
  leaf e hl st e' st' h := by
    obtain ⟨rfl, rfl⟩ := outcome_pure_eq_ok_iff.1 h
    exact ⟨rfl, hl, Option.map_id'.symm⟩
  outside _ _ _ := rfl
  acts {depth s st s' st'} h names tidy fresh := by
    simp only [Transform.paging] at h
    split at h
    · exact Select.acts_page h names tidy
    · obtain ⟨rfl, rfl⟩ := outcome_pure_eq_ok_iff.1 h
      exact .refl (.nil _) tidy fresh

end HiveQuery
