import HiveQuery.Proofs.PageLiterals
/-!
# The labels of a page

A page declares the labels that the select declared, those drawn for it, and those of the subqueries
that it copies (`Select.accounts_paging`). A page that numbers its rows by a column with a subquery
in it does copy that subquery. Since nothing above takes it back, the labels in it are then declared
twice in the whole tree (`Select.repeats_of_paging`).
-/

namespace HiveQuery

open Outcome

/-! ## What is declared -/

namespace LabelSupply

/-- `Accounts supply before after supply' sparing`: the labels `after` are among those `before`,
those drawn from the supply, and copies of these, of which there are none if `sparing`. -/
def Accounts (supply : LabelSupply) (before after : List String) (supply' : LabelSupply)
    (sparing : Prop) : Prop :=
  ∃ drawn copied, after.Subperm (before ++ drawn ++ copied) ∧ supply.Draws drawn supply' ∧
    copied ⊆ before ++ drawn ∧ (sparing → copied = [])

namespace Accounts

variable {supply supply₁ supply' : LabelSupply} {before after before' after' : List String}
variable {sparing sparing' : Prop}

theorem of_subperm (h : after.Subperm before) (supply : LabelSupply) (sparing : Prop) :
    supply.Accounts before after supply sparing :=
  ⟨[], [], by simpa using h, .nil supply, List.nil_subset _, fun _ => rfl⟩

theorem imp (h : supply.Accounts before after supply' sparing) (weaker : sparing' → sparing) :
    supply.Accounts before after supply' sparing' := by
  obtain ⟨drawn, copied, subperm, draws, sub, none⟩ := h
  exact ⟨drawn, copied, subperm, draws, sub, none ∘ weaker⟩

/-- What is accounted for from one list to another and on to a third. -/
theorem trans {middle : List String} (h : supply.Accounts before middle supply₁ sparing)
    (h' : supply₁.Accounts middle after supply' sparing') :
    supply.Accounts before after supply' (sparing ∧ sparing') := by
  obtain ⟨drawn, copied, subperm, draws, sub, none⟩ := h
  obtain ⟨drawn', copied', subperm', draws', sub', none'⟩ := h'
  have within : before ++ drawn ++ copied ⊆ before ++ (drawn ++ drawn') := by
    rw [← List.append_assoc]
    exact List.append_subset.2 ⟨List.subset_append_left _ _,
      List.Subset.trans sub (List.subset_append_left _ _)⟩
  refine ⟨drawn ++ drawn', copied ++ copied', ?_, draws.append draws', ?_, fun both => ?_⟩
  · rw [← Multiset.coe_le] at subperm subperm' ⊢
    simp only [← Multiset.coe_add] at subperm subperm' ⊢
    calc (↑after : Multiset String) ≤ ↑middle + ↑drawn' + ↑copied' := subperm'
      _ ≤ ↑before + ↑drawn + ↑copied + ↑drawn' + ↑copied' := by gcongr
      _ = ↑before + (↑drawn + ↑drawn') + (↑copied + ↑copied') := by ac_rfl
  · have drawnLater : drawn' ⊆ before ++ (drawn ++ drawn') := by
      rw [← List.append_assoc]
      exact List.subset_append_right _ _
    refine List.append_subset.2 ⟨List.Subset.trans (List.subset_append_right _ _) within, ?_⟩
    exact List.Subset.trans sub' (List.append_subset.2
      ⟨List.Subset.trans subperm.subset within, drawnLater⟩)
  · rw [none both.1, none' both.2, List.append_nil]

/-- What is accounted for in two parts, one after the other. -/
theorem append (h : supply.Accounts before after supply₁ sparing)
    (h' : supply₁.Accounts before' after' supply' sparing') :
    supply.Accounts (before ++ before') (after ++ after') supply' (sparing ∧ sparing') := by
  obtain ⟨drawn, copied, subperm, draws, sub, none⟩ := h
  obtain ⟨drawn', copied', subperm', draws', sub', none'⟩ := h'
  refine ⟨drawn ++ drawn', copied ++ copied', ?_, draws.append draws', ?_, fun both => ?_⟩
  · rw [← Multiset.coe_le] at subperm subperm' ⊢
    simp only [← Multiset.coe_add] at subperm subperm' ⊢
    calc (↑after + ↑after' : Multiset String)
        ≤ ↑before + ↑drawn + ↑copied + (↑before' + ↑drawn' + ↑copied') := by gcongr
      _ = ↑before + ↑before' + (↑drawn + ↑drawn') + (↑copied + ↑copied') := by ac_rfl
  · intro label hlabel
    have here := fun hl => @sub label hl
    have there := fun hl => @sub' label hl
    simp only [List.mem_append] at hlabel here there ⊢
    tauto
  · rw [none both.1, none' both.2, List.append_nil]

/-- Every label after is one before or is new. -/
theorem mem_or_not_mem (h : supply.Accounts before after supply' sparing) {label : String}
    (hl : label ∈ after) : label ∈ before ∨ label ∉ supply.taken := by
  obtain ⟨drawn, copied, subperm, draws, sub, -⟩ := h
  have among : label ∈ before ++ drawn := by
    rcases List.mem_append.1 (subperm.subset hl) with here | there
    · exact here
    · exact sub there
  exact (List.mem_append.1 among).imp_right (draws.free label)

/-- **Where nothing is copied, labels that differ stay different.** -/
theorem nodup (h : supply.Accounts before after supply' sparing) (spared : sparing)
    (nodup : before.Nodup) (taken : before ⊆ supply.taken) : after.Nodup := by
  obtain ⟨drawn, copied, ⟨l, perm, sublist⟩, draws, -, none⟩ := h
  rw [none spared, List.append_nil] at sublist
  have all : (before ++ drawn).Nodup := by
    refine List.nodup_append.2 ⟨nodup, draws.nodup, ?_⟩
    rintro label here _ there rfl
    exact draws.free label there (taken here)
  exact perm.nodup_iff.1 (all.sublist sublist)

end Accounts

end LabelSupply

namespace Select

variable {s q : Select}

theorem labelsBelow_subperm {copied : List Select}
    (below : q.visited.Subperm (s.visited ++ copied)) (tables : q.tables = s.tables) :
    q.labelsBelow.Subperm (s.labelsBelow ++ copied.flatMap Select.labels) := by
  obtain ⟨l, perm, sublist⟩ := below
  have labels : (q.visited.flatMap Select.labels).Subperm
      ((s.visited ++ copied).flatMap Select.labels) :=
    ⟨_, perm.flatMap_right _, sublist.flatMap _⟩
  rw [labelsBelow, labelsBelow, tables, List.append_assoc, ← List.flatMap_append]
  exact (List.subperm_append_left _).2 labels

theorem flatMap_labels_subset_labelsBelow {qs : List Select} (h : qs ⊆ s.visited) :
    qs.flatMap Select.labels ⊆ s.labelsBelow := by
  intro label hlabel
  obtain ⟨c, hc, hlabel⟩ := List.mem_flatMap.1 hlabel
  exact List.mem_append_right _ (List.mem_flatMap_of_mem (h hc) hlabel)

theorem paged_of_pagePredicate {rowNumber filter : Expr}
    (h : pagePredicate rowNumber s.effectiveSkip s.take = .ok filter) :
    s.effectiveSkip.isSome ∨ s.take.isSome := by
  rcases of_pagePredicate_eq_ok h with ⟨n, -, some, -⟩ | ⟨k, some, -, -⟩ | ⟨k, n, _, _, some, -⟩
  · exact .inr (by simp [some])
  · exact .inl (by simp [some])
  · exact .inl (by simp [some])

/-- A select with a fresh label accounts for what is below it. -/
theorem accounts_of_fresh {supply : LabelSupply} {before copied : List String} {sparing : Prop}
    (label : q.label = supply.fresh.1) (below : q.labelsBelow.Subperm (before ++ copied))
    (sub : copied ⊆ before) (none : sparing → copied = []) :
    supply.Accounts before q.labels supply.fresh.2 sparing := by
  refine ⟨[supply.fresh.1], copied, ?_, supply.draws_fresh, ?_, none⟩
  · refine q.labels_perm.subperm.trans (((List.subperm_cons _).2 below).trans ?_)
    rw [label, List.append_assoc, List.singleton_append]
    exact List.perm_middle.symm.subperm
  · exact List.Subset.trans sub (List.subset_append_left _ _)

/-- The select that is numbered declares what the paged one did, the labels drawn for the levels and
those of the copies. -/
theorem Numbers.accounts {numbered : Select} {order : List OrderTerm} {supply supply' : LabelSupply}
    (h : s.Numbers supply numbered order supply') (paged : s.effectiveSkip.isSome ∨ s.take.isSome)
    (name : String) :
    supply.Accounts s.labelsBelow (numbered.numbering name order).labels supply'
      (¬ s.NumbersByQuery) := by
  cases h with
  | plain distinct grouping =>
    have below := labelsBelow_subperm (s.visited_numbering_perm supply.fresh.1 name).subperm rfl
    refine accounts_of_fresh rfl below (flatMap_labels_subset_labelsBelow s.copies_subset) ?_
    intro spares
    rw [copies_eq_nil paged distinct grouping spares, List.flatMap_nil]
  | wrapped collapsed projected =>
    set base := s.exposedBase supply.fresh.1 with hbase
    set level := (base.wrapped supply.fresh.2.fresh.1).numbering name
      ((s.unpaged supply.fresh.1).exposing s.pageTerms).2
    obtain ⟨copied, sub, below, none⟩ := visited_exposedBase_subperm paged projected supply.fresh.1
    have tables : base.tables = s.tables := by
      obtain ⟨cs, eq, -⟩ := s.exposedBase_eq supply.fresh.1
      rw [hbase, eq]
      rfl
    -- the base takes the first label, and the level over it the second
    have lower : supply.Accounts s.labelsBelow base.labels supply.fresh.2 (¬ s.NumbersByQuery) := by
      refine accounts_of_fresh (s.label_exposedBase _) (labelsBelow_subperm below tables)
        (flatMap_labels_subset_labelsBelow (List.Subset.trans sub s.copies_subset)) ?_
      intro spares
      rw [none spares, List.flatMap_nil]
    have upper : supply.fresh.2.Accounts base.labels level.labels supply.fresh.2.fresh.2 True := by
      have only : level.labelsBelow.Subperm (base.labels ++ []) := by
        rw [List.append_nil,
          labelsBelow_of_subquery rfl fun _ he => (of_mem_clauses_wrapped he).1]
      exact accounts_of_fresh rfl only (List.nil_subset _) fun _ => rfl
    exact (lower.trans upper).imp fun spares => ⟨spares, trivial⟩

/-- **What a page declares.** -/
theorem accounts_page {rowNumberColumn : String} {t : Select} {supply supply' : LabelSupply}
    (h : outcome (s.page rowNumberColumn) supply = .ok (t, supply')) :
    t.label = s.label ∧
      supply.Accounts s.labelsBelow t.labelsBelow supply' (¬ s.NumbersByQuery) := by
  rcases of_page h with ⟨-, -, rfl, rfl⟩ | ⟨numbered, order, filter, numbers, predicate, rfl⟩
  · exact ⟨rfl, .of_subperm (List.Subperm.refl _) _ _⟩
  · refine ⟨rfl, ?_⟩
    rw [numbers.labelsBelow_pageOf predicate]
    exact numbers.accounts (paged_of_pagePredicate predicate) _

end Select

/-! ## What is declared twice -/

namespace Select

variable {s s' : Select} {supply supply' : LabelSupply} {numbered : Select} {order : List OrderTerm}

/-- A label that is declared twice below a select is declared twice in its page. -/
theorem Numbers.repeats_of_visited (h : s.Numbers supply numbered order supply') (name : String)
    {c : Select} (hc : c ∈ s.visited) (repeats : ¬ c.labels.Nodup) :
    ¬ (numbered.numbering name order).labels.Nodup := by
  obtain ⟨level, holds, source, clauses⟩ := h.exists_level name
  intro nodup
  have own : level.labels.Nodup := nodup.sublist holds.labels_sublist
  rcases List.mem_append.1 hc with hc | hc
  · have child : c ∈ level.visited := by
      rw [visited, source]
      exact List.mem_append_left _ hc
    exact repeats (own.sublist (labels_sublist_of_mem_children (mem_visited_iff.1 child)))
  · obtain ⟨e, he, hc⟩ := List.mem_flatMap.1 hc
    obtain ⟨e', same, sublist⟩ := clauses e he
    -- a term that equals a column is read from it, and its labels are those of the column
    have labels : e.labels = e'.labels := by
      rcases same with rfl | equal
      · rfl
      · exact Expr.labels_of_beq equal
    have nodup' : e'.labels.Nodup := own.sublist (sublist.filterMap _)
    rw [← labels] at nodup'
    exact repeats (nodup'.sublist (Expr.labels_sublist_of_mem_subqueries hc))

theorem not_nodup_of_shared {label : String} {before after : List String} (hb : label ∈ before)
    (ha : label ∈ after) : ¬ (before ++ after).Nodup := fun nodup =>
  (List.nodup_append.1 nodup).2.2 label hb label ha rfl

/-- A page that numbers by a subquery has a term with that subquery, which is also in a column. -/
theorem NumbersByQuery.exists_copied (h : s.NumbersByQuery) :
    ∃ c ∈ s.columns, .ascending c.expr ∈ s.pageTerms ∧ ∃ q ∈ c.expr.subqueries, q ∈ s.copies ∧
      (s.grouping = [] ∨ ¬ c.expr.NaNFree) := by
  obtain ⟨-, unordered, -, c, hc, whole, holds, rest⟩ := h
  obtain ⟨q, hq⟩ := List.exists_mem_of_ne_nil _ holds
  have term : OrderTerm.ascending c.expr ∈ s.defaultOrder :=
    List.mem_map_of_mem (List.mem_filter.2 ⟨hc, by rw [whole]; rfl⟩)
  refine ⟨c, hc, ?_, q, hq, ?_, rest⟩
  · rwa [pageTerms, if_pos (List.isEmpty_iff.2 unordered)]
  · rw [copies, if_pos (List.isEmpty_iff.2 unordered)]
    exact List.mem_flatMap_of_mem term hq

/-- **A page that numbers its rows by a subquery declares the labels in it twice.** -/
theorem Numbers.repeats (h : s.Numbers supply numbered order supply') (name : String)
    (numbers : s.NumbersByQuery) : ¬ (numbered.numbering name order).labels.Nodup := by
  have plain : s.distinct = false := numbers.2.2.1
  obtain ⟨c, hc, term, q, hq, copied, rest⟩ := numbers.exists_copied
  have here : q.label ∈ q.labels := by
    rw [labels_eq_cons]
    exact List.mem_cons_self
  intro nodup
  cases h with
  | plain =>
    have visited := (List.nodup_append.1 (nodup_labelsBelow nodup)).2.1
    rw [((s.visited_numbering_perm _ _).flatMap_right labels).nodup_iff,
      List.flatMap_append] at visited
    exact not_nodup_of_shared (List.mem_flatMap_of_mem (s.copies_subset copied) here)
      (List.mem_flatMap_of_mem copied here) visited
  | wrapped collapsed =>
    have nan : ¬ c.expr.NaNFree := by
      refine rest.resolve_left fun ungrouped => ?_
      rw [plain, ungrouped] at collapsed
      simp at collapsed
    obtain ⟨cs, eq, -, -, -, each⟩ := (s.unpaged supply.fresh.1).exposing_adds_new s.pageTerms
    -- nothing equals an expression with a NaN, so it becomes a column once more
    obtain ⟨d, hd, same⟩ : ∃ d ∈ cs, d.expr = c.expr :=
      (each _ term).resolve_right fun ⟨_, _, equal⟩ => nan (Expr.naNFree_of_beq equal)
    have base := nodup.sublist (s.holds_exposedBase _ _ _).labels_sublist
    rw [exposedBase, eq] at base
    have columns := base.sublist (flatMap_labels_columns_sublist _)
    have first : q.label ∈ c.expr.labels :=
      (Expr.labels_sublist_of_mem_subqueries hq).subset here
    rw [adding, List.flatMap_append] at columns
    exact not_nodup_of_shared (List.mem_flatMap_of_mem hc first)
      (List.mem_flatMap_of_mem hd (same ▸ first)) columns

/-- A select that is not paged only repeats what is repeated below it. -/
theorem repeats_of_unpaged (unpaged : s.effectiveSkip = none ∧ s.take = none)
    (repeats : s.NumbersByQuery ∨ ∃ c ∈ s.visited, ¬ c.labels.Nodup) : ¬ s.labelsBelow.Nodup := by
  rcases repeats with ⟨paged, -⟩ | ⟨c, hc, repeats⟩
  · simp [unpaged] at paged
  · exact fun nodup => repeats (nodup.sublist (labels_sublist_labelsBelow hc))

/-- What is declared twice below a select, or numbers its rows by a subquery, is declared twice in
the page. -/
theorem repeats_of_page {rowNumberColumn : String}
    (h : outcome (s.page rowNumberColumn) supply = .ok (s', supply'))
    (repeats : s.NumbersByQuery ∨ ∃ c ∈ s.visited, ¬ c.labels.Nodup) : ¬ s'.labelsBelow.Nodup := by
  rcases of_page h with ⟨noSkip, noTake, rfl, -⟩ |
    ⟨numbered, order, filter, numbers, predicate, rfl⟩
  · exact (repeats_of_unpaged ⟨noSkip, noTake⟩ repeats :)
  · rw [numbers.labelsBelow_pageOf predicate]
    rcases repeats with numbersBy | ⟨c, hc, repeats⟩
    · exact numbers.repeats _ numbersBy
    · exact numbers.repeats_of_visited _ hc repeats

end Select

/-! ## The pass -/

namespace Select

variable {rowNumberColumn : String} {depth : Nat} {s s' : Select} {supply supply' : LabelSupply}

/-- Whether a page numbers by a subquery does not depend on the pages below it. -/
theorem numbersByQuery_iff_of_mirrors {s₁ : Select}
    (h : s.Mirrors (Expr.Becomes (.paging rowNumberColumn) depth) s₁) :
    s₁.NumbersByQuery ↔ s.NumbersByQuery := by
  have leaves := Transform.paging_keepsLeaves rowNumberColumn
  have skip : s₁.effectiveSkip = s.effectiveSkip := by rw [effectiveSkip, effectiveSkip, h.skip]
  have ordering : s₁.ordering = [] ↔ s.ordering = [] := by
    rw [← List.length_eq_zero_iff, ← List.length_eq_zero_iff, h.ordering.length_eq]
  have grouping : s₁.grouping = [] ↔ s.grouping = [] := by
    rw [← List.length_eq_zero_iff, ← List.length_eq_zero_iff, h.grouping.length_eq]
  have column : ∀ c c₁ : Column, c.expr.Becomes (.paging rowNumberColumn) depth c₁.expr →
      (c₁.expr.query? = none ∧ c₁.expr.subqueries ≠ [] ∧ (s₁.grouping = [] ∨ ¬ c₁.expr.NaNFree) ↔
        c.expr.query? = none ∧ c.expr.subqueries ≠ [] ∧ (s.grouping = [] ∨ ¬ c.expr.NaNFree)) := by
    intro c c₁ becomes
    rw [← Option.isNone_iff_eq_none, becomes.query?_isNone leaves, Option.isNone_iff_eq_none, Ne,
      becomes.subqueries_eq_nil_iff leaves, grouping, naNFree_becomes_iff becomes]
  unfold NumbersByQuery
  rw [skip, h.take, ordering, h.distinct]
  refine and_congr_right' (and_congr_right' (and_congr_right' ⟨?_, ?_⟩))
  · rintro ⟨c₁, hc₁, numbers⟩
    obtain ⟨c, hc, -, -, becomes⟩ := exists_of_forall₂_of_mem h.columns hc₁
    exact ⟨c, hc, (column c c₁ becomes).1 numbers⟩
  · rintro ⟨c, hc, numbers⟩
    obtain ⟨c₁, hc₁, -, -, becomes⟩ := exists_of_forall₂_of_mem_left h.columns hc
    exact ⟨c₁, hc₁, (column c c₁ becomes).2 numbers⟩

/-- What a select declares is accounted for if it keeps its label and what is below it is. -/
theorem accounts_labels {sparing : Prop} (label : s'.label = s.label)
    (below : supply.Accounts s.labelsBelow s'.labelsBelow supply' sparing) :
    supply.Accounts s.labels s'.labels supply' sparing := by
  obtain ⟨drawn, copied, subperm, draws, sub, none⟩ := below
  refine ⟨drawn, copied, ?_, draws, fun l hl => ?_, none⟩
  · refine s'.labels_perm.subperm.trans ?_
    rw [label]
    refine ((List.subperm_cons _).2 subperm).trans ?_
    rw [← List.cons_append, ← List.cons_append]
    exact ((s.labels_perm.symm.append_right _).append_right _).subperm
  · have within := sub hl
    simp only [List.mem_append, s.labels_perm.mem_iff, List.mem_cons] at within ⊢
    tauto

/-- What a list of selects declares is accounted for if what each of them declares is. -/
theorem accounts_of_chain {P : Select → Prop} {qs qs' : List Select}
    (h : Chain (fun st q q' st' => q'.label = q.label ∧
      LabelSupply.Accounts st q.labelsBelow q'.labelsBelow st' (P q)) supply qs qs' supply') :
    supply.Accounts (qs.flatMap Select.labels) (qs'.flatMap Select.labels) supply'
      (∀ q ∈ qs, P q) := by
  induction h with
  | nil st => exact .of_subperm (List.Subperm.refl _) _ _
  | cons step _ ih =>
    refine ((accounts_labels step.1 step.2).append ih).imp fun all => ?_
    exact ⟨all _ List.mem_cons_self, fun c hc => all c (List.mem_cons_of_mem _ hc)⟩

/-- **What paging a tree declares**: the labels of the tree, those drawn for the pages, and copies
where a select numbers its rows by a subquery. -/
theorem accounts_paging
    (h : outcome (s.transform (.paging rowNumberColumn) depth) supply = .ok (s', supply')) :
    s'.label = s.label ∧ supply.Accounts s.labelsBelow s'.labelsBelow supply'
      (s.Everywhere fun q => ¬ q.NumbersByQuery) := by
  refine transform_induction (Transform.paging_keepsLeaves rowNumberColumn)
    (R := fun _ st s s' st' => s'.label = s.label ∧ LabelSupply.Accounts st s.labelsBelow
      s'.labelsBelow st' (s.Everywhere fun q => ¬ q.NumbersByQuery)) ?_ h
  intro depth s s₁ s' st st₁ st' chain mirrors hact
  have parts : st.Accounts s.labelsBelow s₁.labelsBelow st₁
      (True ∧ ∀ q ∈ s.visited, q.Everywhere fun q => ¬ q.NumbersByQuery) := by
    have tables : st.Accounts s.tables s₁.tables st True :=
      .of_subperm (mirrors.tables ▸ List.Subperm.refl _) _ _
    exact tables.append (accounts_of_chain chain)
  have own : s'.label = s₁.label ∧
      st₁.Accounts s₁.labelsBelow s'.labelsBelow st' (¬ s₁.NumbersByQuery) := by
    rcases of_select_paging hact with hpage | ⟨-, -, rfl, rfl⟩
    · exact accounts_page hpage
    · exact ⟨rfl, .of_subperm (List.Subperm.refl _) _ _⟩
  refine ⟨own.1.trans mirrors.label, (parts.trans own.2).imp fun spares => ?_⟩
  obtain ⟨here, below⟩ := everywhere_iff.1 spares
  exact ⟨⟨trivial, fun q hq => below q (mem_visited_iff.1 hq)⟩, fun numbers =>
    here ((numbersByQuery_iff_of_mirrors mirrors).1 numbers)⟩

/-- **What a tree repeats when it is paged.** -/
theorem repeats_of_paging {q : Select} (holds : s.Holds q) (numbers : q.NumbersByQuery)
    (h : outcome (s.transform (.paging rowNumberColumn) depth) supply = .ok (s', supply')) :
    ¬ s'.labelsBelow.Nodup := by
  have run : s.Holds q → ¬ s'.labelsBelow.Nodup := by
    refine transform_induction (Transform.paging_keepsLeaves rowNumberColumn)
      (R := fun _ _ s s' _ => s.Holds q → ¬ s'.labelsBelow.Nodup) ?_ h
    intro depth s s₁ s' st st₁ st' chain mirrors hact holds
    -- the page that copies is this one, or its copies are below by now
    have repeats : s₁.NumbersByQuery ∨ ∃ c ∈ s₁.visited, ¬ c.labels.Nodup := by
      cases holds with
      | self => exact .inl ((numbersByQuery_iff_of_mirrors mirrors).2 numbers)
      | child hc holds =>
        obtain ⟨c₁, hc₁, _, _, repeats⟩ := chain.exists_of_mem_left (mem_visited_iff.2 hc)
        exact .inr ⟨c₁, hc₁, fun nodup => repeats holds (nodup_labelsBelow nodup)⟩
    rcases of_select_paging hact with hpage | ⟨noSkip, noTake, rfl, -⟩
    · exact repeats_of_page hpage repeats
    · exact repeats_of_unpaged ⟨by rw [effectiveSkip, noSkip, Option.filter_none], noTake⟩ repeats
  exact run holds

end Select

end HiveQuery
