import HiveQuery.Paging
import HiveQuery.Proofs.Outcome
/-!
# What paging makes of a select

`Select.page` draws labels, may fail and takes one of three ways. What comes of it when it succeeds
is said once (`Select.of_page`): the select that is numbered, the terms it is numbered by, and the
select around it that keeps the page.
-/

namespace HiveQuery

open Outcome

/-- A comparison with a bound is one with a literal of that value. -/
theorem of_map_pageBound {n : Nat} {f : Expr → Expr} {e : Expr}
    (h : (pageBound n).map f = .ok e) :
    ∃ bound : Int64, e = f (.literal (.int bound)) ∧ bound.toInt = n := by
  unfold pageBound at h
  split at h
  · next fits =>
    refine ⟨Int64.ofNat n, (Except.ok.inj h).symm, ?_⟩
    have max : Int64.maxValue.toInt = 2 ^ 63 - 1 := by decide
    exact Int64.toInt_ofNat_of_lt (by omega)
  · cases h

/-- **The three forms of the condition of a page**, by the bounds that it has. -/
theorem of_pagePredicate_eq_ok {rowNumber filter : Expr} {skip take : Option UInt64}
    (h : pagePredicate rowNumber skip take = .ok filter) :
    (∃ n, skip = none ∧ take = some n ∧ upToBound rowNumber n.toNat = .ok filter) ∨
    (∃ k, skip = some k ∧ take = none ∧ afterBound rowNumber k.toNat = .ok filter) ∨
    ∃ k n after upTo, skip = some k ∧ take = some n ∧ afterBound rowNumber k.toNat = .ok after ∧
      upToBound rowNumber (k.toNat + n.toNat) = .ok upTo ∧ filter = .and after upTo := by
  cases skip with
  | none =>
    cases take with
    | none => cases h
    | some n => exact .inl ⟨n, rfl, rfl, h⟩
  | some k =>
    cases take with
    | none => exact .inr (.inl ⟨k, rfl, rfl, h⟩)
    | some n =>
      rw [pagePredicate] at h
      split at h
      · cases h
      · cases hafter : afterBound rowNumber k.toNat with
        | error e => rw [hafter] at h; cases h
        | ok after =>
          cases hupTo : upToBound rowNumber (k.toNat + n.toNat) with
          | error e => rw [hafter, hupTo] at h; cases h
          | ok upTo =>
            rw [hafter, hupTo] at h
            obtain rfl := (Except.ok.inj h).symm
            exact .inr (.inr ⟨k, n, after, upTo, rfl, rfl, hafter, hupTo, rfl⟩)

namespace Select

/-- The terms that a page is ordered by. -/
def pageTerms (s : Select) : List OrderTerm :=
  if s.ordering.isEmpty then s.defaultOrder else s.ordering

/-- The skip of a page, none if there is nothing to skip. -/
def effectiveSkip (s : Select) : Option UInt64 :=
  s.skip.filter (0 < ·)

/-- The base of a collapsed select, with the columns for the terms of its page. -/
def exposedBase (s : Select) (label : String) : Select :=
  ((s.unpaged label).exposing s.pageTerms).1

/-- **The select that is numbered for a page**, the terms it is numbered by, and the labels drawn
for it. A plain select is numbered itself, any other below a level that reads its columns. -/
inductive Numbers (s : Select) (supply : LabelSupply) : Select → List OrderTerm → LabelSupply → Prop
  | plain (distinct : s.distinct = false) (grouping : s.grouping = []) :
      Numbers s supply (s.unpaged supply.fresh.1) s.pageTerms supply.fresh.2
  | wrapped (collapsed : s.distinct = true ∨ s.grouping ≠ [])
      (projected : s.distinct = true → ∀ t ∈ s.pageTerms, (s.columnFor? t.expr).isSome) :
      Numbers s supply
        (((s.unpaged supply.fresh.1).exposing s.pageTerms).1.wrapped supply.fresh.2.fresh.1)
        ((s.unpaged supply.fresh.1).exposing s.pageTerms).2 supply.fresh.2.fresh.2

/-- The page over a select that is numbered under a name. -/
def pageOf (s numbered : Select) (order : List OrderTerm) (name : String) (filter : Expr) :
    Select :=
  s.pageOver (numbered.numbering name order) (numbered.ref name) filter

/-- A fresh label is drawn from the supply, and drawing cannot fail. -/
theorem outcome_freshLabel {supply supply' : LabelSupply} {label : String} :
    outcome freshLabel supply = .ok (label, supply') ↔
      label = supply.fresh.1 ∧ supply' = supply.fresh.2 := by
  show (Except.ok (supply.fresh.1, supply.fresh.2) : Except Failure _) = _ ↔ _
  rw [Except.ok.injEq, Prod.mk.injEq, eq_comm, @eq_comm _ supply.fresh.2]

/-- A step without labels, among steps that draw them. -/
theorem outcome_lift {α : Type} {x : Traced α} {supply supply' : LabelSupply} {a : α} :
    outcome (liftM x : Labelling α) supply = .ok (a, supply') ↔
      x.result = .ok a ∧ supply' = supply := by
  show ((do let a ← x; pure (a, supply) : Traced _)).result = _ ↔ _
  rw [Traced.result_bind_eq_ok]
  simp [eq_comm]

/-- What needs no label fails as it does without a supply. -/
theorem outcome_lift_eq_error_iff {α : Type} {x : Traced α} {supply : LabelSupply}
    {failure : Failure} :
    outcome (liftM x : Labelling α) supply = .error failure ↔ x.result = .error failure := by
  show ((do let a ← x; pure (a, supply) : Traced _)).result = _ ↔ _
  rw [Traced.result_bind]
  cases x.result <;> simp [bind, Except.bind]

/-- The order of a page is its terms, whatever is reported on the way. -/
theorem of_pageOrder {s : Select} {order : List OrderTerm} (h : s.pageOrder.result = .ok order) :
    order = s.pageTerms := by
  unfold pageOrder at h
  unfold pageTerms
  split at h
  · next empty =>
    rw [if_pos empty]
    obtain ⟨_, -, h⟩ := Traced.result_bind_eq_ok.1 h
    split at h
    · obtain ⟨_, h, -⟩ := Traced.result_bind_eq_ok.1 h
      cases h
    · exact (Except.ok.inj h).symm
  · next nonempty =>
    rw [if_neg nonempty]
    exact (Except.ok.inj h).symm

/-- **What wrapping does when it succeeds**: the terms of a distinct select have columns already,
and the level around it reads these. -/
theorem of_wrap {s : Select} {order order' : List OrderTerm} {supply supply' : LabelSupply}
    {wrapper : Select} (h : outcome (s.wrap order) supply = .ok ((wrapper, order'), supply')) :
    (s.distinct = true → ∀ t ∈ order, (s.columnFor? t.expr).isSome) ∧
      wrapper = (s.exposing order).1.wrapped supply.fresh.1 ∧ order' = (s.exposing order).2 ∧
      supply' = supply.fresh.2 := by
  rw [wrap, outcome_bind_eq_ok_iff] at h
  obtain ⟨⟨base, mapped⟩, st₁, hlift, h⟩ := h
  obtain ⟨hexposed, rfl⟩ := outcome_lift.1 hlift
  rw [outcome_bind_eq_ok_iff] at h
  obtain ⟨label, st₂, hlabel, h⟩ := h
  obtain ⟨rfl, rfl⟩ := outcome_freshLabel.1 hlabel
  obtain ⟨hpair, rfl⟩ := outcome_pure_eq_ok_iff.1 h
  obtain ⟨rfl, rfl⟩ := Prod.mk.inj hpair
  rw [Traced.result_ofExcept, exposingAll] at hexposed
  split at hexposed
  · cases hexposed
  · next projected =>
    have exposed := Except.ok.inj hexposed
    refine ⟨fun distinct t ht => ?_, by rw [exposed], by rw [exposed], rfl⟩
    simp only [distinct, Bool.true_and, List.any_eq_true, not_exists, not_and] at projected
    simpa [Option.isNone_iff_eq_none, Option.isSome_iff_ne_none] using projected t ht

/-- A level is refused over a distinct select that does not declare one of the terms, and over no
other. -/
theorem outcome_wrap_eq_error_iff {s : Select} {order : List OrderTerm} {supply : LabelSupply}
    {failure : Failure} :
    outcome (s.wrap order) supply = .error failure ↔
      failure = .orderNotProjected s.label ∧ s.distinct = true ∧
        ∃ t ∈ order, s.columnFor? t.expr = none := by
  have refused : outcome (s.wrap order) supply = .error failure ↔
      s.exposingAll order = .error failure := by
    rw [wrap, outcome_bind_eq_error_iff, outcome_lift_eq_error_iff, Traced.result_ofExcept]
    refine or_iff_left ?_
    rintro ⟨base, st, -, h⟩
    rw [outcome_bind_eq_error_iff] at h
    rcases h with h | ⟨_, _, -, h⟩
    · cases h
    · exact absurd h outcome_pure_ne_error
  rw [refused, exposingAll]
  split
  · next missing =>
    rw [Bool.and_eq_true, List.any_eq_true] at missing
    simp only [Option.isNone_iff_eq_none] at missing
    rw [Except.error.injEq, eq_comm]
    exact (and_iff_left missing).symm
  · next projected =>
    refine iff_of_false (fun h => by cases h) ?_
    rintro ⟨-, distinct, t, ht, missing⟩
    refine projected (Bool.and_eq_true _ _ ▸ ⟨distinct, List.any_eq_true.2 ⟨t, ht, ?_⟩⟩)
    rw [missing]
    rfl

/-! ### The steps of a page -/

/-- The select to be numbered, and the terms. -/
def pageBase (s : Select) (label : String) (order : List OrderTerm) :
    Labelling (Select × List OrderTerm) :=
  if s.distinct || !s.grouping.isEmpty then (s.unpaged label).wrap order
  else pure (s.unpaged label, order)

/-- The page around the select that is numbered. -/
def pageAround (rowNumberColumn : String) (s : Select) (base : Select × List OrderTerm) :
    Labelling Select := do
  let name := Column.availableName base.1.columns rowNumberColumn
  let filter ← (Traced.ofExcept (pagePredicate (base.1.ref name) s.effectiveSkip s.take) : Traced _)
  (Traced.emit (.pagingReplaced s.label base.1.label s.effectiveSkip s.take) : Traced _)
  return s.pageOf base.1 base.2 name filter

/-- **Paging, step by step.** A select with nothing to page loses its skip at most; any other is
numbered by its terms, and the page is put around it. -/
theorem page_eq (rowNumberColumn : String) (s : Select) :
    s.page rowNumberColumn =
      if s.effectiveSkip.isNone && s.take.isNone then pure { s with skip := none }
      else (do
        let order ← (s.pageOrder : Traced _)
        let label ← freshLabel
        let base ← s.pageBase label order
        s.pageAround rowNumberColumn base) := by
  by_cases collapsed : (s.distinct || !s.grouping.isEmpty) = true
  · simp only [page, pageBase, collapsed, if_true]
    rfl
  · simp only [page, pageBase, collapsed]
    rfl

/-- The select that is numbered, and its terms. -/
theorem of_pageBase {s base : Select} {order : List OrderTerm} {supply supply' : LabelSupply}
    (h : outcome (s.pageBase supply.fresh.1 s.pageTerms) supply.fresh.2 =
      .ok ((base, order), supply')) : s.Numbers supply base order supply' := by
  unfold pageBase at h
  split at h
  · next collapsed =>
    obtain ⟨projected, rfl, rfl, rfl⟩ := of_wrap h
    refine .wrapped ?_ projected
    simpa using collapsed
  · next plain =>
    obtain ⟨hpair, rfl⟩ := outcome_pure_eq_ok_iff.1 h
    obtain ⟨rfl, rfl⟩ := Prod.mk.inj hpair
    refine .plain ?_ ?_
    · cases hd : s.distinct <;> simp_all
    · cases hg : s.grouping <;> simp_all

/-- **What paging comes to when it succeeds.** A skip of nothing alone is dropped; any other page is
put over the select that is numbered for it. -/
theorem of_page {rowNumberColumn : String} {s t : Select} {supply supply' : LabelSupply}
    (h : outcome (s.page rowNumberColumn) supply = .ok (t, supply')) :
    (s.effectiveSkip = none ∧ s.take = none ∧ t = { s with skip := none } ∧ supply' = supply) ∨
    ∃ numbered order filter, s.Numbers supply numbered order supply' ∧
      pagePredicate (numbered.ref (Column.availableName numbered.columns rowNumberColumn))
        s.effectiveSkip s.take = .ok filter ∧
      t = s.pageOf numbered order (Column.availableName numbered.columns rowNumberColumn)
        filter := by
  rw [page_eq] at h
  split at h
  · next trivial =>
    obtain ⟨rfl, rfl⟩ := outcome_pure_eq_ok_iff.1 h
    simp only [Bool.and_eq_true, Option.isNone_iff_eq_none] at trivial
    exact .inl ⟨trivial.1, trivial.2, rfl, rfl⟩
  · right
    obtain ⟨terms, st₁, horder, afterOrder⟩ := outcome_bind_eq_ok_iff.1 h
    obtain ⟨hterms, rfl⟩ := outcome_lift.1 horder
    obtain rfl := of_pageOrder hterms
    obtain ⟨label, st₂, hlabel, afterLabel⟩ := outcome_bind_eq_ok_iff.1 afterOrder
    obtain ⟨rfl, rfl⟩ := outcome_freshLabel.1 hlabel
    obtain ⟨⟨numbered, order⟩, st₃, hnumbered, afterBase⟩ := outcome_bind_eq_ok_iff.1 afterLabel
    obtain ⟨filter, st₄, hpredicate, afterFilter⟩ := outcome_bind_eq_ok_iff.1 afterBase
    obtain ⟨hfilter, rfl⟩ := outcome_lift.1 hpredicate
    obtain ⟨_, st₅, hemit, last⟩ := outcome_bind_eq_ok_iff.1 afterFilter
    obtain ⟨-, rfl⟩ := outcome_lift.1 hemit
    obtain ⟨rfl, rfl⟩ := outcome_pure_eq_ok_iff.1 last
    exact ⟨numbered, order, filter, of_pageBase hnumbered, hfilter, rfl⟩

end Select

end HiveQuery
