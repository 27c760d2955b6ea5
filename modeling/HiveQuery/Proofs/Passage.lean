import HiveQuery.Proofs.Completeness
import HiveQuery.Proofs.PagingLabels
/-!
# The way of a query through the passes

A statement is compiled pass by pass, and each pass goes through its queries one by one; only the
labels of pages come from a supply that the queries share. So every query of a compiled statement
has its own way through the passes (`Compiler.Lowers`), and the queries stand in their order
(`Compiler.forall₂_lowers`). What is asked of a compiled statement is asked of that way.
-/

namespace HiveQuery

open Outcome

/-- The query with its orderings placed. -/
def Projection.placed (p : Projection) : Projection :=
  { p with select := p.select.exposed .outermost }

/-- **The way of a query through the passes**, if none of them fails. -/
inductive Compiler.Lowers (c : Compiler) (p : Projection) : Projection → Prop
  | intro {paged conformed merged pruned : Projection} {supply supply' : LabelSupply}
      (taken : p.placed.labels ⊆ supply.taken)
      (page : outcome (p.placed.transform (.paging c.settings.rowNumberColumn)) supply =
        .ok (paged, supply'))
      (conform : (paged.placed.conform c.mapping c.settings.byPosition).result = .ok conformed)
      (merge : conformed.mergeColumns.result = .ok merged)
      (prune : merged.pruneColumns.result = .ok pruned)
      (checks : pruned.Checks) : Lowers c p pruned

/-- Two relations of lists one by one, after one another. -/
theorem forall₂_comp {α β γ : Type} {R : α → β → Prop} {S : β → γ → Prop} {as : List α}
    {bs : List β} {cs : List γ} (h : List.Forall₂ R as bs) (h' : List.Forall₂ S bs cs) :
    List.Forall₂ (fun a c => ∃ b, R a b ∧ S b c) as cs := by
  induction h generalizing cs with
  | nil =>
    cases h'
    exact .nil
  | cons hab _ ih =>
    cases h' with
    | cons hbc rest => exact .cons ⟨_, hab, hbc⟩ (ih rest)

namespace Statement

variable {s s' : Statement}

theorem forall₂_placed (h : s.placeOrderings.result = .ok s') :
    List.Forall₂ (fun p p' => p' = p.placed) s.queries s'.queries :=
  (forall₂_of_mapQueriesM h).imp fun _ _ hp => (Projection.placeOrderings_eq_ok_iff.1 hp).2

end Statement

namespace Compiler

variable {c : Compiler} {s t : Statement}

/-- **The queries of a compiled statement are those of the statement, each gone its way.** -/
theorem forall₂_lowers (h : (c.lower s).result = .ok t) :
    List.Forall₂ c.Lowers s.queries t.queries := by
  have passes : (c.passes s).result = .ok t := by
    rw [result_lower] at h
    split at h
    · exact h
    · cases h
  obtain ⟨placed, hplaced, passes⟩ := Traced.result_bind_eq_ok.1 passes
  obtain ⟨paged, hpaged, passes⟩ := Traced.result_bind_eq_ok.1 passes
  obtain ⟨settled, hsettled, passes⟩ := Traced.result_bind_eq_ok.1 passes
  obtain ⟨conformed, hconformed, passes⟩ := Traced.result_bind_eq_ok.1 passes
  obtain ⟨merged, hmerged, passes⟩ := Traced.result_bind_eq_ok.1 passes
  obtain ⟨pruned, hpruned, passes⟩ := Traced.result_bind_eq_ok.1 passes
  obtain ⟨_, hcheck, passes⟩ := Traced.result_bind_eq_ok.1 passes
  obtain rfl := Except.ok.inj passes
  have checked : List.Forall₂ (fun p p' => p = p' ∧ p'.Checks) pruned.queries pruned.queries :=
    List.forall₂_same.2 fun p hp => ⟨rfl, Statement.check_eq_ok_iff.1 hcheck p hp⟩
  have settling := forall₂_comp (forall₂_comp (Statement.forall₂_placed hplaced)
    (Statement.forall₂_paged hpaged)) (Statement.forall₂_placed hsettled)
  have shaping := forall₂_comp (forall₂_comp (Statement.forall₂_of_mapQueriesM hconformed)
    (Statement.forall₂_of_mapQueriesM hmerged)) (Statement.forall₂_of_mapQueriesM hpruned)
  refine (forall₂_comp (forall₂_comp settling shaping) checked).imp ?_
  rintro p p' ⟨_, ⟨_, ⟨_, ⟨_, rfl, _, _, taken, page⟩, rfl⟩, _, ⟨_, conform, merge⟩, prune⟩, rfl,
    checks⟩
  exact .intro taken page conform merge prune checks

/-- The page of paid orders can be compiled. -/
theorem exists_lower_paidOrders :
    ∃ t, (orderCompiler.lower (.query ⟨paidOrders, .entity "Order" []⟩)).result = .ok t := by
  have succeeds :
      (orderCompiler.lower (.query ⟨paidOrders, .entity "Order" []⟩)).result.isOk := by
    rw [result_lower, if_pos (by decide)]
    cbv
  exact isOk_iff_exists.1 succeeds

end Compiler

end HiveQuery
