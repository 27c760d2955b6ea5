import HiveQuery.Proofs.EffectiveOrder
import HiveQuery.Proofs.PagingSound
/-!
# Terms expressed from outside

A select hands its order terms to the level above as references to its columns, and it is given
columns for the terms that it does not declare. The columns come one by one, while the terms are
gone through: a later term finds the column of an earlier one, and a name has to differ from those
that were there and from those made up on the way. What the references then stand for is said in
`Select.Reexpresses`, for exposing terms and for putting a level over the select.
-/

namespace HiveQuery

open Outcome

namespace Select

/-- **The references stand for the terms**, seen from outside of a base that is the select with
further columns. -/
structure Reexpresses (s : Select) (terms : List OrderTerm) (base : Select)
    (refs : List OrderTerm) : Prop where
  /-- Columns are added at the end, in the order of the terms, and none for an expression that a
  column before declares. -/
  added : ∃ cs, base = s.adding cs ∧ (cs.map (·.expr)).Sublist (terms.map (·.expr)) ∧
    (∀ c ∈ cs, ∀ d ∈ s.columns, (d.expr == c.expr) = false) ∧
    cs.Pairwise fun d c => (d.expr == c.expr) = false
  names : base.columnNames.Nodup
  /-- Each reference has the direction of its term and finds a column with an equal expression, or
  with the very expression of a term that equals nothing. -/
  denotes : List.Forall₂ (fun t r => r.direction = t.direction ∧
    ∃ c, r.expr = base.ref c.name ∧ base.column? c.name = some c ∧
      ((c.expr == t.expr) = true ∨ c.expr = t.expr ∧ ¬ t.expr.NaNFree)) terms refs

/-- Exposing terms makes references of them that stand for the same expressions. -/
theorem reexpresses_exposing {s : Select} (names : s.columnNames.Nodup) (terms : List OrderTerm) :
    s.Reexpresses terms (s.exposing terms).1 (s.exposing terms).2 := by
  obtain ⟨cs, eq, sublist, new, distinct, -⟩ := s.exposing_adds_new terms
  obtain ⟨nodup, refs⟩ := exposing_names names terms
  have label : (s.exposing terms).1.label = s.label := by rw [eq]; rfl
  refine ⟨⟨cs, eq, sublist, fun c hc => columnFor?_eq_none_iff.1 (new c hc), distinct⟩, nodup,
    refs.imp ?_⟩
  rintro t r ⟨direction, c, hc, ref, declares⟩
  refine ⟨direction, c, by rw [ref, Select.ref, label], column?_of_mem nodup hc, ?_⟩
  by_cases equal : (c.expr == t.expr) = true
  · exact .inl equal
  · have same : c.expr = t.expr := declares.resolve_left equal
    exact .inr ⟨same, fun free => equal (same ▸ free.beq_self)⟩

/-- **Terms that are expressed anew denote the terms they were made from**, and so do those below a
level that is put over the select. A distinct select is given no column there; it is refused exactly
if it does not declare a term. -/
theorem wrap_reexpresses {s : Select} (names : s.columnNames.Nodup) (terms : List OrderTerm)
    (supply : LabelSupply) :
    s.Reexpresses terms (s.exposing terms).1 (s.exposing terms).2 ∧
      (∀ wrapper refs supply', outcome (s.wrap terms) supply = .ok ((wrapper, refs), supply') →
        ∃ base, wrapper = base.wrapped supply.fresh.1 ∧ wrapper.columnNames = base.columnNames ∧
          s.Reexpresses terms base refs ∧ (s.distinct = true → base = s)) ∧
      ∀ failure, outcome (s.wrap terms) supply = .error failure ↔
        failure = .orderNotProjected s.label ∧ s.distinct = true ∧
          ∃ t ∈ terms, ∀ c ∈ s.columns, (c.expr == t.expr) = false := by
  refine ⟨reexpresses_exposing names terms, fun wrapper refs supply' h => ?_, fun failure => ?_⟩
  · obtain ⟨projected, rfl, rfl, -⟩ := of_wrap h
    refine ⟨_, rfl, columnNames_wrapped _ _, reexpresses_exposing names terms, fun distinct => ?_⟩
    rw [exposing_of_declared (projected distinct)]
  · simp only [outcome_wrap_eq_error_iff, columnFor?_eq_none_iff]

/-- The days on which orders were paid, under a name that is tried first for further columns. -/
def paymentDays (distinct : Bool) : Select :=
  ⟨"p", [⟨"c0", .column "x" "day", .date⟩], some (.table "payments" "x"), none, [],
    [.column "x" "day", .column "x" "amount"], [], distinct, none, none, false⟩

/-- The largest amounts first, and those of a day together. The amount comes again at the end. -/
def paymentTerms : List OrderTerm :=
  [⟨.column "x" "amount", .descending⟩, ⟨.column "x" "day", .ascending⟩,
    ⟨.column "x" "amount", .ascending⟩]

/-- The terms of a grouped select are re-expressed over a select around it. If it is distinct, the
amount would have to be one of its columns, and the terms are refused. -/
theorem wrap_reexpresses_paymentDays :
    (∃ wrapper refs supply', outcome ((paymentDays false).wrap paymentTerms) ⟨["p", "x"], 0⟩ =
        .ok ((wrapper, refs), supply') ∧ wrapper.columnNames = ["c0", "c1"] ∧
      ∃ base, (paymentDays false).Reexpresses paymentTerms base refs) ∧
    outcome ((paymentDays true).wrap paymentTerms) ⟨["p", "x"], 0⟩ =
      .error (.orderNotProjected "p") := by
  have names : ∀ distinct, (paymentDays distinct).columnNames.Nodup :=
    fun _ => List.nodup_singleton "c0"
  have run : outcome ((paymentDays false).wrap paymentTerms) ⟨["p", "x"], 0⟩ =
      .ok ((((paymentDays false).exposing paymentTerms).1.wrapped "t0",
        ((paymentDays false).exposing paymentTerms).2), ⟨["p", "x"], 1⟩) := by cbv
  obtain ⟨-, accepted, -⟩ := wrap_reexpresses (names false) paymentTerms ⟨["p", "x"], 0⟩
  obtain ⟨-, -, refused⟩ := wrap_reexpresses (names true) paymentTerms ⟨["p", "x"], 0⟩
  obtain ⟨base, -, -, reexpresses, -⟩ := accepted _ _ _ run
  refine ⟨⟨_, _, _, run, by cbv, base, reexpresses⟩, (refused _).2 ⟨rfl, rfl, ?_⟩⟩
  refine ⟨⟨.column "x" "amount", .descending⟩, List.mem_cons_self, ?_⟩
  rw [paymentDays, List.forall_mem_singleton]
  cbv

end Select

end HiveQuery
