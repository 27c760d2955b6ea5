import HiveQuery.Proofs.Comparison
import HiveQuery.Proofs.Stability
/-!
# Repeated and flipped terms

Of the terms of an ordering with equal expressions only the first is kept, whatever directions the
others have. The kept terms are found by comparing each term with those kept before it and not with
all terms before it. Both come to the same because equality of trees is transitive
(`Expr.beq_trans`), so that a term which equals a dropped one equals the kept one that it was
dropped for. The rows are then compared as by the whole list, and the other way round by the flipped
one (`OrderTerm.compareAll_withoutRepeats_flipAll`).
-/

namespace HiveQuery

/-! ## Equality is transitive -/

/-- Equality of floats is transitive, although a NaN does not equal itself. -/
theorem Binary64.beq_trans {x y z : Binary64} (h : x == y) (h' : y == z) : x == z := by
  change (!x.isNaN && !y.isNaN && (x.bits == y.bits || (x.isZero && y.isZero))) = true at h
  change (!y.isNaN && !z.isNaN && (y.bits == z.bits || (y.isZero && z.isZero))) = true at h'
  change (!x.isNaN && !z.isNaN && (x.bits == z.bits || (x.isZero && z.isZero))) = true
  simp only [Bool.and_eq_true, Bool.not_eq_true', Bool.or_eq_true, beq_iff_eq] at h h' ⊢
  obtain ⟨⟨hx, -⟩, hxy⟩ := h
  obtain ⟨⟨-, hz⟩, hyz⟩ := h'
  refine ⟨⟨hx, hz⟩, ?_⟩
  rcases hxy with same | ⟨zero, zero'⟩
  · have number : x = y := by
      cases x
      cases y
      simpa using same
    rw [number]
    exact hyz
  · rcases hyz with same | ⟨-, zero''⟩
    · have number : y = z := by
        cases y
        cases z
        simpa using same
      exact .inr ⟨zero, number ▸ zero'⟩
    · exact .inr ⟨zero, zero''⟩

/-- Equality of literals is transitive, since that of floats is. -/
theorem Literal.beq_trans {u v w : Literal} (h : u == v) (h' : v == w) : u == w := by
  change u.beq v = true at h
  change v.beq w = true at h'
  change u.beq w = true
  cases u <;> cases v <;> simp only [Literal.beq, beq_iff_eq, Bool.false_eq_true] at h
  all_goals cases w <;> simp only [Literal.beq, beq_iff_eq, Bool.false_eq_true] at h' ⊢
  case bool.bool.bool => exact h.trans h'
  case int.int.int => exact h.trans h'
  case float.float.float => exact Binary64.beq_trans h h'
  case string.string.string => exact h.trans h'

mutual

/-- **Equality of expressions is transitive.** It need not be reflexive, so this does not come from
its being an equivalence. -/
theorem Expr.beq_trans {a b c : Expr} (h : a.beq b) (h' : b.beq c) : a.beq c := by
  cases a <;> cases b <;>
    simp only [Expr.beq, Bool.and_eq_true, beq_iff_eq, Bool.false_eq_true] at h
  all_goals cases c <;>
    simp only [Expr.beq, Bool.and_eq_true, beq_iff_eq, Bool.false_eq_true] at h' ⊢
  case column.column.column => exact ⟨h.1.trans h'.1, h.2.trans h'.2⟩
  case literal.literal.literal => exact Literal.beq_trans h h'
  case binary.binary.binary =>
    exact ⟨⟨h.1.1.trans h'.1.1, Expr.beq_trans h.1.2 h'.1.2⟩, Expr.beq_trans h.2 h'.2⟩
  case unary.unary.unary => exact ⟨h.1.trans h'.1, Expr.beq_trans h.2 h'.2⟩
  case isNull.isNull.isNull => exact ⟨Expr.beq_trans h.1 h'.1, h.2.trans h'.2⟩
  case cast.cast.cast => exact ⟨Expr.beq_trans h.1 h'.1, h.2.trans h'.2⟩
  case caseWhen.caseWhen.caseWhen =>
    exact ⟨Branch.beqList_trans h.1 h'.1, Expr.beqOption_trans h.2 h'.2⟩
  case call.call.call =>
    exact ⟨⟨h.1.1.trans h'.1.1, Expr.beqList_trans h.1.2 h'.1.2⟩, h.2.trans h'.2⟩
  case aggregate.aggregate.aggregate =>
    exact ⟨⟨h.1.1.trans h'.1.1, Expr.beqOption_trans h.1.2 h'.1.2⟩, h.2.trans h'.2⟩
  case rowNumber.rowNumber.rowNumber => exact OrderTerm.beqList_trans h h'
  case scalarQuery.scalarQuery.scalarQuery => exact Select.beq_trans h h'
  case existsQuery.existsQuery.existsQuery => exact Select.beq_trans h h'
  case inQuery.inQuery.inQuery => exact ⟨Expr.beq_trans h.1 h'.1, Select.beq_trans h.2 h'.2⟩
  case generatedId.generatedId.generatedId => exact h.trans h'
termination_by structural a

/-- Lists of expressions are compared place by place. -/
theorem Expr.beqList_trans {as bs cs : List Expr} (h : Expr.beqList as bs)
    (h' : Expr.beqList bs cs) : Expr.beqList as cs := by
  cases as <;> cases bs <;> cases cs <;>
    simp only [Expr.beqList, Bool.and_eq_true, Bool.false_eq_true] at h h' ⊢
  exact ⟨Expr.beq_trans h.1 h'.1, Expr.beqList_trans h.2 h'.2⟩
termination_by structural as

theorem Expr.beqOption_trans {a b c : Option Expr} (h : Expr.beqOption a b)
    (h' : Expr.beqOption b c) : Expr.beqOption a c := by
  cases a <;> cases b <;> cases c <;> simp only [Expr.beqOption, Bool.false_eq_true] at h h' ⊢
  exact Expr.beq_trans h h'
termination_by structural a

/-- Of two branches, the conditions and the results are compared. -/
theorem Branch.beqList_trans {as bs cs : List Branch} (h : Branch.beqList as bs)
    (h' : Branch.beqList bs cs) : Branch.beqList as cs := by
  rcases as with _ | ⟨⟨_, _⟩, as⟩ <;> rcases bs with _ | ⟨⟨_, _⟩, bs⟩ <;>
    rcases cs with _ | ⟨⟨_, _⟩, cs⟩ <;>
    simp only [Branch.beqList, Bool.and_eq_true, Bool.false_eq_true] at h h' ⊢
  exact ⟨⟨Expr.beq_trans h.1.1 h'.1.1, Expr.beq_trans h.1.2 h'.1.2⟩,
    Branch.beqList_trans h.2 h'.2⟩
termination_by structural as

/-- Terms are compared with their directions. -/
theorem OrderTerm.beqList_trans {as bs cs : List OrderTerm} (h : OrderTerm.beqList as bs)
    (h' : OrderTerm.beqList bs cs) : OrderTerm.beqList as cs := by
  rcases as with _ | ⟨⟨_, _⟩, as⟩ <;> rcases bs with _ | ⟨⟨_, _⟩, bs⟩ <;>
    rcases cs with _ | ⟨⟨_, _⟩, cs⟩ <;>
    simp only [OrderTerm.beqList, Bool.and_eq_true, beq_iff_eq, Bool.false_eq_true] at h h' ⊢
  exact ⟨⟨Expr.beq_trans h.1.1 h'.1.1, h.1.2.trans h'.1.2⟩, OrderTerm.beqList_trans h.2 h'.2⟩
termination_by structural as

/-- Columns are compared with their names and types. -/
theorem Column.beqList_trans {as bs cs : List Column} (h : Column.beqList as bs)
    (h' : Column.beqList bs cs) : Column.beqList as cs := by
  rcases as with _ | ⟨⟨_, _, _⟩, as⟩ <;> rcases bs with _ | ⟨⟨_, _, _⟩, bs⟩ <;>
    rcases cs with _ | ⟨⟨_, _, _⟩, cs⟩ <;>
    simp only [Column.beqList, Bool.and_eq_true, beq_iff_eq, Bool.false_eq_true] at h h' ⊢
  exact ⟨⟨⟨h.1.1.1.trans h'.1.1.1, Expr.beq_trans h.1.1.2 h'.1.1.2⟩, h.1.2.trans h'.1.2⟩,
    Column.beqList_trans h.2 h'.2⟩
termination_by structural as

/-- Equality of sources is transitive. -/
theorem Source.beq_trans {a b c : Source} (h : a.beq b) (h' : b.beq c) : a.beq c := by
  cases a <;> cases b <;> cases c <;>
    simp only [Source.beq, Bool.and_eq_true, beq_iff_eq, Bool.false_eq_true] at h h' ⊢
  case table.table.table => exact ⟨h.1.trans h'.1, h.2.trans h'.2⟩
  case subquery.subquery.subquery => exact Select.beq_trans h h'
  case join.join.join =>
    exact ⟨⟨⟨h.1.1.1.trans h'.1.1.1, Source.beq_trans h.1.1.2 h'.1.1.2⟩,
      Source.beq_trans h.1.2 h'.1.2⟩, Expr.beqOption_trans h.2 h'.2⟩
termination_by structural a

theorem Source.beqOption_trans {a b c : Option Source} (h : Source.beqOption a b)
    (h' : Source.beqOption b c) : Source.beqOption a c := by
  cases a <;> cases b <;> cases c <;> simp only [Source.beqOption, Bool.false_eq_true] at h h' ⊢
  exact Source.beq_trans h h'
termination_by structural a

/-- Equality of selects is transitive: it is equality of every clause. -/
theorem Select.beq_trans {a b c : Select} (h : a.beq b) (h' : b.beq c) : a.beq c := by
  cases a
  cases b
  cases c
  simp only [Select.beq, Bool.and_eq_true, beq_iff_eq] at h h' ⊢
  obtain ⟨⟨⟨⟨⟨⟨⟨⟨⟨⟨label, columns⟩, source⟩, filter⟩, ordering⟩, grouping⟩, clustering⟩, distinct⟩,
    skip⟩, take⟩, reversed⟩ := h
  obtain ⟨⟨⟨⟨⟨⟨⟨⟨⟨⟨label', columns'⟩, source'⟩, filter'⟩, ordering'⟩, grouping'⟩, clustering'⟩,
    distinct'⟩, skip'⟩, take'⟩, reversed'⟩ := h'
  exact ⟨⟨⟨⟨⟨⟨⟨⟨⟨⟨label.trans label', Column.beqList_trans columns columns'⟩,
    Source.beqOption_trans source source'⟩, Expr.beqOption_trans filter filter'⟩,
    OrderTerm.beqList_trans ordering ordering'⟩, Expr.beqList_trans grouping grouping'⟩,
    Expr.beqList_trans clustering clustering'⟩, distinct.trans distinct'⟩, skip.trans skip'⟩,
    take.trans take'⟩, reversed.trans reversed'⟩
termination_by structural a

end

/-! ## The terms that are kept -/

namespace OrderTerm

/-- **A kept term is the first with its expression**: neither what was kept before the list nor any
term that stands before it in the list has an equal one. -/
theorem exists_first_of_mem_keepNew {kept ts : List OrderTerm} {t : OrderTerm}
    (h : t ∈ keepNew kept ts) :
    ∃ before after, ts = before ++ t :: after ∧ ¬ covers (kept ++ before) t.expr := by
  induction ts generalizing kept with
  | nil => simp [keepNew] at h
  | cons u ts ih =>
    by_cases hu : covers kept u.expr
    · rw [keepNew_cons_of_covers hu] at h
      obtain ⟨before, after, rfl, first⟩ := ih h
      refine ⟨u :: before, after, rfl, fun covered => first (covers_iff.2 ?_)⟩
      obtain ⟨v, hv, equal⟩ := covers_iff.1 covered
      rw [List.mem_append, List.mem_cons] at hv
      rcases hv with hv | rfl | hv
      · exact ⟨v, List.mem_append_left _ hv, equal⟩
      -- the dropped term equals this one, so what it was dropped for does as well
      · obtain ⟨k, hk, same⟩ := covers_iff.1 hu
        exact ⟨k, List.mem_append_left _ hk, Expr.beq_trans same equal⟩
      · exact ⟨v, List.mem_append_right _ hv, equal⟩
    · rw [keepNew_cons_of_not_covers hu] at h
      rcases List.mem_cons.1 h with rfl | h
      · exact ⟨[], ts, rfl, by rwa [List.append_nil]⟩
      · obtain ⟨before, after, rfl, first⟩ := ih h
        refine ⟨u :: before, after, rfl, ?_⟩
        rwa [List.append_assoc, List.singleton_append] at first

/-- **Repeats decide nothing, and flipped terms decide the opposite.** Let two rows give values of a
linear order to expressions, equal ones to equal expressions. The rows are compared by the terms
without repeats as by all of them, and the other way round by the flipped terms. The terms without
repeats are some of the terms in their order, their expressions differ from each other, and each of
them is the first with its expression. -/
theorem compareAll_withoutRepeats_flipAll {V : Type} [LinearOrder V] {x y : Expr → V}
    (hx : ∀ e e' : Expr, (e == e') = true → x e = x e')
    (hy : ∀ e e' : Expr, (e == e') = true → y e = y e') (ts : List OrderTerm) :
    compareAll x y (withoutRepeats ts) = compareAll x y ts ∧
    compareAll x y (flipAll ts) = (compareAll x y ts).swap ∧
    (withoutRepeats ts).Sublist ts ∧
    ((withoutRepeats ts).Pairwise fun t u => (t.expr == u.expr) = false) ∧
    ∀ t ∈ withoutRepeats ts, ∃ before after, ts = before ++ t :: after ∧
      ∀ u ∈ before, (u.expr == t.expr) = false := by
  refine ⟨compareAll_withoutRepeats_of_congr hx hy ts, compareAll_flipAll ts,
    keepNew_sublist [] ts, new_nil_iff.1 (new_keepNew [] ts), fun t ht => ?_⟩
  obtain ⟨before, after, split, first⟩ := exists_first_of_mem_keepNew ht
  refine ⟨before, after, split, fun u hu => ?_⟩
  by_contra equal
  exact first (covers_iff.2 ⟨u, hu, Bool.eq_true_of_not_eq_false equal⟩)

/-- A row that gives a date, and nothing to tell it by besides. -/
def datedRow (date : Nat) (e : Expr) : Nat :=
  if e.ref? = some ("o", "date") then date else 0

/-- An amount and a date, each ordered by twice in both directions. The amount is written with the
one zero first and then with the other. -/
def datedTerms : List OrderTerm :=
  [⟨.binary .add (.column "o" "amount") (.literal (.float (.zero false))), .descending⟩,
    ⟨.column "o" "date", .ascending⟩,
    ⟨.binary .add (.column "o" "amount") (.literal (.float (.zero true))), .ascending⟩,
    ⟨.column "o" "date", .descending⟩]

/-- The amount and the date are each asked for twice, the second time the other way round. Only the
first two terms count, and flipping them all turns two rows round. -/
theorem compareAll_withoutRepeats_flipAll_datedTerms :
    withoutRepeats datedTerms = datedTerms.take 2 ∧
      compareAll (datedRow 1) (datedRow 2) (withoutRepeats datedTerms) = .lt ∧
      compareAll (datedRow 1) (datedRow 2) (flipAll datedTerms) = .gt := by
  have congr : ∀ date (e e' : Expr), (e == e') = true → datedRow date e = datedRow date e' := by
    intro date e e' equal
    rw [datedRow, datedRow, Expr.ref?_of_beq equal]
  obtain ⟨same, opposite, -⟩ := compareAll_withoutRepeats_flipAll (congr 1) (congr 2) datedTerms
  have earlier : compareAll (datedRow 1) (datedRow 2) datedTerms = .lt := by decide
  refine ⟨by cbv, same.trans earlier, ?_⟩
  rw [opposite, earlier]
  rfl

end OrderTerm

end HiveQuery
