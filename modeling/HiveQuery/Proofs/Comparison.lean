import HiveQuery.Proofs.Exposure
import Mathlib.Data.List.Forall2
import Mathlib.Order.Compare
/-!
# How order terms compare rows

A row gives a value to every expression. Two rows are compared by the terms of an ordering one after
the other, the first term that tells them apart deciding. Values are only asked to respect equality
of expressions, so a term whose expression equals an earlier one decides nothing, whatever its
direction, and a list of terms compares as it does without its repeats.
-/

namespace HiveQuery

/-! ## Replacing references -/

/-- The expression with every reference on its own level replaced. -/
def Expr.subst (σ : String → String → Expr) (e : Expr) : Expr :=
  match e.ref? with
  | some (label, name) => σ label name
  | none => e.withParts (e.parts.attach.map fun p => p.1.subst σ) e.query?
termination_by sizeOf e
decreasing_by exact Expr.sizeOf_lt_of_mem_parts p.2

/-- A reference is replaced by what it stands for, -/
theorem Expr.subst_column (σ : String → String → Expr) (label name : String) :
    (Expr.column label name).subst σ = σ label name := by
  rw [Expr.subst]
  rfl

/-- and of any other expression the parts are replaced. -/
theorem Expr.subst_of_ref?_eq_none (σ : String → String → Expr) {e : Expr} (h : e.ref? = none) :
    e.subst σ = e.withParts (e.parts.map fun p => p.subst σ) e.query? := by
  rw [Expr.subst, h]
  simp only [List.map_attach_eq_pmap, List.pmap_eq_map]

/-- Only the references that an expression makes matter. -/
theorem Expr.subst_congr {σ τ : String → String → Expr} {e : Expr}
    (h : ∀ r ∈ e.localRefs, σ r.1 r.2 = τ r.1 r.2) : e.subst σ = e.subst τ := by
  induction e using Expr.parts_induction with
  | step e ih =>
    rw [Expr.localRefs_eq] at h
    simp only [List.forall_mem_append, List.forall_mem_flatMap, Option.mem_toList] at h
    cases href : e.ref? with
    | some r =>
      rw [Expr.subst, Expr.subst, href]
      exact h.2 r href
    | none =>
      rw [Expr.subst_of_ref?_eq_none σ href, Expr.subst_of_ref?_eq_none τ href,
        List.map_congr_left fun p hp => ih p hp (h.1 p hp)]

namespace OrderTerm

/-- The term with the references of its expression replaced. -/
def subst (σ : String → String → Expr) (t : OrderTerm) : OrderTerm :=
  ⟨t.expr.subst σ, t.direction⟩

@[simp] theorem expr_subst (σ : String → String → Expr) (t : OrderTerm) :
    (t.subst σ).expr = t.expr.subst σ :=
  rfl

theorem map_subst_flipAll (σ : String → String → Expr) (ts : List OrderTerm) :
    (flipAll ts).map (subst σ) = flipAll (ts.map (subst σ)) := by
  simp [flipAll, subst, flip, Function.comp_def]

end OrderTerm

/-! ## Rows -/

/-- **The values that a row gives to expressions.** Expressions that are equal have equal values,
also after the same references have been replaced in both. -/
structure Valuation (V : Type) where
  value : Expr → V
  congr : ∀ {e e' : Expr}, (e == e') = true → ∀ σ, value (e.subst σ) = value (e'.subst σ)

theorem Expr.ref?_subst_of_ref?_eq_none (σ : String → String → Expr) {e : Expr}
    (h : e.ref? = none) : (e.subst σ).ref? = none := by
  have mapped : e.subst σ = e.mapParts (fun p => p.subst σ) id := by
    rw [Expr.subst_of_ref?_eq_none σ h, Expr.mapParts, Option.map_id, id]
  rw [mapped, Expr.ref?_mapParts, h]

/-- Equal expressions are references together. -/
theorem Expr.ref?_of_beq {e e' : Expr} (h : (e == e') = true) : e.ref? = e'.ref? := by
  have h : e.beq e' = true := h
  cases e <;> cases e' <;> simp_all [Expr.beq, Expr.ref?]

theorem Expr.eq_column_of_ref? {e : Expr} {label name : String} (h : e.ref? = some (label, name)) :
    e = .column label name := by
  cases e <;> simp_all [Expr.ref?]

/-- A row that gives the columns of tables any values, and one value to all else. -/
def Valuation.ofColumns {V : Type} (column : String → String → V) (other : V) : Valuation V where
  value e := (e.ref?.map fun r => column r.1 r.2).getD other
  congr := by
    intro e e' h σ
    have refs := Expr.ref?_of_beq h
    cases href : e.ref? with
    | some r =>
      rw [href] at refs
      rw [Expr.eq_column_of_ref? href, Expr.eq_column_of_ref? refs.symm]
    | none =>
      rw [href] at refs
      rw [Expr.ref?_subst_of_ref?_eq_none σ href, Expr.ref?_subst_of_ref?_eq_none σ refs.symm]

namespace OrderTerm

variable {V : Type} [LinearOrder V]

/-- How one term compares two rows. -/
def compareRows (x y : Expr → V) (t : OrderTerm) : Ordering :=
  match t.direction with
  | .ascending => compare (x t.expr) (y t.expr)
  | .descending => (compare (x t.expr) (y t.expr)).swap

/-- How an ordering compares two rows: by the first term that tells them apart. -/
def compareAll (x y : Expr → V) : List OrderTerm → Ordering
  | [] => .eq
  | t :: ts => (t.compareRows x y).then (compareAll x y ts)

section Rows

variable {x y : Expr → V}

/-- Later terms decide where the earlier ones do not. -/
theorem compareAll_append (ts us : List OrderTerm) :
    compareAll x y (ts ++ us) = (compareAll x y ts).then (compareAll x y us) := by
  induction ts with
  | nil => rfl
  | cons t ts ih => rw [List.cons_append, compareAll, compareAll, ih, Ordering.then_assoc]

/-- A flipped term turns the comparison round. -/
theorem compareRows_flip (t : OrderTerm) : t.flip.compareRows x y = (t.compareRows x y).swap := by
  obtain ⟨expr, direction⟩ := t
  cases direction with
  | ascending => rfl
  | descending => exact (Ordering.swap_swap).symm

/-- **Flipped terms compare the rows the other way round.** -/
theorem compareAll_flipAll (ts : List OrderTerm) :
    compareAll x y (flipAll ts) = (compareAll x y ts).swap := by
  induction ts with
  | nil => rfl
  | cons t ts ih =>
    show (t.flip.compareRows x y).then (compareAll x y (flipAll ts)) = _
    rw [compareRows_flip, ih, compareAll, Ordering.swap_then]

/-- A term does not tell two rows apart exactly if its expression has one value. -/
theorem compareRows_eq_eq_iff {t : OrderTerm} :
    t.compareRows x y = .eq ↔ x t.expr = y t.expr := by
  unfold compareRows
  cases t.direction with
  | ascending => exact compare_eq_iff_eq
  | descending => rw [Ordering.swap_eq_eq]; exact compare_eq_iff_eq

/-- Rows that no list of terms tells apart are told apart by none of the terms. -/
theorem compareRows_eq_eq_of_compareAll {ts : List OrderTerm} (h : compareAll x y ts = .eq)
    {t : OrderTerm} (ht : t ∈ ts) : t.compareRows x y = .eq := by
  induction ts with
  | nil => simp at ht
  | cons u ts ih =>
    rw [compareAll, Ordering.then_eq_eq] at h
    rcases List.mem_cons.1 ht with rfl | ht
    · exact h.1
    · exact ih h.2 ht

/-- Terms that have the same values one by one compare rows alike, also other rows. -/
theorem compareAll_congr_rows {x' y' : Expr → V} {ts us : List OrderTerm}
    (h : List.Forall₂ (fun t u => u.direction = t.direction ∧
      x' u.expr = x t.expr ∧ y' u.expr = y t.expr) ts us) :
    compareAll x' y' us = compareAll x y ts := by
  induction h with
  | nil => rfl
  | cons htu _ ih =>
    obtain ⟨direction, hx, hy⟩ := htu
    rw [compareAll, compareAll, ih, compareRows, compareRows, direction, hx, hy]

/-- A row of the terms with replaced references is a row of the terms themselves. -/
theorem compareAll_map_subst (σ : String → String → Expr) (ts : List OrderTerm) :
    compareAll x y (ts.map (subst σ)) =
      compareAll (fun e => x (e.subst σ)) (fun e => y (e.subst σ)) ts := by
  induction ts with
  | nil => rfl
  | cons t ts ih =>
    rw [List.map_cons, compareAll, compareAll, ih]
    rfl

/-! ### Repeats

The rows of this section give equal expressions equal values. -/

variable (hx : ∀ e e' : Expr, (e == e') = true → x e = x e')
variable (hy : ∀ e e' : Expr, (e == e') = true → y e = y e')
include hx hy

/-- Behind terms that cover it a term decides nothing. -/
theorem compareAll_then_of_covers {kept : List OrderTerm} {t : OrderTerm}
    (h : covers kept t.expr) (o : Ordering) :
    (compareAll x y kept).then ((t.compareRows x y).then o) = (compareAll x y kept).then o := by
  by_cases decided : compareAll x y kept = .eq
  · obtain ⟨u, hu, heq⟩ := covers_iff.1 h
    have same := compareRows_eq_eq_of_compareAll decided hu
    rw [compareRows_eq_eq_iff, hx _ _ heq, hy _ _ heq] at same
    rw [compareRows_eq_eq_iff.2 same]
    rfl
  · revert decided
    cases compareAll x y kept with
    | eq => exact fun h => absurd rfl h
    | lt => exact fun _ => rfl
    | gt => exact fun _ => rfl

/-- What is dropped of a list decides nothing behind what has been kept before it. -/
theorem compareAll_keepNew (kept ts : List OrderTerm) :
    (compareAll x y kept).then (compareAll x y (keepNew kept ts)) =
      (compareAll x y kept).then (compareAll x y ts) := by
  induction ts generalizing kept with
  | nil => rfl
  | cons t ts ih =>
    by_cases h : covers kept t.expr
    · rw [keepNew_cons_of_covers h, ih, compareAll, compareAll_then_of_covers hx hy h]
    · have step := ih (kept ++ [t])
      rw [compareAll_append, Ordering.then_assoc, Ordering.then_assoc] at step
      rw [keepNew_cons_of_not_covers h]
      simpa [compareAll, Ordering.then_eq] using step

/-- **Repeats decide nothing.** -/
theorem compareAll_withoutRepeats_of_congr (ts : List OrderTerm) :
    compareAll x y (withoutRepeats ts) = compareAll x y ts :=
  compareAll_keepNew hx hy [] ts

end Rows

/-- The same after the references of the terms have been replaced. -/
theorem compareAll_withoutRepeats {x y : Valuation V} (σ : String → String → Expr)
    (ts : List OrderTerm) :
    compareAll x.value y.value ((withoutRepeats ts).map (subst σ)) =
      compareAll x.value y.value (ts.map (subst σ)) := by
  rw [compareAll_map_subst, compareAll_map_subst]
  exact compareAll_withoutRepeats_of_congr (fun _ _ equal => x.congr equal σ)
    (fun _ _ equal => y.congr equal σ) ts

end OrderTerm

end HiveQuery
