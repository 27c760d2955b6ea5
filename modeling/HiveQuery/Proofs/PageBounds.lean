import HiveQuery.Proofs.Page
import HiveQuery.Proofs.Rows
/-!
# The bounds of a page

The condition of a page compares row numbers with literals of 64 bits, and the last row number of a
page is a sum that need not fit into them. No bound is ever wrapped: a condition is made exactly if
the greatest number that it has to name is a signed integer of 64 bits
(`exists_pagePredicate_iff`), and it then holds of exactly the row numbers that lie on the page as
integers (`holds_iff_onPage`).
-/

namespace HiveQuery

/-! ## When a condition can be made -/

/-- The greatest number that the condition of a page names, for a page that has a bound. -/
def greatestBound? : Option UInt64 → Option UInt64 → Option Nat
  | none, none => none
  | some skip, none => some skip.toNat
  | none, some take => some take.toNat
  | some skip, some take => some (skip.toNat + take.toNat)

/-- A comparison with a bound is made if the bound is a signed integer of 64 bits. -/
theorem exists_map_pageBound_iff {n : Nat} {f : Expr → Expr} :
    (∃ e, (pageBound n).map f = .ok e) ↔ n ≤ 2 ^ 63 - 1 := by
  have max : Int64.maxValue.toInt = 2 ^ 63 - 1 := by decide
  constructor
  · rintro ⟨e, he⟩
    obtain ⟨bound, -, hbound⟩ := of_map_pageBound he
    have := bound.toInt_lt
    omega
  · intro fits
    refine ⟨f (.int (Int64.ofNat n)), ?_⟩
    rw [pageBound, if_pos (by omega)]
    rfl

/-- **A condition is made exactly if its greatest bound is a signed integer of 64 bits.** -/
theorem exists_pagePredicate_iff {rowNumber : Expr} {skip take : Option UInt64} :
    (∃ filter, pagePredicate rowNumber skip take = .ok filter) ↔
      ∃ n ∈ greatestBound? skip take, n ≤ 2 ^ 63 - 1 := by
  constructor
  · rintro ⟨filter, h⟩
    rcases of_pagePredicate_eq_ok h with ⟨n, rfl, rfl, h⟩ | ⟨k, rfl, rfl, h⟩ |
      ⟨k, n, _, upTo, rfl, rfl, -, hupTo, -⟩
    · exact ⟨_, rfl, exists_map_pageBound_iff.1 ⟨filter, h⟩⟩
    · exact ⟨_, rfl, exists_map_pageBound_iff.1 ⟨filter, h⟩⟩
    · exact ⟨_, rfl, exists_map_pageBound_iff.1 ⟨upTo, hupTo⟩⟩
  · rintro ⟨m, hm, fits⟩
    cases skip with
    | none =>
      cases take with
      | none => cases hm
      | some n =>
        obtain rfl := Option.some.inj hm
        exact exists_map_pageBound_iff.2 fits
    | some k =>
      cases take with
      | none =>
        obtain rfl := Option.some.inj hm
        exact exists_map_pageBound_iff.2 fits
      | some n =>
        obtain rfl := Option.some.inj hm
        -- The skip is no greater than the sum, so what fits the sum fits both bounds.
        obtain ⟨after, hafter⟩ : ∃ after, afterBound rowNumber k.toNat = .ok after :=
          exists_map_pageBound_iff.2 (by omega)
        obtain ⟨upTo, hupTo⟩ : ∃ upTo, upToBound rowNumber (k.toNat + n.toNat) = .ok upTo :=
          exists_map_pageBound_iff.2 fits
        have small : ¬ UInt64.size ≤ k.toNat + n.toNat := by
          unfold UInt64.size
          omega
        refine ⟨.and after upTo, ?_⟩
        simp only [pagePredicate, if_neg small, hafter, hupTo]
        rfl

/-! ## What a condition says -/

/-- A row number lies on a page: it is above the skipped ones, and at most as far above them as rows
are taken. -/
def OnPage (skip take : Option UInt64) (r : Int) : Prop :=
  (∀ k ∈ skip, (k.toNat : Int) < r) ∧
    ∀ n ∈ take, r ≤ ((skip.map UInt64.toNat).getD 0 : Nat) + n.toNat

section

variable {V : Type} [Values V]

theorem Values.strictMono_number : StrictMono (Values.number : Int → V) :=
  fun _ _ => Values.number_strictMono

/-- **The condition of a page holds of the row numbers that lie on it**, for any values that the
row number and the literals are compared by. -/
theorem holds_iff_onPage {x : Expr → V} {rowNumber filter : Expr} {skip take : Option UInt64}
    {r : Int} (h : pagePredicate rowNumber skip take = .ok filter)
    (row : x rowNumber = Values.number r)
    (literal : ∀ n : Int64, x (.literal (.int n)) = Values.number n.toInt) :
    holds x filter = true ↔ OnPage skip take r := by
  have after : ∀ {n : Nat} {e : Expr}, afterBound rowNumber n = .ok e →
      (holds x e = true ↔ (n : Int) < r) := by
    intro n e he
    obtain ⟨b, rfl, hb⟩ := of_map_pageBound he
    rw [holds, row, literal, hb, decide_eq_true_iff, Values.strictMono_number.lt_iff_lt]
  have upTo : ∀ {n : Nat} {e : Expr}, upToBound rowNumber n = .ok e →
      (holds x e = true ↔ r ≤ n) := by
    intro n e he
    obtain ⟨b, rfl, hb⟩ := of_map_pageBound he
    rw [holds, row, literal, hb, decide_eq_true_iff, Values.strictMono_number.le_iff_le]
  rcases of_pagePredicate_eq_ok h with ⟨n, rfl, rfl, h⟩ | ⟨k, rfl, rfl, h⟩ |
    ⟨k, n, a, b, rfl, rfl, hafter, hupTo, rfl⟩
  · rw [upTo h]
    simp [OnPage]
  · rw [after h]
    simp [OnPage]
  · rw [Expr.and, holds, Bool.and_eq_true, after hafter, upTo hupTo]
    simp [OnPage]

end

/-- **The bounds of a page are exact.** Its condition is refused exactly if the page has no bound, or
one that no signed integer of 64 bits is; a condition that is made holds of a row number, which is
such an integer, exactly if the row number lies on the page. -/
theorem pagePredicate_exact (rowNumber : Expr) (skip take : Option UInt64) :
    ((∃ failure, pagePredicate rowNumber skip take = .error failure) ↔
      (skip = none ∧ take = none) ∨ ∃ n ∈ greatestBound? skip take, 2 ^ 63 - 1 < n) ∧
    ∀ filter, pagePredicate rowNumber skip take = .ok filter →
      ∀ (V : Type) [Values V] (x : Expr → V) (r : Int64),
        x rowNumber = Values.number r.toInt →
        (∀ n : Int64, x (.literal (.int n)) = Values.number n.toInt) →
        (holds x filter = true ↔ OnPage skip take r.toInt) := by
  refine ⟨?_, fun filter h V _ x r row literal => holds_iff_onPage h row literal⟩
  have refused : (∃ failure, pagePredicate rowNumber skip take = .error failure) ↔
      ¬ ∃ filter, pagePredicate rowNumber skip take = .ok filter := by
    cases pagePredicate rowNumber skip take <;> simp
  rw [refused, exists_pagePredicate_iff]
  cases skip <;> cases take <;> simp [greatestBound?]

/-- The last page that there can be: it ends with the greatest integer of 64 bits. -/
theorem pagePredicate_exact_lastPage :
    ∃ filter, pagePredicate (.column "t" "rn") (some 9223372036854775805) (some 2) = .ok filter ∧
      ∀ r : Int64, holds (Record.reading "t" [("rn", r.toInt)]) filter = true ↔
        r = 9223372036854775806 ∨ r = 9223372036854775807 := by
  have made : ∃ filter, pagePredicate (.column "t" "rn") (some 9223372036854775805) (some 2) =
      .ok filter := exists_pagePredicate_iff.2 ⟨9223372036854775807, rfl, le_rfl⟩
  obtain ⟨filter, h⟩ := made
  refine ⟨filter, h, fun r => ?_⟩
  have holds_iff := (pagePredicate_exact _ _ _).2 filter h Int
    (Record.reading "t" [("rn", r.toInt)]) r rfl fun _ => rfl
  have page : OnPage (some 9223372036854775805) (some 2) r.toInt ↔
      9223372036854775805 < r.toInt ∧ r.toInt ≤ 9223372036854775807 := by simp [OnPage]
  have before : (9223372036854775806 : Int64).toInt = 9223372036854775806 := by decide
  have last : (9223372036854775807 : Int64).toInt = 9223372036854775807 := by decide
  rw [holds_iff, page, ← Int64.toInt_inj, ← Int64.toInt_inj, before, last]
  omega

end HiveQuery
