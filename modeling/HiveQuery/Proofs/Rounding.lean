import HiveQuery.Number.Shortest
import Mathlib
/-!
# The shortest decimal is read back

A finite number is written as a decimal that lies nearer to it than half the way to its neighbours,
and rounding such a decimal gives the number again. The arithmetic is that of rationals: a number of
significand `m` and exponent `e` has the magnitude `m * 2 ^ e`, and what is `Near` to it rounds to
it (`Binary64.ofRatio_of_near`). Seventeen digits always reach that near, so the shortest decimal
is one (`Binary64.exists_shortest`).
-/

namespace HiveQuery

/-- Dividing by the power of a negative exponent is multiplying by that of its opposite. -/
theorem pow_toNat_div {b : ℚ} (hb : b ≠ 0) (e : ℤ) : b ^ e.toNat / b ^ (-e).toNat = b ^ e := by
  rw [← zpow_natCast, ← zpow_natCast, ← zpow_sub₀ hb, Int.toNat_sub_toNat_neg]

namespace Binary64

/-! ## Rounding -/

/-- The natural number nearest to a rational; of two at the same distance, the even one. -/
def Nearest (w : ℚ) (n : ℕ) : Prop :=
  |w - n| < 1 / 2 ∨ |w - n| = 1 / 2 ∧ Even n

/-- The nearest integer is what division rounds to. -/
theorem roundDiv_eq {num den n : ℕ} (hden : 0 < den) (h : Nearest ((num : ℚ) / den) n) :
    roundDiv num den = n := by
  obtain ⟨k, r, hr, rfl⟩ : ∃ k r, r < den ∧ num = den * k + r :=
    ⟨num / den, num % den, Nat.mod_lt _ hden, (Nat.div_add_mod num den).symm⟩
  have hquot : (den * k + r) / den = k := by
    rw [Nat.mul_add_div hden, Nat.div_eq_of_lt hr, Nat.add_zero]
  have hrest : (den * k + r) % den = r := by
    rw [Nat.mul_add_mod, Nat.mod_eq_of_lt hr]
  have hden' : (0 : ℚ) < den := by exact_mod_cast hden
  have hw : ((den * k + r : ℕ) : ℚ) / den = k + r / den := by
    push_cast
    field_simp
  have hpos : 0 ≤ (r : ℚ) / den := by positivity
  have hone : (r : ℚ) / den < 1 := (div_lt_one hden').2 (by exact_mod_cast hr)
  have hlt : (r : ℚ) / den < 1 / 2 ↔ r * 2 < den := by
    rw [div_lt_div_iff₀ hden' two_pos, one_mul]
    norm_cast
  have heq : (r : ℚ) / den = 1 / 2 ↔ r * 2 = den := by
    rw [div_eq_div_iff hden'.ne' two_ne_zero, one_mul]
    norm_cast
  rw [Nearest, hw] at h
  have hle : |((k : ℚ) + r / den) - n| ≤ 1 / 2 := h.elim le_of_lt fun h => h.1.le
  have hbounds := abs_le.1 hle
  have hlow : k < n + 1 := by
    have : (k : ℚ) < n + 1 := by linarith
    exact_mod_cast this
  have hhigh : n < k + 2 := by
    have : (n : ℚ) < k + 2 := by linarith
    exact_mod_cast this
  simp only [roundDiv, hquot, hrest, Bool.or_eq_true, Bool.and_eq_true, decide_eq_true_eq,
    beq_iff_eq]
  obtain rfl | rfl : n = k ∨ n = k + 1 := by omega
  · rw [add_sub_cancel_left, abs_of_nonneg hpos, hlt, heq, Nat.even_iff] at h
    rw [if_neg (by omega)]
  · have hdist : |(k : ℚ) + r / den - (k + 1 : ℕ)| = 1 - r / den := by
      push_cast
      rw [add_sub_add_left_eq_sub, abs_sub_comm, abs_of_pos (by linarith)]
    have hgt : 1 - (r : ℚ) / den < 1 / 2 ↔ ¬ (r * 2 < den ∨ r * 2 = den) := by
      rw [← hlt, ← heq, ← le_iff_lt_or_eq, not_le]
      constructor <;> intro <;> linarith
    have heq' : 1 - (r : ℚ) / den = 1 / 2 ↔ r * 2 = den := by
      rw [← heq]
      constructor <;> intro <;> linarith
    rw [hdist, hgt, heq', Nat.even_add_one, Nat.not_even_iff] at h
    rw [if_pos (by omega)]

theorem le_div_iff_shiftLeft {num den : ℕ} (hden : den ≠ 0) (e : ℤ) :
    (if 0 ≤ e then den <<< e.toNat ≤ num else den ≤ num <<< (-e).toNat) ↔
      (2 : ℚ) ^ e ≤ num / den := by
  have hden' : (0 : ℚ) < den := by exact_mod_cast Nat.pos_of_ne_zero hden
  rw [le_div_iff₀ hden']
  split_ifs with h
  · obtain ⟨k, rfl⟩ := Int.eq_ofNat_of_zero_le h
    rw [Nat.shiftLeft_eq, zpow_natCast, mul_comm]
    norm_cast
  · obtain ⟨k, hk⟩ := Int.eq_ofNat_of_zero_le (a := -e) (by omega)
    obtain rfl : e = -k := by omega
    rw [Nat.shiftLeft_eq, zpow_neg, zpow_natCast, inv_mul_le_iff₀ (by positivity), mul_comm,
      neg_neg]
    norm_cast

/-- **The binary exponent of a quotient** is that of the largest power of two that is not above
it. -/
theorem binaryExponent_spec {num den : ℕ} (hnum : num ≠ 0) (hden : den ≠ 0) :
    (2 : ℚ) ^ binaryExponent num den ≤ num / den ∧
      (num : ℚ) / den < 2 ^ (binaryExponent num den + 1) := by
  have hden' : (0 : ℚ) < den := by exact_mod_cast Nat.pos_of_ne_zero hden
  have hnumLow : (2 : ℚ) ^ (Nat.log2 num : ℤ) ≤ num := by
    exact_mod_cast Nat.log2_self_le hnum
  have hnumHigh : (num : ℚ) < 2 ^ ((Nat.log2 num : ℤ) + 1) := by
    exact_mod_cast Nat.lt_log2_self (n := num)
  have hdenLow : (2 : ℚ) ^ (Nat.log2 den : ℤ) ≤ den := by
    exact_mod_cast Nat.log2_self_le hden
  have hdenHigh : (den : ℚ) < 2 ^ ((Nat.log2 den : ℤ) + 1) := by
    exact_mod_cast Nat.lt_log2_self (n := den)
  -- The logarithms are exact to one, so the estimate is right or one too great.
  have low : (2 : ℚ) ^ ((Nat.log2 num : ℤ) - Nat.log2 den - 1) ≤ num / den := by
    rw [le_div_iff₀ hden']
    calc (2 : ℚ) ^ ((Nat.log2 num : ℤ) - Nat.log2 den - 1) * den
        ≤ 2 ^ ((Nat.log2 num : ℤ) - Nat.log2 den - 1) * 2 ^ ((Nat.log2 den : ℤ) + 1) := by gcongr
      _ = 2 ^ (Nat.log2 num : ℤ) := by rw [← zpow_add₀ two_ne_zero]; congr 1; omega
      _ ≤ num := hnumLow
  have high : (num : ℚ) / den < 2 ^ ((Nat.log2 num : ℤ) - Nat.log2 den + 1) := by
    rw [div_lt_iff₀ hden']
    calc (num : ℚ) < 2 ^ ((Nat.log2 num : ℤ) + 1) := hnumHigh
      _ = 2 ^ ((Nat.log2 num : ℤ) - Nat.log2 den + 1) * 2 ^ (Nat.log2 den : ℤ) := by
        rw [← zpow_add₀ two_ne_zero]; congr 1; omega
      _ ≤ 2 ^ ((Nat.log2 num : ℤ) - Nat.log2 den + 1) * den := by gcongr
  unfold binaryExponent
  simp only [le_div_iff_shiftLeft hden]
  split_ifs with reached
  · exact ⟨reached, high⟩
  · rw [sub_add_cancel]
    exact ⟨low, not_le.1 reached⟩

/-- The number that a ratio is rounded to, given the unit of its last place. -/
theorem ofRatio_eq {num den n : ℕ} (hden : den ≠ 0) {u : ℤ}
    (hu : max (binaryExponent num den - 52) (-1074) = u)
    (h : Nearest ((num : ℚ) / den / 2 ^ u) n)
    (hfinite : (u + 1074).toNat * hiddenBit + n ≤ 2047 * hiddenBit) (negative : Bool) :
    ofRatio negative num den = ofMagnitude negative ((u + 1074).toNat * hiddenBit + n) := by
  have hden' : (0 : ℚ) < den := by exact_mod_cast Nat.pos_of_ne_zero hden
  have rounded : (if 0 ≤ u then roundDiv num (den <<< u.toNat)
      else roundDiv (num <<< (-u).toNat) den) = n := by
    split_ifs with hsign
    · obtain ⟨k, rfl⟩ := Int.eq_ofNat_of_zero_le hsign
      refine roundDiv_eq (by rw [Nat.shiftLeft_eq]; positivity) ?_
      rwa [Nat.shiftLeft_eq, Int.toNat_natCast, Nat.cast_mul, Nat.cast_pow, Nat.cast_ofNat,
        ← div_div, ← zpow_natCast]
    · obtain ⟨k, hk⟩ := Int.eq_ofNat_of_zero_le (a := -u) (by omega)
      refine roundDiv_eq (Nat.pos_of_ne_zero hden) ?_
      rw [hk, Nat.shiftLeft_eq, Int.toNat_natCast, Nat.cast_mul, Nat.cast_pow, Nat.cast_ofNat]
      rw [show u = -(k : ℤ) by omega, zpow_neg, zpow_natCast, div_inv_eq_mul,
        div_mul_eq_mul_div] at h
      exact h
  simp only [ofRatio, hu, rounded, min_eq_left hfinite]

/-! ## What lies near to a number -/

/-- A significand has fifty-three bits. -/
theorem significand_lt (x : Binary64) : x.significand < 2 ^ 53 := by
  have : x.fraction < hiddenBit := Nat.mod_lt _ (by decide)
  unfold significand hiddenBit at *
  split_ifs <;> omega

/-- The magnitude of a finite float is not above that of infinity. -/
theorem magnitude_le {x : Binary64} (hx : x.isFinite) :
    x.biasedExponent * hiddenBit + x.fraction ≤ 2047 * hiddenBit := by
  have hfraction : x.fraction < hiddenBit := Nat.mod_lt _ (by decide)
  have hrange : x.biasedExponent < 2048 := Nat.mod_lt _ (by decide)
  have hfinite : x.biasedExponent ≠ 2047 := by simpa [isFinite] using hx
  unfold hiddenBit at *
  omega

/-- A rational that lies as near to the magnitude of a number as it must to be rounded to it: within
half of its last place or, below a power of two, where the numbers are twice as close, a quarter. -/
structure Near (x : Binary64) (w : ℚ) : Prop where
  nearest : Nearest (w / 2 ^ x.exponent) x.significand
  above : x.significand = hiddenBit → 1 < x.biasedExponent →
    (hiddenBit : ℚ) - 1 / 4 ≤ w / 2 ^ x.exponent

/-- The nearest integer is at most a half away. -/
theorem Nearest.bounds {w : ℚ} {n : ℕ} (h : Nearest w n) : (n : ℚ) - 1 / 2 ≤ w ∧ w ≤ n + 1 / 2 := by
  have hle : |w - n| ≤ 1 / 2 := h.elim le_of_lt fun h => h.1.le
  have := abs_le.1 hle
  constructor <;> linarith

/-- The exponent of a ratio, read off its multiple of a power of two. -/
theorem le_binaryExponent {num den : ℕ} (hnum : num ≠ 0) (hden : den ≠ 0) {k e : ℤ}
    (h : (2 : ℚ) ^ k ≤ num / den / 2 ^ e) : k + e ≤ binaryExponent num den := by
  have hlt : (2 : ℚ) ^ (k + e) < 2 ^ (binaryExponent num den + 1) := by
    rw [le_div_iff₀ (by positivity), ← zpow_add₀ two_ne_zero] at h
    exact h.trans_lt (binaryExponent_spec hnum hden).2
  have := (zpow_lt_zpow_iff_right₀ (one_lt_two (α := ℚ))).1 hlt
  omega

theorem binaryExponent_lt {num den : ℕ} (hnum : num ≠ 0) (hden : den ≠ 0) {k e : ℤ}
    (h : (num : ℚ) / den / 2 ^ e < 2 ^ k) : binaryExponent num den < k + e := by
  rw [div_lt_iff₀ (by positivity), ← zpow_add₀ two_ne_zero] at h
  exact (zpow_lt_zpow_iff_right₀ (one_lt_two (α := ℚ))).1
    ((binaryExponent_spec hnum hden).1.trans_lt h)

/-- **What is near to a number is rounded to it.** -/
theorem ofRatio_of_near {x : Binary64} (hx : x.isFinite) {num den : ℕ} (hnum : num ≠ 0)
    (hden : den ≠ 0) (h : x.Near (num / den)) (negative : Bool) :
    ofRatio negative num den =
      ofMagnitude negative (x.biasedExponent * hiddenBit + x.fraction) := by
  have hfraction : x.fraction < hiddenBit := Nat.mod_lt _ (by decide)
  have hbit : hiddenBit = 2 ^ 52 := by decide
  have hexp : x.exponent = (max x.biasedExponent 1 : ℕ) - 1075 := rfl
  have hsig : x.significand = if x.biasedExponent = 0 then x.fraction else hiddenBit + x.fraction :=
    rfl
  have hsigLe : (x.significand : ℚ) + 1 ≤ 2 ^ 53 := by exact_mod_cast x.significand_lt
  obtain ⟨hlow, hhigh⟩ := h.nearest.bounds
  have hbelow : binaryExponent num den < 53 + x.exponent :=
    binaryExponent_lt hnum hden (by norm_cast; push_cast; linarith)
  by_cases hunit : max (binaryExponent num den - 52) (-1074) = x.exponent
  · -- The ratio is counted in the same unit as the number.
    have hmagnitude : (x.exponent + 1074).toNat * hiddenBit + x.significand =
        x.biasedExponent * hiddenBit + x.fraction := by
      rw [hsig, hexp]
      split_ifs <;> simp only [hbit] <;> omega
    rw [ofRatio_eq hden hunit h.nearest (hmagnitude.trans_le (magnitude_le hx)), hmagnitude]
  · -- The ratio lies below a power of two, and its unit is half that of the number.
    have hnormal : 1 < x.biasedExponent := by
      by_contra
      omega
    have hless : (num : ℚ) / den / 2 ^ x.exponent < 2 ^ (52 : ℤ) := by
      by_contra hnot
      have := le_binaryExponent hnum hden (not_lt.1 hnot)
      omega
    have hpower : x.significand = hiddenBit := by
      have : (x.significand : ℚ) < 2 ^ 52 + 1 := by
        norm_cast at hless
        push_cast at hless
        linarith
      have : x.significand < 2 ^ 52 + 1 := by exact_mod_cast this
      rw [hsig] at this ⊢
      split_ifs at this ⊢ <;> omega
    have habove := h.above hpower hnormal
    rw [hbit] at habove
    have hunit' : max (binaryExponent num den - 52) (-1074) = x.exponent - 1 := by
      have := binaryExponent_lt hnum hden hless
      have := le_binaryExponent (k := 51) hnum hden (e := x.exponent) (by
        norm_cast at habove ⊢
        push_cast at habove ⊢
        linarith)
      omega
    have hnearest : Nearest ((num : ℚ) / den / 2 ^ (x.exponent - 1)) (2 * hiddenBit) := by
      have hdouble : (num : ℚ) / den / 2 ^ (x.exponent - 1) = num / den / 2 ^ x.exponent * 2 := by
        rw [zpow_sub_one₀ two_ne_zero, ← div_div, div_inv_eq_mul]
      have hle : |(num : ℚ) / den / 2 ^ (x.exponent - 1) - (2 * hiddenBit : ℕ)| ≤ 1 / 2 := by
        rw [hdouble, hbit, abs_le]
        norm_cast at habove hless
        push_cast at habove hless ⊢
        constructor <;> linarith
      exact hle.lt_or_eq.imp id fun heq => ⟨heq, even_two_mul _⟩
    have hmagnitude : (x.exponent - 1 + 1074).toNat * hiddenBit + 2 * hiddenBit =
        x.biasedExponent * hiddenBit + x.fraction := by
      rw [hexp]
      rw [hsig, if_neg (by omega)] at hpower
      rw [hbit] at *
      omega
    rw [ofRatio_eq hden hunit' hnearest (hmagnitude.trans_le (magnitude_le hx)), hmagnitude]

end Binary64

/-! ## The digits that are enough -/

/-- **The leading exponent of a quotient** is that of the largest power of ten that is not above
it. -/
theorem Decimal.leadingExponent_spec {num den : ℕ} (hnum : num ≠ 0) (hden : den ≠ 0) :
    (10 : ℚ) ^ leadingExponent num den ≤ num / den ∧
      (num : ℚ) / den < 10 ^ (leadingExponent num den + 1) := by
  have hnum' : (0 : ℚ) < num := by exact_mod_cast Nat.pos_of_ne_zero hnum
  have hden' : (0 : ℚ) < den := by exact_mod_cast Nat.pos_of_ne_zero hden
  have hlength (n : ℕ) : n < 10 ^ (Nat.toDigits 10 n).length :=
    (Nat.length_toDigits_le_iff (by decide) Nat.length_toDigits_pos).1 le_rfl
  have hlength' {n : ℕ} (hn : n ≠ 0) : 10 ^ ((Nat.toDigits 10 n).length - 1) ≤ n := by
    rcases Nat.eq_zero_or_pos ((Nat.toDigits 10 n).length - 1) with hzero | hpos
    · rw [hzero]
      exact Nat.pos_of_ne_zero hn
    · by_contra hlt
      have := (Nat.length_toDigits_le_iff (by decide) hpos).2 (not_le.1 hlt)
      omega
  unfold leadingExponent
  split_ifs with hle
  · -- The digits of the whole part count the places.
    set q := num / den
    have hq : q ≠ 0 := (Nat.div_pos hle (Nat.pos_of_ne_zero hden)).ne'
    have hpos : 1 ≤ (Nat.toDigits 10 q).length := Nat.length_toDigits_pos
    rw [sub_add_cancel, ← Nat.cast_one, ← Nat.cast_sub hpos, zpow_natCast, zpow_natCast,
      le_div_iff₀ hden', div_lt_iff₀ hden']
    have hlow : 10 ^ ((Nat.toDigits 10 q).length - 1) * den ≤ num :=
      (Nat.le_div_iff_mul_le (Nat.pos_of_ne_zero hden)).1 (hlength' hq)
    have hhigh : num < 10 ^ (Nat.toDigits 10 q).length * den :=
      (Nat.div_lt_iff_lt_mul (Nat.pos_of_ne_zero hden)).1 (hlength q)
    exact ⟨by exact_mod_cast hlow, by exact_mod_cast hhigh⟩
  · set q := (den - 1) / num
    have hq : q ≠ 0 := (Nat.div_pos (by omega) (Nat.pos_of_ne_zero hnum)).ne'
    have hpos : 1 ≤ (Nat.toDigits 10 q).length := Nat.length_toDigits_pos
    have hlow : den ≤ num * 10 ^ (Nat.toDigits 10 q).length := by
      have : den - 1 < 10 ^ (Nat.toDigits 10 q).length * num :=
        (Nat.div_lt_iff_lt_mul (Nat.pos_of_ne_zero hnum)).1 (hlength q)
      rw [mul_comm]
      omega
    have hhigh : num * 10 ^ ((Nat.toDigits 10 q).length - 1) < den := by
      have : 10 ^ ((Nat.toDigits 10 q).length - 1) * num ≤ den - 1 :=
        (Nat.le_div_iff_mul_le (Nat.pos_of_ne_zero hnum)).1 (hlength' hq)
      rw [mul_comm]
      omega
    have hexp : -((Nat.toDigits 10 q).length : ℤ) + 1 =
        -(((Nat.toDigits 10 q).length - 1 : ℕ) : ℤ) := by
      omega
    rw [hexp, zpow_neg, zpow_neg, zpow_natCast, zpow_natCast,
      inv_le_comm₀ (by positivity) (by positivity), lt_inv_comm₀ (by positivity) (by positivity),
      inv_div, div_le_iff₀ hnum', lt_div_iff₀ hnum', mul_comm, mul_comm _ (num : ℚ)]
    exact ⟨by exact_mod_cast hlow, by exact_mod_cast hhigh⟩

namespace Binary64

/-- The magnitude of a finite number. -/
def value (x : Binary64) : ℚ :=
  x.significand * 2 ^ x.exponent

/-- The magnitude in steps of a power of ten. -/
theorem value_div (x : Binary64) (s : ℤ) :
    (((x.significand <<< x.exponent.toNat) * Nat.pow 10 (-s).toNat : ℕ) : ℚ) /
      (((1 <<< (-x.exponent).toNat) * Nat.pow 10 s.toNat : ℕ) : ℚ) = x.value / 10 ^ s := by
  rw [value, ← pow_toNat_div (two_ne_zero (α := ℚ)),
    ← pow_toNat_div (by norm_num : (10 : ℚ) ≠ 0), Nat.shiftLeft_eq, Nat.shiftLeft_eq, Nat.pow_eq,
    Nat.pow_eq]
  push_cast
  field_simp

/-- A unit of the last place is this many times as far as what is rounded up to a number reaches
below it. -/
def lowerFactor (x : Binary64) : ℕ :=
  if x.significand = hiddenBit ∧ 1 < x.biasedExponent then 4 else 2

/-- A distance is less than the given part of a unit of the last place, or as much if the
significand is even. It is counted in the unit in which the magnitude of the number is `num`. -/
def Within (x : Binary64) (num distance factor : ℕ) : Prop :=
  distance * x.significand * factor < num ∨
    Even x.significand ∧ distance * x.significand * factor = num

/-- What is tried for a digit count: the decimals next below and next above the number. -/
theorem decimalOfLength?_eq (x : Binary64) (tie : Tie) (leading : Int) (count : Nat) :
    ∃ (num den : ℕ) (down up upNearer : Bool),
      den ≠ 0 ∧ (num : ℚ) / den = x.value / 10 ^ (leading - count + 1) ∧
      (down = true ↔ x.Within num (num % den) x.lowerFactor) ∧
      (up = true ↔ x.Within num (den - num % den) 2) ∧
      x.decimalOfLength? tie leading count =
        if down && (!up || !upNearer) then some (.ofScaled (num / den) (leading - count + 1))
        else if up then some (.ofScaled (num / den + 1) (leading - count + 1)) else none := by
  refine ⟨_, _, _, _, _, ?_, value_div x (leading - count + 1), ?_, ?_, rfl⟩
  · rw [Nat.shiftLeft_eq, Nat.pow_eq]
    positivity
  · simp [Nat.even_iff, Within, lowerFactor]
  · simp [Nat.even_iff, Within]

section

variable {x : Binary64} {num den : ℕ} {s : ℤ}

/-- The distance in units of the last place. -/
theorem Within.ulps {distance factor : ℕ} (h : x.Within num distance factor)
    (hm : x.significand ≠ 0) (hden : den ≠ 0) (hratio : (num : ℚ) / den = x.value / 10 ^ s) :
    (distance : ℚ) / den * 10 ^ s / 2 ^ x.exponent * factor < 1 ∨
      (distance : ℚ) / den * 10 ^ s / 2 ^ x.exponent * factor = 1 ∧ Even x.significand := by
  have hm' : (0 : ℚ) < x.significand := by exact_mod_cast Nat.pos_of_ne_zero hm
  have hden' : (0 : ℚ) < den := by exact_mod_cast Nat.pos_of_ne_zero hden
  have hnum : (num : ℚ) = x.significand * 2 ^ x.exponent / 10 ^ s * den := by
    rw [← value, ← hratio, div_mul_cancel₀ _ hden'.ne']
  have hscaled : (distance : ℚ) / den * 10 ^ s / 2 ^ x.exponent * factor =
      (distance * x.significand * factor : ℕ) / num := by
    rw [hnum]
    push_cast
    field_simp
  have hpos : (0 : ℚ) < num := by
    rw [hnum]
    positivity
  rw [hscaled, div_lt_one hpos, div_eq_one_iff_eq hpos.ne']
  exact h.imp (by exact_mod_cast ·) fun h => ⟨by exact_mod_cast h.2, h.1⟩

/-- A number in steps, as the steps below it and the rest. -/
theorem significand_eq (hden : den ≠ 0) (hratio : (num : ℚ) / den = x.value / 10 ^ s) :
    (x.significand : ℚ) = (num / den : ℕ) * 10 ^ s / 2 ^ x.exponent +
      (num % den : ℕ) / den * 10 ^ s / 2 ^ x.exponent := by
  have hden' : (den : ℚ) ≠ 0 := by exact_mod_cast hden
  have hsplit : (num : ℚ) / den = (num / den : ℕ) + (num % den : ℕ) / den := by
    rw [div_eq_iff hden', add_mul, div_mul_cancel₀ _ hden', mul_comm]
    exact_mod_cast (Nat.div_add_mod num den).symm
  calc (x.significand : ℚ) = num / den * 10 ^ s / 2 ^ x.exponent := by
        rw [hratio, value]
        field_simp
    _ = _ := by
        rw [hsplit]
        ring

variable (hm : x.significand ≠ 0) (hden : den ≠ 0)
  (hratio : (num : ℚ) / den = x.value / 10 ^ s)
include hm hden hratio

/-- A decimal just below the float is near it, if the rest is small enough. -/
theorem Within.near_below (h : x.Within num (num % den) x.lowerFactor) :
    x.Near ((num / den : ℕ) * 10 ^ s) := by
  have hsig := significand_eq hden hratio
  have hulps := h.ulps hm hden hratio
  set t : ℚ := (num % den : ℕ) / den * 10 ^ s / 2 ^ x.exponent with ht
  have hnonneg : 0 ≤ t := by positivity
  have hdist : |(num / den : ℕ) * 10 ^ s / 2 ^ x.exponent - (x.significand : ℚ)| = t := by
    rw [hsig, abs_sub_comm, add_sub_cancel_left, abs_of_nonneg hnonneg]
  unfold lowerFactor at hulps
  split_ifs at hulps with narrow
  · have hquarter : t ≤ 1 / 4 := by
      rcases hulps with h | ⟨h, -⟩ <;> push_cast at h <;> linarith
    refine ⟨.inl (by rw [hdist]; linarith), fun hbit _ => ?_⟩
    rw [← hbit]
    linarith
  · refine ⟨?_, fun hbit hexp => absurd ⟨hbit, hexp⟩ narrow⟩
    rw [Nearest, hdist]
    push_cast at hulps
    exact hulps.imp (fun h => by linarith) fun h => ⟨by linarith [h.1], h.2⟩

/-- A decimal just above the float is near it, if what it lacks is small enough. -/
theorem Within.near_above (h : x.Within num (den - num % den) 2) :
    x.Near ((num / den + 1 : ℕ) * 10 ^ s) := by
  have hsig := significand_eq hden hratio
  have hulps := h.ulps hm hden hratio
  have hrest : num % den ≤ den := (Nat.mod_lt _ (Nat.pos_of_ne_zero hden)).le
  set t : ℚ := (den - num % den : ℕ) / den * 10 ^ s / 2 ^ x.exponent with ht
  have hnonneg : 0 ≤ t := by positivity
  have habove : ((num / den + 1 : ℕ) : ℚ) * 10 ^ s / 2 ^ x.exponent = x.significand + t := by
    have hden' : (den : ℚ) ≠ 0 := by exact_mod_cast hden
    rw [hsig, ht, Nat.cast_sub hrest]
    push_cast
    field_simp
    ring
  refine ⟨?_, fun hbit _ => ?_⟩
  · rw [Nearest, habove, add_sub_cancel_left, abs_of_nonneg hnonneg]
    push_cast at hulps
    exact hulps.imp (fun h => by linarith) fun h => ⟨by linarith [h.1], h.2⟩
  · rw [habove, ← hbit]
    linarith

end

/-- A decimal that is found is near to the number. -/
theorem near_of_decimalOfLength? {x : Binary64} (hm : x.significand ≠ 0) {tie : Tie} {leading : Int}
    {count : Nat} {d : Decimal} (h : x.decimalOfLength? tie leading count = some d) :
    ∃ c s, d = .ofScaled c s ∧ x.Near (c * 10 ^ s) := by
  obtain ⟨num, den, down, up, upNearer, hden, hratio, hdown, hup, heq⟩ :=
    x.decimalOfLength?_eq tie leading count
  rw [heq] at h
  split_ifs at h with below above
  · obtain rfl := Option.some.inj h
    have hwithin := hdown.1 (Bool.and_eq_true_iff.1 below).1
    exact ⟨_, _, rfl, hwithin.near_below hm hden hratio⟩
  · obtain rfl := Option.some.inj h
    exact ⟨_, _, rfl, (hup.1 above).near_above hm hden hratio⟩

theorem significand_mul_lowerFactor_le (x : Binary64) : x.significand * x.lowerFactor ≤ 2 ^ 54 := by
  have := x.significand_lt
  unfold lowerFactor
  split_ifs with narrow
  · rw [narrow.1]
    decide
  · omega

/-- Half a step is within reach if a number has at least `10 ^ 16` steps. -/
theorem within_of_two_mul_le {x : Binary64} {num den distance factor : ℕ} (hden : den ≠ 0)
    (hlarge : den * 10 ^ 16 ≤ num) (hfactor : x.significand * factor ≤ 2 ^ 54)
    (hdistance : 2 * distance ≤ den) : x.Within num distance factor := by
  have hprod : 2 * distance * (x.significand * factor) ≤ den * 2 ^ 54 :=
    Nat.mul_le_mul hdistance hfactor
  left
  rw [mul_assoc] at hprod ⊢
  omega

/-- Seventeen digits are enough: a step is then less than half of the last place. -/
theorem isSome_decimalOfLength? {x : Binary64} (tie : Tie) {leading : Int}
    (hleading : (10 : ℚ) ^ leading ≤ x.value) :
    (x.decimalOfLength? tie leading 17).isSome := by
  obtain ⟨num, den, down, up, upNearer, hden, hratio, hdown, hup, heq⟩ :=
    x.decimalOfLength?_eq tie leading 17
  have hlarge : den * 10 ^ 16 ≤ num := by
    have : (10 : ℚ) ^ 16 ≤ num / den := by
      rw [hratio, le_div_iff₀ (by positivity)]
      refine le_trans (le_of_eq ?_) hleading
      rw [← zpow_natCast, ← zpow_add₀ (by norm_num)]
      congr 1
      push_cast
      ring
    rw [le_div_iff₀ (by exact_mod_cast Nat.pos_of_ne_zero hden), mul_comm] at this
    exact_mod_cast this
  have hrest : num % den < den := Nat.mod_lt _ (Nat.pos_of_ne_zero hden)
  have hsome : down = true ∨ up = true := by
    rcases Nat.le_total (2 * (num % den)) den with hle | hge
    · exact .inl (hdown.2 (within_of_two_mul_le hden hlarge x.significand_mul_lowerFactor_le hle))
    · have hsig := x.significand_lt
      exact .inr (hup.2 (within_of_two_mul_le hden hlarge (by omega) (by omega)))
  rw [heq]
  rcases hsome with h | h <;> cases down <;> cases up <;> cases upNearer <;> simp_all

/-- **The shortest decimal of a number is near to it.** -/
theorem exists_shortest {x : Binary64} (hm : x.significand ≠ 0) (tie : Tie) :
    ∃ c s, x.shortest tie = .ofScaled c s ∧ x.Near (c * 10 ^ s) := by
  set leading :=
    Decimal.leadingExponent (x.significand <<< x.exponent.toNat) (1 <<< (-x.exponent).toNat)
    with hleading
  have hle : (10 : ℚ) ^ leading ≤ x.value := by
    have hratio := value_div x 0
    simp only [neg_zero, Int.toNat_zero, zpow_zero, div_one, Nat.pow_eq, pow_zero, mul_one]
      at hratio
    rw [← hratio]
    refine (Decimal.leadingExponent_spec ?_ ?_).1 <;> rw [Nat.shiftLeft_eq] <;> positivity
  have hsome : ((List.range 17).findSome? fun n =>
      x.decimalOfLength? tie leading (n + 1)).isSome := by
    rw [List.findSome?_isSome_iff]
    exact ⟨16, by decide, isSome_decimalOfLength? tie hle⟩
  obtain ⟨d, hd⟩ := Option.isSome_iff_exists.1 hsome
  obtain ⟨n, -, hn⟩ := List.exists_of_findSome?_eq_some hd
  obtain ⟨c, s, rfl, hnear⟩ := near_of_decimalOfLength? hm hn
  refine ⟨c, s, ?_, hnear⟩
  rw [shortest, ← hleading, hd]
  rfl

/-- What is near a number other than zero is positive. -/
theorem Near.pos {x : Binary64} {w : ℚ} (h : x.Near w) (hm : x.significand ≠ 0) : 0 < w := by
  have hm' : (1 : ℚ) ≤ x.significand := by exact_mod_cast Nat.one_le_iff_ne_zero.2 hm
  have hlow := h.nearest.bounds.1
  have hpos : 0 < w / 2 ^ x.exponent := by linarith
  exact (div_pos_iff_of_pos_right (by positivity)).1 hpos

end Binary64

/-! ## Digits -/

namespace Decimal

/-- The digits of a coefficient without the zeros at its end. -/
theorem ofScaled_digits (c : ℕ) (s : ℤ) :
    ∃ zeros, Nat.toDigits 10 c = (ofScaled c s).digits ++ List.replicate zeros '0' := by
  set digits := Nat.toDigits 10 c with hdigits
  have hsplit := List.takeWhile_append_dropWhile (p := (· == '0')) (l := digits.reverse)
  have hzeros : digits.reverse.takeWhile (· == '0') =
      List.replicate (digits.reverse.takeWhile (· == '0')).length '0' := by
    rw [List.eq_replicate_iff]
    exact ⟨rfl, fun c hc => beq_iff_eq.1 (List.mem_takeWhile_imp (p := (· == '0')) hc)⟩
  refine ⟨(digits.reverse.takeWhile (· == '0')).length, ?_⟩
  have := congrArg List.reverse hsplit
  rw [List.reverse_reverse, List.reverse_append, hzeros, List.reverse_replicate] at this
  exact this.symm

theorem isDigit_of_mem_ofScaled {c : ℕ} {s : ℤ} {d : Char} (h : d ∈ (ofScaled c s).digits) :
    d.isDigit := by
  obtain ⟨zeros, hdigits⟩ := ofScaled_digits c s
  refine Nat.isDigit_of_mem_toDigits (by decide) (by decide) (n := c) (b := 10) ?_
  rw [hdigits]
  exact List.mem_append_left _ h

/-- The value of a decimal: its digits as one number, moved to their place. -/
theorem ofScaled_value (c : ℕ) (s : ℤ) :
    (Nat.ofDigitChars 10 (ofScaled c s).digits 0 : ℚ) *
      10 ^ ((ofScaled c s).exponent + 1 - (ofScaled c s).digits.length) = c * 10 ^ s := by
  obtain ⟨zeros, hdigits⟩ := ofScaled_digits c s
  have hc : c = 10 ^ zeros * Nat.ofDigitChars 10 (ofScaled c s).digits 0 := by
    conv_lhs => rw [← Nat.ofDigitChars_ten_toDigits (n := c), hdigits, Nat.ofDigitChars_append,
      Nat.ofDigitChars_replicate_zero]
  have hexp : (ofScaled c s).exponent + 1 - (ofScaled c s).digits.length = s + zeros := by
    have : (Nat.toDigits 10 c).length = (ofScaled c s).digits.length + zeros := by
      rw [hdigits, List.length_append, List.length_replicate]
    have hexponent : (ofScaled c s).exponent = s + (Nat.toDigits 10 c).length - 1 := rfl
    omega
  have hc' : (c : ℚ) = 10 ^ zeros * (Nat.ofDigitChars 10 (ofScaled c s).digits 0 : ℕ) := by
    exact_mod_cast hc
  rw [hexp, zpow_add₀ (by norm_num), zpow_natCast]
  linear_combination -(10 : ℚ) ^ s * hc'

end Decimal

end HiveQuery
