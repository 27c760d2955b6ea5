import HiveQuery.Proofs.Grammar
import HiveQuery.Proofs.Rounding
/-!
# Literals are read back

The text of a literal is one token, with a minus before it if it is a negative number, and it is
read as the value of the literal. For an integer this is about its digits; for a floating-point
number the layouts, positional and scientific, write the digits of the shortest decimal at the place
that its exponent says, and that decimal is rounded to the number.
-/

namespace HiveQuery

/-! ## Numerals -/

/-- Digits, or a minus and digits. -/
def IsExponent (chars : List Char) : Prop :=
  ∃ digits, (chars = digits ∨ chars = '-' :: digits) ∧ ∀ c ∈ digits, c.isDigit

/-- A numeral that is not of an integer: digits, the digits after a point and those of an exponent,
where it has them. -/
structure Numeral where
  whole : List Char
  fraction : Option (List Char)
  exponent : Option (List Char)
  isDecimal : fraction.isSome ∨ exponent.isSome
  nonempty : whole ≠ []
  isDigit_whole : ∀ c ∈ whole, c.isDigit
  isDigit_fraction : ∀ cs ∈ fraction, ∀ c ∈ cs, c.isDigit
  isExponent : ∀ cs ∈ exponent, IsExponent cs

/-- What stands before and after the first separator. -/
private theorem split_at_first {separator : Char} {chars : List Char}
    (h : ∀ c ∈ chars, c ≠ separator) (rest : Option (List Char)) :
    (chars ++ rest.elim [] (separator :: ·)).takeWhile (· != separator) = chars ∧
      ((chars ++ rest.elim [] (separator :: ·)).dropWhile (· != separator)).drop 1 =
        rest.getD [] := by
  have hall : ∀ c ∈ chars, (c != separator) = true := fun c hc => bne_iff_ne.2 (h c hc)
  rw [List.takeWhile_append_of_pos hall, List.dropWhile_append_of_pos hall]
  cases rest <;> simp

private theorem ne_of_isDigit {c d : Char} (h : c.isDigit) (hd : d.isDigit = false) : c ≠ d := by
  rintro rfl
  rw [h] at hd
  cases hd

namespace Numeral

/-- The digits and the digits after a point. -/
def mantissa (n : Numeral) : List Char :=
  n.whole ++ n.fraction.elim [] ('.' :: ·)

def chars (n : Numeral) : List Char :=
  n.mantissa ++ n.exponent.elim [] ('e' :: ·)

def value (n : Numeral) : ℚ :=
  Nat.ofDigitChars 10 (n.whole ++ n.fraction.getD []) 0 *
    10 ^ (Constant.exponent (n.exponent.getD []) - (n.fraction.getD []).length)

/-- There is nothing but digits and a point before the exponent. -/
theorem mem_mantissa {n : Numeral} {c : Char} (h : c ∈ n.mantissa) : c.isDigit ∨ c = '.' := by
  rcases List.mem_append.1 h with hc | hc
  · exact .inl (n.isDigit_whole c hc)
  · cases hfraction : n.fraction with
    | none =>
      rw [hfraction] at hc
      cases hc
    | some cs =>
      rw [hfraction] at hc
      exact (List.mem_cons.1 hc).symm.imp_left (n.isDigit_fraction cs hfraction c)

theorem mem_chars {n : Numeral} {c : Char} (h : c ∈ n.chars) :
    c.isDigit ∨ c = '.' ∨ c = 'e' ∨ c = '-' := by
  rcases List.mem_append.1 h with hc | hc
  · exact (mem_mantissa hc).imp_right .inl
  · cases hexponent : n.exponent with
    | none =>
      rw [hexponent] at hc
      cases hc
    | some cs =>
      rw [hexponent] at hc
      obtain ⟨digits, hcs, hdigits⟩ := n.isExponent cs hexponent
      rcases List.mem_cons.1 hc with rfl | hc
      · exact .inr (.inr (.inl rfl))
      · rcases hcs with rfl | rfl
        · exact .inl (hdigits c hc)
        · rcases List.mem_cons.1 hc with rfl | hc
          · exact .inr (.inr (.inr rfl))
          · exact .inl (hdigits c hc)

/-- A numeral that is not of an integer shows it, by a point or by the letter of an exponent. -/
theorem point_or_letter_mem (n : Numeral) : '.' ∈ n.chars ∨ 'e' ∈ n.chars := by
  rcases n.isDecimal with h | h
  · obtain ⟨cs, hcs⟩ := Option.isSome_iff_exists.1 h
    exact .inl (by simp [chars, mantissa, hcs])
  · obtain ⟨cs, hcs⟩ := Option.isSome_iff_exists.1 h
    exact .inr (by simp [chars, hcs])

/-- The characters of a numeral are taken apart at the letter and at the point. -/
theorem ofNumeral_chars (n : Numeral) :
    Constant.ofNumeral (String.ofList n.chars) = .decimal (Constant.ofDecimal n.whole
      (n.fraction.getD []) (Constant.exponent (n.exponent.getD []))) := by
  have hdigits : n.chars.all Char.isDigit = false := by
    rw [List.all_eq_false]
    rcases n.point_or_letter_mem with h | h
    · exact ⟨'.', h, by decide⟩
    · exact ⟨'e', h, by decide⟩
  have hletter : ∀ c ∈ n.mantissa, c ≠ 'e' := by
    intro c hc
    rcases mem_mantissa hc with hdigit | rfl
    · exact ne_of_isDigit hdigit (by decide)
    · decide
  have hpoint : ∀ c ∈ n.whole, c ≠ '.' := fun c hc =>
    ne_of_isDigit (n.isDigit_whole c hc) (by decide)
  obtain ⟨hbefore, hafter⟩ := split_at_first hletter n.exponent
  obtain ⟨hbefore', hafter'⟩ := split_at_first hpoint n.fraction
  simp only [Constant.ofNumeral, String.toList_ofList, hdigits, Bool.false_eq_true, if_false]
  unfold chars
  rw [hbefore, hafter, mantissa, hbefore', hafter']

theorem chars_ne_nil (n : Numeral) : n.chars ≠ [] := by
  simp [chars, mantissa, n.nonempty]

/-- A numeral does not begin with a minus: that is a token of its own. -/
theorem head?_chars_ne_minus (n : Numeral) : n.chars.head? ≠ some '-' := by
  obtain ⟨c, cs, hcs⟩ := List.exists_cons_of_ne_nil n.nonempty
  have hdigit := n.isDigit_whole c (by simp [hcs])
  have : c ≠ '-' := ne_of_isDigit hdigit (by decide)
  simpa [chars, mantissa, hcs] using this

/-- The letter and the exponent go on with a numeral. -/
theorem passes_exponent (n : Numeral) (before : List Char) :
    (Pending.number before).Passes (n.exponent.elim [] ('e' :: ·)) []
      (.number (before ++ n.exponent.elim [] ('e' :: ·))) := by
  cases hexponent : n.exponent with
  | none => simpa using Pending.Passes.nil _
  | some cs =>
    have letter : (Pending.number before).take? 'e' = some (.number (before ++ ['e'])) := rfl
    obtain ⟨digits, hcs, hdigits⟩ := n.isExponent cs hexponent
    have part : ∀ c ∈ digits, (Token.isWordChar c || c == '.') = true := fun c hc => by
      simp [Token.isWordChar, Char.isAlphanum, hdigits c hc]
    rcases hcs with rfl | rfl
    · have rest := Pending.Passes.number part (before ++ ['e'])
      rw [List.append_assoc] at rest
      exact .cons letter rest
    · -- A minus belongs to the numeral because it stands right after the letter.
      have minus : (Pending.number (before ++ ['e'])).take? '-' =
          some (.number (before ++ ['e', '-'])) := by
        simp [Pending.take?]
      have rest := Pending.Passes.number part (before ++ ['e', '-'])
      rw [List.append_assoc] at rest
      exact .cons letter (.cons minus rest)

/-- A numeral is one token. -/
theorem spells_chars (n : Numeral) : Spells n.chars [.number (String.ofList n.chars)] := by
  refine ⟨[], .number n.chars, ?_, rfl, rfl⟩
  obtain ⟨d, ds, hds⟩ := List.exists_cons_of_ne_nil n.nonempty
  have hd := n.isDigit_whole d (by simp [hds])
  have first := Pending.Passes.begin d
  rw [Pending.start_of_isAlphanum (by simp [Char.isAlphanum, hd]), if_pos hd] at first
  have hmantissa : n.mantissa = d :: (ds ++ n.fraction.elim [] ('.' :: ·)) := by
    rw [mantissa, hds]
    rfl
  have rest : (Pending.number [d]).Passes (ds ++ n.fraction.elim [] ('.' :: ·)) []
      (.number n.mantissa) := by
    rw [hmantissa]
    refine .number (fun c hc => ?_) [d]
    have hmem : c ∈ n.mantissa := by
      rw [hmantissa]
      exact List.mem_cons_of_mem _ hc
    rcases mem_mantissa hmem with hdigit | rfl
    · simp [Token.isWordChar, Char.isAlphanum, hdigit]
    · decide
  have whole := (first.append rest).append (n.passes_exponent n.mantissa)
  rwa [List.singleton_append, ← hmantissa] at whole

end Numeral

/-! ## The layouts -/

theorem toList_pushn (text : String) (c : Char) (n : ℕ) :
    (text.pushn c n).toList = text.toList ++ List.replicate n c := by
  induction n with
  | zero => simp [String.pushn, Nat.repeat]
  | succ n ih =>
    rw [List.replicate_succ', ← List.append_assoc, ← ih]
    exact String.toList_push c

/-- An exponent without a minus is the number of its digits. -/
theorem Constant.exponent_of_isDigit {digits : List Char} (h : ∀ c ∈ digits, c.isDigit) :
    exponent digits = Nat.ofDigitChars 10 digits 0 := by
  unfold exponent
  split
  · exact absurd (h '-' List.mem_cons_self) (by decide)
  · rfl

/-- The text is a numeral of the value. -/
def Writes (text : String) (w : ℚ) : Prop :=
  ∃ n : Numeral, text.toList = n.chars ∧ n.value = w

namespace NumberLayout

variable {layout : NumberLayout} (plain : layout.exponentPlus = "")

include plain in
/-- The exponent of a decimal after its letter, where no plus is written. -/
theorem exists_exponent (e : ℤ) :
    ∃ power, IsExponent power ∧ Constant.exponent power = e ∧
      (if 0 ≤ e then "e" ++ layout.exponentPlus ++ e.toNat.repr
        else "e-" ++ (-e).toNat.repr).toList = 'e' :: power := by
  have hrepr (n : ℕ) : ∀ c ∈ Nat.toDigits 10 n, c.isDigit := fun c hc =>
    Nat.isDigit_of_mem_toDigits (by decide) (by decide) hc
  split_ifs with hexp
  · refine ⟨Nat.toDigits 10 e.toNat, ⟨_, .inl rfl, hrepr _⟩, ?_, ?_⟩
    · rw [Constant.exponent_of_isDigit (hrepr _), Nat.ofDigitChars_ten_toDigits]
      omega
    · simp [plain, Nat.toList_repr]
  · refine ⟨'-' :: Nat.toDigits 10 (-e).toNat, ⟨_, .inr rfl, hrepr _⟩, ?_, ?_⟩
    · rw [Constant.exponent, Nat.ofDigitChars_ten_toDigits]
      omega
    · simp [Nat.toList_repr]

variable {d : Decimal} (hne : d.digits ≠ []) (hdigits : ∀ c ∈ d.digits, c.isDigit)
include hne hdigits

/-- Written with a point, the digits of a decimal stand at the place that its exponent says, -/
theorem writes_positional :
    Writes (positional d)
      (Nat.ofDigitChars 10 d.digits 0 * 10 ^ (d.exponent + 1 - d.digits.length)) := by
  have hzero : ∀ n, ∀ c ∈ List.replicate n '0', c.isDigit := by
    intro n c hc
    rw [List.eq_of_mem_replicate hc]
    decide
  unfold positional
  simp only
  split_ifs with hexp hempty
  · -- The digits do not reach beyond the point, and zeros fill the places up to it.
    have hle : d.digits.length ≤ d.exponent.toNat + 1 :=
      List.drop_eq_nil_iff.1 (List.isEmpty_iff.1 hempty)
    obtain ⟨zeros, hzeros⟩ : ∃ zeros, d.exponent.toNat + 1 - d.digits.length = zeros := ⟨_, rfl⟩
    refine ⟨{ whole := d.digits ++ List.replicate zeros '0', fraction := some ['0'],
              exponent := none, isDecimal := .inl rfl, nonempty := by simp [hne],
              isDigit_whole := fun c hc => (List.mem_append.1 hc).elim (hdigits c) (hzero _ c),
              isDigit_fraction := by simp, isExponent := by simp }, ?_, ?_⟩
    · simp [Numeral.chars, Numeral.mantissa, toList_pushn, List.take_of_length_le hle, hzeros]
    · have hplaces : d.exponent + 1 - d.digits.length = zeros := by omega
      have hpoint : Constant.exponent [] - ['0'].length = -1 := by decide
      rw [Numeral.value, Option.getD_some, Option.getD_none, List.append_assoc,
        ← List.replicate_succ', Nat.ofDigitChars_append, Nat.ofDigitChars_replicate_zero, hplaces,
        hpoint, zpow_neg_one, zpow_natCast, Nat.cast_mul, Nat.cast_pow, Nat.cast_ofNat, pow_succ]
      ring
  · -- The point stands between two digits.
    have hlt : d.exponent.toNat + 1 < d.digits.length := by
      rw [List.isEmpty_iff, List.drop_eq_nil_iff] at hempty
      omega
    refine ⟨{ whole := d.digits.take (d.exponent.toNat + 1),
              fraction := some (d.digits.drop (d.exponent.toNat + 1)),
              exponent := none, isDecimal := .inl rfl, nonempty := by simp [hne],
              isDigit_whole := fun c hc => hdigits c (List.mem_of_mem_take hc),
              isDigit_fraction := by
                rintro _ ⟨⟩ c hc
                exact hdigits c (List.mem_of_mem_drop hc),
              isExponent := by simp }, ?_, ?_⟩
    · simp [Numeral.chars, Numeral.mantissa, toList_pushn, Nat.sub_eq_zero_of_le hlt.le]
    · have hplaces : d.exponent + 1 - d.digits.length =
          0 - (d.digits.drop (d.exponent.toNat + 1)).length := by
        rw [List.length_drop]
        omega
      rw [Numeral.value, Option.getD_some, Option.getD_none, List.take_append_drop, hplaces]
      rfl
  · -- Zeros stand between the point and the digits.
    obtain ⟨zeros, hzeros⟩ : ∃ zeros, (-d.exponent).toNat - 1 = zeros := ⟨_, rfl⟩
    refine ⟨{ whole := ['0'], fraction := some (List.replicate zeros '0' ++ d.digits),
              exponent := none, isDecimal := .inl rfl, nonempty := by simp,
              isDigit_whole := by simp,
              isDigit_fraction := by
                rintro _ ⟨⟩ c hc
                exact (List.mem_append.1 hc).elim (hzero _ c) (hdigits c),
              isExponent := by simp }, ?_, ?_⟩
    · simp [Numeral.chars, Numeral.mantissa, toList_pushn, hzeros]
    · have hplaces : d.exponent + 1 - d.digits.length =
          0 - (List.replicate zeros '0' ++ d.digits).length := by
        rw [List.length_append, List.length_replicate]
        omega
      rw [Numeral.value, Option.getD_some, Option.getD_none, hplaces, List.singleton_append,
        ← List.cons_append, ← List.replicate_succ, Nat.ofDigitChars_append,
        Nat.ofDigitChars_replicate_zero, mul_zero]
      rfl

include plain in
/-- and so do they with an exponent. -/
theorem writes_scientific :
    Writes (layout.scientific d)
      (Nat.ofDigitChars 10 d.digits 0 * 10 ^ (d.exponent + 1 - d.digits.length)) := by
  obtain ⟨c, cs, hcs⟩ := List.exists_cons_of_ne_nil hne
  obtain ⟨power, hpower, hvalue, htext⟩ := exists_exponent plain d.exponent
  rw [hcs, List.forall_mem_cons] at hdigits
  have hplaces : d.exponent + 1 - (c :: cs).length = d.exponent - cs.length := by
    rw [List.length_cons]
    omega
  have hwhole : ∀ c' ∈ [c], c'.isDigit := by simpa using hdigits.1
  have hexponent : ∀ chars ∈ some power, IsExponent chars := by
    rintro _ ⟨⟩
    exact hpower
  unfold scientific
  rw [hcs, hplaces]
  by_cases hempty : cs = []
  · subst hempty
    refine ⟨⟨[c], none, some power, .inr rfl, by simp, hwhole, by simp, hexponent⟩, ?_, ?_⟩
    · simp [Numeral.chars, Numeral.mantissa, htext]
    · rw [Numeral.value, Option.getD_none, Option.getD_some, hvalue]
      rfl
  · have hfraction : ∀ chars ∈ some cs, ∀ c ∈ chars, c.isDigit := by
      rintro _ ⟨⟩
      exact hdigits.2
    refine ⟨⟨[c], some cs, some power, .inr rfl, by simp, hwhole, hfraction, hexponent⟩, ?_, ?_⟩
    · simp [Numeral.chars, Numeral.mantissa, htext, hempty]
    · rw [Numeral.value, Option.getD_some, Option.getD_some, hvalue]
      rfl

end NumberLayout

/-! ## Numbers -/

namespace Binary64

/-- The number without its sign. -/
def abs (x : Binary64) : Binary64 :=
  ofMagnitude false (x.biasedExponent * hiddenBit + x.fraction)

/-- Without its sign bit, a float has a number below that bit. -/
theorem magnitude_lt (x : Binary64) : x.biasedExponent * hiddenBit + x.fraction < signBit := by
  have hfraction : x.fraction < hiddenBit := Nat.mod_lt _ (by decide)
  have hrange : x.biasedExponent < 2048 := Nat.mod_lt _ (by decide)
  unfold hiddenBit signBit at *
  omega

/-- A float is put together from its sign and its magnitude. -/
theorem ofMagnitude_negative (x : Binary64) :
    ofMagnitude x.negative (x.biasedExponent * hiddenBit + x.fraction) = x := by
  have hbits := x.bits.toNat_lt
  have hsplit : (if x.negative then signBit + (x.biasedExponent * hiddenBit + x.fraction)
      else x.biasedExponent * hiddenBit + x.fraction) = x.bits.toNat := by
    unfold negative biasedExponent fraction hiddenBit signBit
    split_ifs with h <;> simp only [decide_eq_true_eq] at h <;> omega
  rw [ofMagnitude, hsplit, UInt64.ofNat_toNat]

/-- A float that is not negative has no sign to lose. -/
theorem abs_of_not_negative {x : Binary64} (h : x.negative = false) : x.abs = x := by
  rw [abs, ← h, ofMagnitude_negative]

/-- A negative float is the opposite of the one without its sign. -/
theorem negate_abs {x : Binary64} (h : x.negative) : x.abs.negate = x := by
  have hlt := x.magnitude_lt
  have hbits : x.abs.bits.toNat = x.biasedExponent * hiddenBit + x.fraction := by
    simp only [abs, ofMagnitude, Bool.false_eq_true, if_false, UInt64.toNat_ofNat']
    unfold signBit at hlt
    omega
  have hpositive : x.abs.negative = false := by
    rw [negative, hbits]
    exact decide_eq_false (not_le.2 hlt)
  rw [negate, hpositive, hbits, Nat.mod_eq_of_lt hlt, Bool.not_false, ← h, ofMagnitude_negative]

end Binary64

/-- A numeral is one token, which does not begin with a minus. -/
theorem Writes.spells {text : String} {w : ℚ} (h : Writes text w) :
    Spells text.toList [.number text] ∧ text.toList ≠ [] ∧ text.toList.head? ≠ some '-' := by
  obtain ⟨n, htext, -⟩ := h
  have hspells := n.spells_chars
  rw [← htext, String.ofList_toList] at hspells
  rw [htext] at hspells ⊢
  exact ⟨hspells, n.chars_ne_nil, n.head?_chars_ne_minus⟩

/-- A numeral of a value near to a number is read as the number. -/
theorem Writes.ofNumeral_eq {text : String} {w : ℚ} (h : Writes text w) {x : Binary64}
    (hx : x.isFinite) (hm : x.significand ≠ 0) (hnear : x.Near w) :
    Constant.ofNumeral text = .decimal x.abs := by
  obtain ⟨n, htext, rfl⟩ := h
  have hread := n.ofNumeral_chars
  rw [← htext, String.ofList_toList] at hread
  rw [hread]
  congr 1
  unfold Numeral.value at hnear
  have hcoefficient : Nat.ofDigitChars 10 (n.whole ++ n.fraction.getD []) 0 ≠ 0 := by
    intro hzero
    have := hnear.pos hm
    rw [hzero] at this
    simp at this
  unfold Constant.ofDecimal
  rw [if_neg hcoefficient]
  refine Binary64.ofRatio_of_near hx (by positivity) (by positivity) ?_ false
  rw [← pow_toNat_div (by norm_num : (10 : ℚ) ≠ 0), ← mul_div_assoc] at hnear
  exact_mod_cast hnear

/-- The numeral of a finite number, after the sign. -/
theorem NumberLayout.exists_numeral {layout : NumberLayout} (plain : layout.exponentPlus = "")
    {x : Binary64} (hx : x.isFinite) :
    ∃ numeral w, layout.text x = (if x.negative then "-" else "") ++ numeral ∧
      Writes numeral w ∧ Constant.ofNumeral numeral = .decimal x.abs := by
  unfold text
  simp only
  generalize (if x.negative then "-" else "") = sign
  by_cases hzero : x.isZero
  · rw [if_pos hzero]
    have hwrites : Writes "0.0" 0 :=
      ⟨⟨['0'], some ['0'], none, .inl rfl, by simp, by simp, by simp, by simp⟩, rfl,
        by simp [Numeral.value, Nat.ofDigitChars]⟩
    refine ⟨_, 0, rfl, hwrites, ?_⟩
    have hparts : x.biasedExponent = 0 ∧ x.fraction = 0 := by simpa [Binary64.isZero] using hzero
    rw [Binary64.abs, hparts.1, hparts.2]
    decide
  · have hm : x.significand ≠ 0 := by
      have : x.biasedExponent = 0 → x.fraction ≠ 0 := by simpa [Binary64.isZero] using hzero
      unfold Binary64.significand
      split_ifs with h
      · exact this h
      · exact Nat.ne_of_gt (Nat.add_pos_left (by decide) _)
    obtain ⟨c, s, hshort, hnear⟩ := Binary64.exists_shortest hm layout.tie
    have hne : (Decimal.ofScaled c s).digits ≠ [] := by
      intro hnil
      have hvalue := Decimal.ofScaled_value c s
      rw [hnil, Nat.ofDigitChars_nil, Nat.cast_zero, zero_mul] at hvalue
      exact absurd (hnear.pos hm) (by rw [← hvalue]; exact lt_irrefl 0)
    have hdigits : ∀ c' ∈ (Decimal.ofScaled c s).digits, c'.isDigit := fun _ =>
      Decimal.isDigit_of_mem_ofScaled
    rw [if_neg hzero, hshort]
    split_ifs with hrange
    · have hwrites := writes_positional hne hdigits
      rw [Decimal.ofScaled_value] at hwrites
      exact ⟨_, _, rfl, hwrites, hwrites.ofNumeral_eq hx hm hnear⟩
    · have hwrites := writes_scientific plain hne hdigits
      rw [Decimal.ofScaled_value] at hwrites
      exact ⟨_, _, rfl, hwrites, hwrites.ofNumeral_eq hx hm hnear⟩

/-- The digits of a natural number are read as it. -/
theorem Constant.ofNumeral_repr (n : ℕ) : ofNumeral n.repr = integer n := by
  have hdigits : (Nat.toDigits 10 n).all Char.isDigit := List.all_eq_true.2 fun c hc =>
    Nat.isDigit_of_mem_toDigits (by decide) (by decide) hc
  simp [ofNumeral, Nat.toList_repr, hdigits]

/-! ## Literals -/

def Constant.ofLiteral : Literal → Constant
  | .null => null
  | .bool value => bool value
  | .int value => integer value.toInt
  | .float value => decimal value
  | .string value => string value

/-- A numeral with or without a minus. -/
theorem exists_phrase_signed {numeral : String} (negative : Bool)
    (h : Spells numeral.toList [.number numeral] ∧ numeral.toList ≠ [] ∧
      numeral.toList.head? ≠ some '-') :
    ∃ ts, Spells ((if negative then "-" else "") ++ numeral).toList ts ∧
      ((if negative then "-" else "") ++ numeral).toList ≠ [] ∧
      (∀ t ∈ ts, t ≠ .opening ∧ t ≠ .closing) ∧
      Phrase 7 ts (if negative then (Reading.constant (.ofNumeral numeral)).negate
        else .constant (.ofNumeral numeral)) := by
  obtain ⟨hspells, hne, hhead⟩ := h
  have hatom : Phrase 7 [.number numeral] (.constant (.ofNumeral numeral)) :=
    (Phrase.atom rfl).looser
  cases negative with
  | false => exact ⟨_, by simpa using hspells, by simpa using hne, by simp, hatom⟩
  | true => exact ⟨_, by simpa using hspells.minus hne hhead, by simp, by simp, hatom.minus⟩

/-- The digits of a natural number are one token. -/
theorem spells_repr_unsigned (n : ℕ) : Spells n.repr.toList [.number n.repr] ∧
    n.repr.toList ≠ [] ∧ n.repr.toList.head? ≠ some '-' := by
  refine ⟨spells_repr n, by simp, fun hhead => ?_⟩
  have hmem : '-' ∈ Nat.toDigits 10 n := by
    rw [← Nat.toList_repr]
    exact List.mem_of_mem_head? hhead
  exact absurd (Nat.isDigit_of_mem_toDigits (by decide) (by decide) hmem) (by decide)

/-- **A literal is read back.** -/
theorem Literal.exists_phrase {value : Literal} {text : String} (h : value.render = .ok text) :
    ∃ ts, Spells text.toList ts ∧ text.toList ≠ [] ∧ (∀ t ∈ ts, t ≠ .opening ∧ t ≠ .closing) ∧
      Phrase 7 ts (.constant (.ofLiteral value)) := by
  cases value with
  | null =>
    obtain rfl := Except.ok.inj h
    exact ⟨[.word "NULL"], .of_scan (by decide), by decide, by simp, (Phrase.atom rfl).looser⟩
  | bool value =>
    cases value with
    | false =>
      obtain rfl := Except.ok.inj h
      exact ⟨[.word "FALSE"], .of_scan (by decide), by decide, by simp, (Phrase.atom rfl).looser⟩
    | true =>
      obtain rfl := Except.ok.inj h
      exact ⟨[.word "TRUE"], .of_scan (by decide), by decide, by simp, (Phrase.atom rfl).looser⟩
  | int value =>
    obtain rfl := Except.ok.inj h
    show ∃ ts, Spells value.toInt.repr.toList ts ∧ _ ∧ _ ∧
      Phrase 7 ts (.constant (.integer value.toInt))
    cases value.toInt with
    | ofNat n =>
      have hphrase := exists_phrase_signed false (spells_repr_unsigned n)
      simp only [Constant.ofNumeral_repr, Bool.false_eq_true, if_false, String.empty_append]
        at hphrase
      exact hphrase
    | negSucc n =>
      have hphrase := exists_phrase_signed true (spells_repr_unsigned (n + 1))
      rw [Constant.ofNumeral_repr] at hphrase
      exact hphrase
  | float value =>
    rw [Literal.render] at h
    split_ifs at h with hfinite
    obtain rfl := Except.ok.inj h
    have plain : QueryText.numberLayout.exponentPlus = "" := rfl
    obtain ⟨numeral, w, htext, hwrites, hread⟩ := NumberLayout.exists_numeral plain hfinite
    have hphrase := exists_phrase_signed value.negative hwrites.spells
    rw [hread, ← htext] at hphrase
    cases hsign : value.negative with
    | false => rwa [hsign, Binary64.abs_of_not_negative hsign] at hphrase
    | true =>
      rw [hsign, if_pos rfl, Reading.negate, Binary64.negate_abs hsign] at hphrase
      exact hphrase
  | string value =>
    obtain rfl := Except.ok.inj h
    refine ⟨[.string value], spells_quoteString value, ?_, by simp, (Phrase.atom rfl).looser⟩
    simp [Text.quoteString]

end HiveQuery
