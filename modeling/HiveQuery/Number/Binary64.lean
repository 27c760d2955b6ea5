/-!
# Binary64 numbers

A floating-point literal is a 64-bit word in the binary64 interchange format: a sign bit, eleven
bits of biased exponent and fifty-two bits of fraction. Everything here is exact arithmetic on
natural numbers, so every fact about a literal can be computed. The file defines the parts of a
word, the comparison that a query uses, and the rounding of a decimal to its nearest word.
-/

namespace HiveQuery

/-- A number in the binary64 interchange format, given by its word. -/
structure Binary64 where
  bits : UInt64
  deriving DecidableEq

namespace Binary64

/-! ## The parts of a word -/

/-- The weight of the sign bit, two to the power sixty-three. -/
def signBit : Nat := 0x8000000000000000

/-- The weight of the bit that a normal number's significand adds to its fraction, two to the power
fifty-two. The biased exponent counts this weight. -/
def hiddenBit : Nat := 0x10000000000000

/-- The sign bit. -/
def negative (x : Binary64) : Bool :=
  signBit ≤ x.bits.toNat

/-- The biased exponent. -/
def biasedExponent (x : Binary64) : Nat :=
  x.bits.toNat / hiddenBit % 2048

/-- The fraction bits. -/
def fraction (x : Binary64) : Nat :=
  x.bits.toNat % hiddenBit

/-- Neither an infinity nor a NaN. -/
def isFinite (x : Binary64) : Bool :=
  x.biasedExponent != 2047

def isNaN (x : Binary64) : Bool :=
  x.biasedExponent == 2047 && x.fraction != 0

/-- A zero of either sign. -/
def isZero (x : Binary64) : Bool :=
  x.biasedExponent == 0 && x.fraction == 0

/-- The integer `m` such that a finite number has the magnitude `m * 2 ^ exponent`. -/
def significand (x : Binary64) : Nat :=
  if x.biasedExponent = 0 then x.fraction else hiddenBit + x.fraction

/-- The power of two that a finite number's significand counts. -/
def exponent (x : Binary64) : Int :=
  (max x.biasedExponent 1 : Nat) - 1075

/-- The word of a sign and a magnitude. -/
def ofMagnitude (negative : Bool) (magnitude : Nat) : Binary64 :=
  ⟨UInt64.ofNat (if negative then signBit + magnitude else magnitude)⟩

def zero (negative : Bool) : Binary64 :=
  ofMagnitude negative 0

def infinity (negative : Bool) : Binary64 :=
  ofMagnitude negative (2047 * hiddenBit)

def nan : Binary64 :=
  ofMagnitude false (2047 * hiddenBit + hiddenBit / 2)

/-- Two numbers are equal when they have the same value: a NaN equals nothing, and the two zeros
equal each other. -/
instance : BEq Binary64 where
  beq x y := !x.isNaN && !y.isNaN && (x.bits == y.bits || (x.isZero && y.isZero))

/-- A number equals itself unless it is a NaN. -/
theorem beq_self (x : Binary64) : (x == x) = !x.isNaN := by
  show (!x.isNaN && !x.isNaN && (x.bits == x.bits || (x.isZero && x.isZero))) = _
  cases x.isNaN <;> simp

/-! ## Rounding -/

/-- The quotient rounded to the nearest integer, a half to the even one. -/
def roundDiv (num den : Nat) : Nat :=
  let quotient := num / den
  let twice := 2 * (num % den)
  if den < twice || (twice == den && quotient % 2 == 1) then quotient + 1 else quotient

/-- The greatest `e` with `2 ^ e ≤ num / den`. -/
def binaryExponent (num den : Nat) : Int :=
  let estimate : Int := (Nat.log2 num : Int) - Nat.log2 den
  let reached :=
    if 0 ≤ estimate then den <<< estimate.toNat ≤ num else den ≤ num <<< (-estimate).toNat
  if reached then estimate else estimate - 1

/-- The number nearest to the positive fraction `num / den`; of two at the same distance, the one
with an even significand. What lies beyond the finite numbers becomes an infinity. -/
def ofRatio (negative : Bool) (num den : Nat) : Binary64 :=
  let unit := max (binaryExponent num den - 52) (-1074)
  let significand :=
    if 0 ≤ unit then roundDiv num (den <<< unit.toNat)
    else roundDiv (num <<< (-unit).toNat) den
  -- A significand of fifty-three bits carries into the exponent by itself.
  ofMagnitude negative (min ((unit + 1074).toNat * hiddenBit + significand) (2047 * hiddenBit))

/-- The number nearest to a natural number, with a sign. -/
def ofNat (negative : Bool) (n : Nat) : Binary64 :=
  if n = 0 then zero negative else ofRatio negative n 1

/-- The number nearest to an integer. -/
def ofInt (n : Int) : Binary64 :=
  ofNat (n < 0) n.natAbs

/-! ## Arithmetic -/

/-- The magnitude of a finite number is `numerator / denominator`. -/
def numerator (x : Binary64) : Nat :=
  x.significand <<< x.exponent.toNat

/-- The magnitude of a finite number is `numerator / denominator`. -/
def denominator (x : Binary64) : Nat :=
  1 <<< (-x.exponent).toNat

/-- The number nearest to the product of two finite numbers. -/
def mul (x y : Binary64) : Binary64 :=
  let negative := x.negative != y.negative
  if x.isZero || y.isZero then zero negative
  else ofRatio negative (x.numerator * y.numerator) (x.denominator * y.denominator)

/-- The number nearest to the quotient of two finite numbers, the second of which is not zero. -/
def div (x y : Binary64) : Binary64 :=
  let negative := x.negative != y.negative
  if x.isZero then zero negative
  else ofRatio negative (x.numerator * y.denominator) (x.denominator * y.numerator)

/-- The number nearest to a power of ten. -/
def tenTo (n : Nat) : Binary64 :=
  ofNat false (Nat.pow 10 n)

end Binary64

end HiveQuery
