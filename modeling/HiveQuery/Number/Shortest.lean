import HiveQuery.Number.Binary64
/-!
# Shortest decimals

The decimal text of a binary64 number takes the fewest digits that are read back as the same number
and, of these, the nearest to it. Which exponents are written positionally, how an exponent is
written and where an exact tie goes are decisions of the text that holds the number: they are the
fields of `NumberLayout`.
-/

namespace HiveQuery

/-- Where a decimal goes that lies half way between two neighbours. -/
inductive Tie where
  | toEven
  | up
  deriving DecidableEq

/-- The number `d₀.d₁d₂… * 10 ^ exponent`, its digits being `d₀, d₁, d₂, …`. -/
structure Decimal where
  digits : List Char
  exponent : Int
  deriving DecidableEq

namespace Decimal

/-- The greatest `x` with `10 ^ x ≤ num / den`. -/
def leadingExponent (num den : Nat) : Int :=
  if den ≤ num then ((Nat.toDigits 10 (num / den)).length : Int) - 1
  else -((Nat.toDigits 10 ((den - 1) / num)).length : Int)

/-- `coefficient * 10 ^ scale`, with the zeros at the end of the coefficient dropped. -/
def ofScaled (coefficient : Nat) (scale : Int) : Decimal :=
  let digits := Nat.toDigits 10 coefficient
  { digits := (digits.reverse.dropWhile (· == '0')).reverse
    exponent := scale + digits.length - 1 }

end Decimal

namespace Binary64

/-- The decimal of the given digit count that is read back as `x`, if there is one.

The grid of that count has the step `10 ^ scale`, and `num / den` is the magnitude of `x` counted in
steps. With the significand `m`, the next greater number is `1 / m` of the magnitude away and the
next smaller one as far, or half as far below a power of two; what lies nearer to `x` than half of
that distance is read back as `x`, and so is the half itself if `m` is even. -/
def decimalOfLength? (x : Binary64) (tie : Tie) (leading : Int) (count : Nat) : Option Decimal :=
  let m := x.significand
  let scale := leading - count + 1
  let num := (m <<< x.exponent.toNat) * Nat.pow 10 (-scale).toNat
  let den := (1 <<< (-x.exponent).toNat) * Nat.pow 10 scale.toNat
  let below := num / den
  let rest := num % den
  let within (distance factor : Nat) : Bool :=
    distance * factor < num || (m % 2 == 0 && distance * factor == num)
  let narrow := m == hiddenBit && 1 < x.biasedExponent
  let down := within (rest * m) (if narrow then 4 else 2)
  let up := within ((den - rest) * m) 2
  let upNearer :=
    den < 2 * rest || (2 * rest == den && (tie == .up || below % 2 == 1))
  if down && (!up || !upNearer) then some (.ofScaled below scale)
  else if up then some (.ofScaled (below + 1) scale)
  else none

/-- The shortest decimal of a finite number other than zero, its sign apart. Seventeen digits always
tell a number from its neighbours. -/
def shortest (x : Binary64) (tie : Tie) : Decimal :=
  let leading :=
    Decimal.leadingExponent (x.significand <<< x.exponent.toNat) (1 <<< (-x.exponent).toNat)
  ((List.range 17).findSome? fun n => x.decimalOfLength? tie leading (n + 1)).getD
    (.ofScaled 0 0)

end Binary64

/-- How a text writes its numbers. -/
structure NumberLayout where
  /-- The least and the greatest leading exponent that are written positionally. -/
  positionalFrom : Int
  positionalTo : Int
  /-- What stands before an exponent that is not negative. -/
  exponentPlus : String
  tie : Tie

namespace NumberLayout

/-- Positional notation, with at least one digit on either side of the point. -/
def positional (d : Decimal) : String :=
  if 0 ≤ d.exponent then
    let whole := d.exponent.toNat + 1
    let fraction := d.digits.drop whole
    String.ofList (d.digits.take whole) ++ "".pushn '0' (whole - d.digits.length) ++ "."
      ++ (if fraction.isEmpty then "0" else String.ofList fraction)
  else
    "0." ++ "".pushn '0' ((-d.exponent).toNat - 1) ++ String.ofList d.digits

/-- One digit, a point if there are more, and the exponent. -/
def scientific (layout : NumberLayout) (d : Decimal) : String :=
  let fraction := d.digits.drop 1
  String.ofList (d.digits.take 1)
    ++ (if fraction.isEmpty then "" else "." ++ String.ofList fraction)
    ++ (if 0 ≤ d.exponent then "e" ++ layout.exponentPlus ++ d.exponent.toNat.repr
        else "e-" ++ (-d.exponent).toNat.repr)

/-- The text of a finite number. -/
def text (layout : NumberLayout) (x : Binary64) : String :=
  let sign := if x.negative then "-" else ""
  if x.isZero then sign ++ "0.0"
  else
    let d := x.shortest layout.tie
    if layout.positionalFrom ≤ d.exponent && d.exponent ≤ layout.positionalTo then
      sign ++ positional d
    else sign ++ layout.scientific d

end NumberLayout

end HiveQuery
