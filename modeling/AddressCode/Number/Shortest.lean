import AddressCode.Number.Rounding

/-!
# AddressCode.Number.Shortest — the fewest digits that read back

Every finite number has a decimal with the fewest digits among those whose nearest number it is;
of several such decimals the one nearest to the number is taken, and the even one of two equally
near.  At most seventeen digits are needed; the exact expansion stands behind them, so that the
search always ends with a decimal that reads back.
-/

namespace AddressCode

/-- The decimal `significand * 10 ^ exponent`. -/
structure Decimal where
  significand : Nat
  exponent : Int
deriving Repr, DecidableEq

namespace Decimal

/-- The number nearest to a decimal. -/
def toNumber (d : Decimal) : Number := Number.ofDecimal d.significand d.exponent

/-- The decimal digits of the significand. -/
def digits (d : Decimal) : List Char := Nat.toDigits 10 d.significand

/-- The exponent of the first digit. -/
def leading (d : Decimal) : Int := d.exponent + d.digits.length - 1

/-- Move up to `k` zeros from the end of a significand into the exponent. -/
def stripZeros : Nat → Nat → Int → Decimal
  | 0, m, e => ⟨m, e⟩
  | k + 1, m, e => if m % 10 == 0 then stripZeros k (m / 10) (e + 1) else ⟨m, e⟩

end Decimal

namespace Number

/-- The greatest `e` with `10 ^ e ≤ n / d`, for positive `n` and `d`.  One binary digit is worth
0.30103 decimal ones, so the estimate is right or one too small. -/
def floorLog10 (n d : Nat) : Int :=
  let e := (floorLog2 n d * 30103).fdiv 100000
  let e' := e + 1
  if d * Nat.pow 10 e'.toNat ≤ n * Nat.pow 10 (-e').toNat then e' else e

/-- The decimal with last place `10 ^ e` that reads back as `x` and is nearest to it, if one of the
two neighbours of `x` does. -/
def neighbour? (x : Number) (e : Int) : Option Decimal :=
  let n := x.ratio.1 * Nat.pow 10 (-e).toNat
  let d := x.ratio.2 * Nat.pow 10 e.toNat
  let lo : Decimal := ⟨n / d, e⟩
  let hi : Decimal := ⟨n / d + 1, e⟩
  match decide (lo.toNumber = x), decide (hi.toNumber = x) with
  | true, true => some ⟨roundDiv n d, e⟩
  | true, false => some lo
  | false, true => some hi
  | false, false => none

/-- The first decimal that reads back among those with `k`, `k - 1`, … places still to try, the
next one being `10 ^ e`; at last the exact expansion. -/
def searchPlaces (x : Number) : Nat → Int → Decimal
  | 0, _ =>
    ⟨x.significand * Nat.pow 2 x.exponent.toNat * Nat.pow 5 (-x.exponent).toNat, min x.exponent 0⟩
  | k + 1, e =>
    match x.neighbour? e with
    | some d => d
    | none => searchPlaces x k (e - 1)

/-- The shortest decimal of a positive finite number. -/
def shortest (x : Number) : Decimal :=
  let d := searchPlaces x 17 (floorLog10 x.ratio.1 x.ratio.2)
  Decimal.stripZeros 400 d.significand d.exponent

end Number

end AddressCode
