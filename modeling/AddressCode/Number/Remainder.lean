import AddressCode.Number.Rounding

/-!
# AddressCode.Number.Remainder — the remainder of a division

`x.rem y` is `x` less the multiple of `y` next to it in the direction of zero.  It is computed
exactly, on naturals, and has the sign of `x`.
-/

namespace AddressCode.Number

/-- The remainder of `x` divided by `y`, with the sign of `x`. -/
def rem (x y : Number) : Number :=
  if x.isNaN || y.isNaN || x.isInfinite || y.isZero then nan
  else if y.isInfinite then x
  else
    let q := min x.exponent y.exponent
    let a := x.significand * Nat.pow 2 (x.exponent - q).toNat
    let b := y.significand * Nat.pow 2 (y.exponent - q).toNat
    (ofBinary (a % b) q).withSignOf x

end AddressCode.Number
