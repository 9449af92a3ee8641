import AddressCode.Number.Basic

/-!
# AddressCode.Number.Rounding — the nearest number

The number nearest to a fraction of two naturals.  Of two equally near ones the one with the even
significand is taken, and what lies beyond the greatest finite number becomes infinity.
-/

namespace AddressCode

/-- The natural nearest to `n / d`, the even one of two. -/
def roundDiv (n d : Nat) : Nat :=
  let q := n / d
  let r := n % d
  if 2 * r < d then q
  else if d < 2 * r then q + 1
  else if q % 2 == 0 then q else q + 1

namespace Number

/-- The greatest `e` with `2 ^ e ≤ n / d`, for positive `n` and `d`. -/
def floorLog2 (n d : Nat) : Int :=
  let e : Int := (n.log2 : Int) - (d.log2 : Int)
  if d * Nat.pow 2 e.toNat ≤ n * Nat.pow 2 (-e).toNat then e else e - 1

/-- The number nearest to `n / d`.  The last place of the result is worth `2 ^ q`; the bits of a
positive number are its significand plus `2 ^ 52` for each step of the exponent, also when
rounding carries the significand to the next power of two. -/
def nearest (n d : Nat) : Number :=
  if n == 0 || d == 0 then zero
  else
    let q : Int := max (floorLog2 n d - 52) (-1074)
    let m := roundDiv (n * Nat.pow 2 (-q).toNat) (d * Nat.pow 2 q.toNat)
    let bits := (q + 1074).toNat * Nat.pow 2 52 + m
    if infinity.magnitude ≤ bits then infinity else ⟨bits.toUInt64⟩

/-- The number nearest to `m * 10 ^ e`.  Exponents far outside the range of numbers are settled
without computing the power. -/
def ofDecimal (m : Nat) (e : Int) : Number :=
  if m == 0 then zero
  else
    let top : Int := (Nat.toDigits 10 m).length + e
    if 400 < top then infinity
    else if top < -400 then zero
    else nearest (m * Nat.pow 10 e.toNat) (Nat.pow 10 (-e).toNat)

/-- The number nearest to `m * 2 ^ e`. -/
def ofBinary (m : Nat) (e : Int) : Number :=
  if m == 0 then zero
  else
    let top : Int := m.log2 + e
    if 1100 < top then infinity
    else if top < -1200 then zero
    else nearest (m * Nat.pow 2 e.toNat) (Nat.pow 2 (-e).toNat)

end Number

end AddressCode
