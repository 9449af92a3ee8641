/-!
# AddressCode.Number.Basic — numbers

A number is a binary floating point number of 64 bits, held as its bits: one bit for the sign,
eleven for the exponent and fifty-two for the fraction.  Numbers are compared through `key`, an
integer that grows with the number and does not see the sign of zero, so that order and equality
are plain facts about integers.  Sums, differences, products and quotients are rounded to
nearest; there is one value that is not a number.
-/

namespace AddressCode

/-- A floating point number of 64 bits. -/
structure Number where
  bits : UInt64
deriving Repr, DecidableEq, Inhabited

namespace Number

/-- The number that is none. -/
def nan : Number := ⟨0x7FF8000000000000⟩

/-- Positive infinity. -/
def infinity : Number := ⟨0x7FF0000000000000⟩

/-- Zero, without a sign. -/
def zero : Number := ⟨0⟩

/-- One. -/
def one : Number := ⟨0x3FF0000000000000⟩

/-- The bits without the sign. -/
def magnitude (x : Number) : Nat := x.bits.toNat % Nat.pow 2 63

/-- Is the sign bit set? -/
def isNegative (x : Number) : Bool := Nat.pow 2 63 ≤ x.bits.toNat

/-- Is this no number?  All exponent bits are set, and the fraction is not zero. -/
def isNaN (x : Number) : Bool := infinity.magnitude < x.magnitude

/-- Is this an infinity, of either sign? -/
def isInfinite (x : Number) : Bool := x.magnitude == infinity.magnitude

/-- Is this a zero, of either sign? -/
def isZero (x : Number) : Bool := x.magnitude == 0

/-- The number with the other sign. -/
def neg (x : Number) : Number := if x.isNaN then nan else ⟨x.bits ^^^ 0x8000000000000000⟩

/-- The number with the sign of `s`. -/
def withSignOf (x s : Number) : Number := if x.isNegative == s.isNegative then x else x.neg

/-! ## Order -/

/-- An integer that grows with the number; both zeros have key zero. -/
def key (x : Number) : Int := if x.isNegative then -(x.magnitude : Int) else x.magnitude

/-- Are both numbers, and is the first one less? -/
def lt (x y : Number) : Bool := !x.isNaN && !y.isNaN && x.key < y.key

/-- Are both numbers, and equal? -/
def eq (x y : Number) : Bool := !x.isNaN && !y.isNaN && x.key == y.key

/-- Are both numbers, and is the first one less or equal? -/
def le (x y : Number) : Bool := !x.isNaN && !y.isNaN && x.key ≤ y.key

/-- The order of numbers.  What is no number is not told apart from any number. -/
instance : Ord Number where
  compare x y := if x.lt y then .lt else if y.lt x then .gt else .eq

/-! ## Arithmetic -/

/-- The hardware's view of the number. -/
def toFloat (x : Number) : Float := Float.ofBits x.bits

/-- The number of the hardware's view. -/
def ofFloat (x : Float) : Number := ⟨x.toBits⟩

/-- The sum, rounded to nearest. -/
def add (x y : Number) : Number := ofFloat (x.toFloat + y.toFloat)

/-- The difference, rounded to nearest. -/
def sub (x y : Number) : Number := ofFloat (x.toFloat - y.toFloat)

/-- The product, rounded to nearest. -/
def mul (x y : Number) : Number := ofFloat (x.toFloat * y.toFloat)

/-- The quotient, rounded to nearest. -/
def div (x y : Number) : Number := ofFloat (x.toFloat / y.toFloat)

/-! ## Exact value -/

/-- The significand of a finite number: its magnitude is `significand * 2 ^ exponent`. -/
def significand (x : Number) : Nat :=
  if x.magnitude < Nat.pow 2 52 then x.magnitude else Nat.pow 2 52 + x.magnitude % Nat.pow 2 52

/-- The binary exponent of a finite number, see `significand`. -/
def exponent (x : Number) : Int :=
  if x.magnitude < Nat.pow 2 52 then -1074 else (x.magnitude / Nat.pow 2 52 : Nat) - 1075

/-- The magnitude of a finite number as a numerator over a denominator. -/
def ratio (x : Number) : Nat × Nat :=
  (x.significand * Nat.pow 2 x.exponent.toNat, Nat.pow 2 (-x.exponent).toNat)

end Number

end AddressCode
