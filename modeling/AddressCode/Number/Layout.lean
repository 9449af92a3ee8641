import AddressCode.Number.Shortest

/-!
# AddressCode.Number.Layout — the text of a number

The digits are those of the shortest decimal.  A layout says which numbers are written with all
their places; the others have one digit in front of the point and a power of ten of at least two
digits behind the letter `e`.
-/

namespace AddressCode

/-- Which decimals are written positionally: those whose first digit is worth at least
`10 ^ least` and less than `10 ^ bound`. -/
structure Layout where
  least : Int
  bound : Int

namespace Layout

/-- Printed values: positional from one millionth up to twenty-one places in front of the
point. -/
def value : Layout := ⟨-6, 21⟩

/-- Constants of an instruction that carry no text of their own: positional from four places behind
the point up to six in front of it. -/
def constant : Layout := ⟨-4, 6⟩

/-- Digits with all places written. -/
def positional (d : Decimal) : List Char :=
  let digits := d.digits
  if 0 ≤ d.exponent then digits ++ List.replicate d.exponent.toNat '0'
  else
    let places := (-d.exponent).toNat
    let padded := List.replicate (places + 1 - digits.length) '0' ++ digits
    padded.take (padded.length - places) ++ '.' :: padded.drop (padded.length - places)

/-- Digits with a power of ten. -/
def scientific (d : Decimal) : List Char :=
  let e := d.leading
  let power := Nat.toDigits 10 e.natAbs
  let mantissa :=
    match d.digits with
    | [] => []
    | [c] => [c]
    | c :: cs => c :: '.' :: cs
  mantissa ++ 'e' :: (if e < 0 then '-' else '+') ::
    (List.replicate (2 - power.length) '0' ++ power)

/-- The text of a decimal. -/
def write (l : Layout) (d : Decimal) : List Char :=
  if l.least ≤ d.leading && d.leading < l.bound then positional d else scientific d

/-- The text of a number. -/
def format (l : Layout) (x : Number) : String :=
  if x.isNaN then "NaN"
  else if x.isInfinite then (if x.isNegative then "-Inf" else "+Inf")
  else
    let magnitude : List Char := if x.isZero then ['0'] else l.write (x.withSignOf .zero).shortest
    String.ofList (if x.isNegative then '-' :: magnitude else magnitude)

end Layout

/-- The text of a number as a value. -/
def Number.text (x : Number) : String := Layout.value.format x

end AddressCode
