import AddressCode.Number.Rounding

/-!
# AddressCode.Cli.Duration — spans of time

A duration is a number of nanoseconds of 64 bits.  It is written as a sequence of decimals with
units, such as `1h30m` or `1.5s`, and shown with the units that suit its size.
-/

namespace AddressCode

/-- A span of time, in nanoseconds. -/
structure Duration where
  nanoseconds : Int
deriving Repr, DecidableEq, Inhabited

namespace Duration

/-- The nanoseconds of a unit. -/
def unit? : String → Option Nat
  | "ns" => some 1
  | "us" | "µs" | "μs" => some 1000
  | "ms" => some 1000000
  | "s" => some 1000000000
  | "m" => some 60000000000
  | "h" => some 3600000000000
  | _ => none

/-! ## Reading -/

/-- The value of a digit. -/
def digitValue (c : Char) : Nat := c.toNat - '0'.toNat

/-- The natural of some digits, unless it passes `2 ^ 63`. -/
def whole? (digits : List Char) : Option Nat :=
  let n := digits.foldl (fun n c => n * 10 + digitValue c) 0
  if n ≤ Nat.pow 2 63 then some n else none

/-- The digits behind a point as a natural, and the power of ten they count in.  Digits that would
pass 63 bits no longer count. -/
def fraction (digits : List Char) : Nat × Nat :=
  (digits.foldl
    (fun ((f, scale, full) : Nat × Nat × Bool) c =>
      let next := f * 10 + digitValue c
      if full || (Nat.pow 2 63 - 1) / 10 < f || Nat.pow 2 63 < next then (f, scale, true)
      else (next, scale * 10, false))
    (0, 1, false)) |> fun (f, scale, _) => (f, scale)

/-- The whole nanoseconds of `f / scale` units.  The factor and the product are rounded as
numbers. -/
def fractionPart (f scale unit : Nat) : Nat :=
  let x := (Number.nearest f 1).mul ((Number.nearest unit 1).div (Number.nearest scale 1))
  x.ratio.1 / x.ratio.2

/-- Is `c` part of a decimal? -/
def isDecimal (c : Char) : Bool := c.isDigit || c == '.'

/-- The nanoseconds of a decimal with its unit at the front of a text, and what follows. -/
def term? (cs : List Char) : Option (Nat × List Char) := do
  let digits := cs.takeWhile Char.isDigit
  let rest := cs.dropWhile Char.isDigit
  let v ← whole? digits
  let (places, rest) :=
    match rest with
    | '.' :: rest => (rest.takeWhile Char.isDigit, rest.dropWhile Char.isDigit)
    | rest => ([], rest)
  if digits.isEmpty && places.isEmpty then none
  let unit ← unit? (String.ofList (rest.takeWhile fun c => !isDecimal c))
  let (f, scale) := fraction places
  let n := v * unit + (if f = 0 then 0 else fractionPart f scale unit)
  if Nat.pow 2 63 < n then none
  return (n, rest.dropWhile fun c => !isDecimal c)

/-- The sum of the decimals of a text, of which there are at most `k`. -/
def terms? : Nat → Nat → List Char → Option Nat
  | _, sum, [] => some sum
  | 0, _, _ => none
  | k + 1, sum, cs =>
    match term? cs with
    | none => none
    | some (n, rest) => if Nat.pow 2 63 < sum + n then none else terms? k (sum + n) rest

/-- The duration of a text. -/
def parse? (s : String) : Option Duration :=
  let (negative, cs) :=
    match s.toList with
    | '-' :: cs => (true, cs)
    | '+' :: cs => (false, cs)
    | cs => (false, cs)
  if cs == ['0'] then some ⟨0⟩
  else if cs.isEmpty then none
  else match terms? cs.length 0 cs with
    | none => none
    | some n =>
      if negative then some ⟨-(n : Int)⟩
      else if n < Nat.pow 2 63 then some ⟨n⟩
      else none

/-! ## Text -/

/-- A number of `places` decimal places, without zeros at the end. -/
def decimal (n places : Nat) : String :=
  let whole := n / Nat.pow 10 places
  let digits := Nat.toDigits 10 (n % Nat.pow 10 places)
  let padded := List.replicate (places - digits.length) '0' ++ digits
  let kept := (padded.reverse.dropWhile (· == '0')).reverse
  toString whole ++ (if kept.isEmpty then "" else "." ++ String.ofList kept)

/-- The text of a positive number of nanoseconds. -/
def magnitudeText (n : Nat) : String :=
  if n = 0 then "0s"
  else if n < 1000 then toString n ++ "ns"
  else if n < 1000000 then decimal n 3 ++ "µs"
  else if n < 1000000000 then decimal n 6 ++ "ms"
  else
    let minutes := n / 60000000000
    let seconds := decimal (n % 60000000000) 9 ++ "s"
    if minutes = 0 then seconds
    else if minutes < 60 then toString minutes ++ "m" ++ seconds
    else toString (minutes / 60) ++ "h" ++ toString (minutes % 60) ++ "m" ++ seconds

/-- The text of a duration. -/
def text (d : Duration) : String :=
  (if d.nanoseconds < 0 then "-" else "") ++ magnitudeText d.nanoseconds.natAbs

end Duration

end AddressCode
