import AddressCode.Number.Rounding

/-!
# AddressCode.Number.Reading — numbers read from text

`Number.parse` reads a decimal or hexadecimal numeral, or one of the words for infinity and for
what is no number.  A single underscore may stand between two digits, or between the mark of a
hexadecimal numeral and its first digit.  A numeral too large for a number is refused for its
range, a numeral too small reads as zero.
-/

namespace AddressCode

/-- Why a text is no number. -/
inductive ReadError where
  | malformed
  | outOfRange
deriving Repr, DecidableEq

namespace Reading

/-- The value of a hexadecimal digit of either case. -/
def hexValue? (c : Char) : Option Nat :=
  if c.isDigit then some (c.toNat - '0'.toNat)
  else if 'a' ≤ c && c ≤ 'f' then some (c.toNat - 'a'.toNat + 10)
  else if 'A' ≤ c && c ≤ 'F' then some (c.toNat - 'A'.toNat + 10)
  else none

/-- The value of a digit of a numeral. -/
def digit? (hex : Bool) (c : Char) : Option Nat :=
  (hexValue? c).filter fun d => hex || d < 10

/-- What a numeral is made of while its digits are read: the digits so far as a natural, how many
of them stand behind the point, and whether there was a digit and a point at all. -/
structure Mantissa where
  value : Nat := 0
  places : Nat := 0
  hasDigit : Bool := false
  hasPoint : Bool := false

/-- Read digits, underscores and at most one point. -/
def mantissa (hex : Bool) : Mantissa → List Char → Mantissa × List Char
  | m, [] => (m, [])
  | m, c :: cs =>
    if c == '_' then mantissa hex m cs
    else if c == '.' then
      if m.hasPoint then (m, c :: cs) else mantissa hex { m with hasPoint := true } cs
    else match digit? hex c with
      | some d =>
        mantissa hex
          { m with
            value := m.value * (if hex then 16 else 10) + d
            places := if m.hasPoint then m.places + 1 else m.places
            hasDigit := true } cs
      | none => (m, c :: cs)

/-- Read the digits of an exponent; beyond five digits they no longer count. -/
def exponentDigits : Nat → List Char → Nat × List Char
  | e, [] => (e, [])
  | e, c :: cs =>
    if c == '_' then exponentDigits e cs
    else if c.isDigit then
      exponentDigits (if e < 10000 then e * 10 + (c.toNat - '0'.toNat) else e) cs
    else (e, c :: cs)

/-- Read the sign and the digits of an exponent, of which there is at least one. -/
def exponent? (cs : List Char) : Option (Int × List Char) :=
  let (negative, cs) :=
    match cs with
    | '+' :: cs => (false, cs)
    | '-' :: cs => (true, cs)
    | cs => (false, cs)
  match cs with
  | c :: _ =>
    if c.isDigit then
      let (e, rest) := exponentDigits 0 cs
      some (if negative then -(e : Int) else e, rest)
    else none
  | [] => none

/-- The last character seen, as far as underscores are concerned. -/
inductive Seen where
  | start
  | digit
  | underscore
  | other
deriving DecidableEq

/-- Does every underscore stand behind a digit and in front of one? -/
def underscoresFit (hex : Bool) : Seen → List Char → Bool
  | seen, [] => seen != .underscore
  | seen, c :: cs =>
    if (digit? hex c).isSome then underscoresFit hex .digit cs
    else if c == '_' then seen == .digit && underscoresFit hex .underscore cs
    else seen != .underscore && underscoresFit hex .other cs

/-- A numeral without a sign: its nearest number, or infinity for one too large. -/
def numeral? (cs : List Char) : Option Number :=
  match cs with
  | '0' :: x :: c :: rest =>
    if x == 'x' || x == 'X' then
      let (m, tail) := mantissa true {} (c :: rest)
      match tail with
      | p :: tail =>
        if m.hasDigit && (p == 'p' || p == 'P') then
          match exponent? tail with
          | some (e, []) =>
            if underscoresFit true .digit (c :: rest) then
              some (Number.ofBinary m.value (e - 4 * m.places))
            else none
          | _ => none
        else none
      | [] => none
    else decimal? cs
  | _ => decimal? cs
where
  /-- A decimal numeral. -/
  decimal? (cs : List Char) : Option Number :=
    let (m, tail) := mantissa false {} cs
    if !m.hasDigit || !underscoresFit false .start cs then none
    else match tail with
      | [] => some (Number.ofDecimal m.value (-(m.places : Int)))
      | c :: tail =>
        if c == 'e' || c == 'E' then
          match exponent? tail with
          | some (e, []) => some (Number.ofDecimal m.value (e - m.places))
          | _ => none
        else none

/-- A text with its ASCII letters in lower case. -/
def lower (cs : List Char) : List Char := cs.map Char.toLower

/-- Does a text without its sign name infinity? -/
def isInfinityWord (cs : List Char) : Bool :=
  lower cs == "inf".toList || lower cs == "infinity".toList

end Reading

namespace Number

/-- The number a text stands for. -/
def parse (s : String) : Except ReadError Number :=
  let cs := s.toList
  if Reading.lower cs == "nan".toList then .ok nan
  else
    let (negative, body) :=
      match cs with
      | '+' :: cs => (false, cs)
      | '-' :: cs => (true, cs)
      | cs => (false, cs)
    let signed (x : Number) : Number := if negative then x.neg else x
    if Reading.isInfinityWord body then .ok (signed infinity)
    else match Reading.numeral? body with
      | none => .error .malformed
      | some x => if x.isInfinite then .error .outOfRange else .ok (signed x)

end Number

end AddressCode
