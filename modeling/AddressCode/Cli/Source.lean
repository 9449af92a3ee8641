import AddressCode.Text.Split
import AddressCode.Text.Utf8

/-!
# AddressCode.Cli.Source — program files

A program file is text in UTF-8, or in UTF-16 of either byte order if it begins with a mark that
says so; the mark is dropped.  Whatever stands for no character becomes a replacement character,
except behind a mark of UTF-8, where it is kept.  Line ends become line feeds.
-/

namespace AddressCode

namespace Source

/-- The order of the two bytes of a unit. -/
inductive Endian where
  | little
  | big
deriving Repr, DecidableEq

/-- The unit of two bytes. -/
def unit (e : Endian) (a b : UInt8) : Nat :=
  match e with
  | .little => b.toNat * 256 + a.toNat
  | .big => a.toNat * 256 + b.toNat

/-- The units of some bytes; a byte left over at the end is a unit that stands for no character. -/
def units (e : Endian) : List UInt8 → List (Option Nat)
  | [] => []
  | [_] => [none]
  | a :: b :: rest => some (unit e a b) :: units e rest

/-- Is a unit the first half of a character? -/
def isHigh (u : Nat) : Bool := 0xD800 ≤ u && u < 0xDC00

/-- Is a unit the second half of a character? -/
def isLow (u : Nat) : Bool := 0xDC00 ≤ u && u < 0xE000

/-- Is a unit half of a character? -/
def isHalf (u : Nat) : Bool := isHigh u || isLow u

/-- The character of two halves, the second of which is a second half.  If the first one is no first
half, the two together stand for no character. -/
def pair (u v : Nat) : Char :=
  if isHigh u then Char.ofNat (0x10000 + (u - 0xD800) * 0x400 + (v - 0xDC00))
  else Text.replacement

/-- The character of a unit that is not part of a pair. -/
def single (u : Nat) : Char := if isHalf u then Text.replacement else Char.ofNat u

/-- The characters of some units.  Any half takes a second half that follows it with it. -/
def fromUnits : List (Option Nat) → List Char
  | [] => []
  | none :: rest => Text.replacement :: fromUnits rest
  | some u :: some v :: rest =>
    if isHalf u && isLow v then pair u v :: fromUnits rest
    else single u :: fromUnits (some v :: rest)
  | some u :: rest => single u :: fromUnits rest

/-- The text of some bytes in UTF-16. -/
def utf16 (e : Endian) (bytes : List UInt8) : List Text.Piece :=
  (fromUnits (units e bytes)).map .char

/-- The text of the bytes of a program file. -/
def decode (bytes : List UInt8) : List Text.Piece :=
  match bytes with
  | 0xEF :: 0xBB :: 0xBF :: rest => Text.Utf8.pieces rest
  | 0xFF :: 0xFE :: rest => utf16 .little rest
  | 0xFE :: 0xFF :: rest => utf16 .big rest
  | _ => Text.ofString (Text.Utf8.decode bytes)

/-- The source text of a program file. -/
def ofBytes (bytes : List UInt8) : List Text.Piece := Text.unixLines (decode bytes)

end Source

end AddressCode
