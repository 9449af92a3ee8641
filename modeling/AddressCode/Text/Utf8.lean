import AddressCode.Text.Piece

/-!
# AddressCode.Text.Utf8 — bytes read as characters

`pieces` cuts any byte string into well-formed UTF-8 sequences and, between them, the longest
runs that are the beginning of a well-formed sequence and cannot be continued to one.  What
becomes of an ill-formed run is left to the reader: `decode` writes one replacement character for
it, `display` one for each of its bytes, and a quotation writes the bytes.
-/

namespace AddressCode.Text

namespace Utf8

/-- Is `b` a byte that continues a sequence? -/
def isTail (b : UInt8) : Bool := 0x80 ≤ b && b ≤ 0xBF

/-- May `b` follow the first byte `a` of a sequence of two or more bytes?  The bounds leave out
overlong forms, surrogates and what lies beyond U+10FFFF. -/
def isSecond (a b : UInt8) : Bool :=
  if a == 0xE0 then 0xA0 ≤ b && b ≤ 0xBF
  else if a == 0xED then 0x80 ≤ b && b ≤ 0x9F
  else if a == 0xF0 then 0x90 ≤ b && b ≤ 0xBF
  else if a == 0xF4 then 0x80 ≤ b && b ≤ 0x8F
  else isTail b

/-- The number of bytes of a sequence that begins with `a`; zero if none does. -/
def width (a : UInt8) : Nat :=
  if a < 0x80 then 1
  else if 0xC2 ≤ a && a ≤ 0xDF then 2
  else if 0xE0 ≤ a && a ≤ 0xEF then 3
  else if 0xF0 ≤ a && a ≤ 0xF4 then 4
  else 0

/-- The bits of the character that the first byte of a sequence carries. -/
def leadBits (a : UInt8) : Nat :=
  if width a ≤ 1 then a.toNat else a.toNat % Nat.pow 2 (7 - width a)

/-- The bytes of the piece that begins with `a`: all of a well-formed sequence, or as much of one
as there is. -/
def run (a : UInt8) (rest : List UInt8) : List UInt8 :=
  match rest with
  | b :: r =>
    if 2 ≤ width a && isSecond a b then a :: b :: (r.take (width a - 2)).takeWhile isTail
    else [a]
  | [] => [a]

/-- The piece that begins with `a`. -/
def first (a : UInt8) (rest : List UInt8) : Piece :=
  let bytes := run a rest
  if bytes.length == width a then
    .char (Char.ofNat (bytes.tail.foldl (fun n b => n * 64 + b.toNat % 64) (leadBits a)))
  else .illFormed bytes

/-- Cut a byte string into characters and ill-formed runs.  `skip` counts the bytes that belong to
a piece already taken. -/
def piecesFrom : Nat → List UInt8 → List Piece
  | _, [] => []
  | skip + 1, _ :: rest => piecesFrom skip rest
  | 0, a :: rest => first a rest :: piecesFrom ((run a rest).length - 1) rest

/-- The pieces of a byte string. -/
def pieces (bytes : List UInt8) : List Piece := piecesFrom 0 bytes

/-- The character of a piece. -/
def toChar : Piece → Char
  | .char c => c
  | .illFormed _ => replacement

/-- Bytes read as UTF-8, with one replacement character for each ill-formed run. -/
def decode (bytes : List UInt8) : String :=
  String.ofList ((pieces bytes).map toChar)

/-- The UTF-8 bytes of a text. -/
def encode (s : String) : List UInt8 := bytes (ofString s)

end Utf8

end AddressCode.Text
