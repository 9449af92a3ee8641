import AddressCode.Text.Printable
import AddressCode.Text.Utf8

/-!
# AddressCode.Text.Quoted — texts in double quotes

A quotation shows any byte string on one line.  Printable characters stand for themselves, the
usual controls have a letter each, other characters are written by their code point, and bytes
that are not UTF-8 by their value.
-/

namespace AddressCode.Text

/-- The lower case hexadecimal digits of `n`, with zeros in front up to `width` digits. -/
def hexDigits (width n : Nat) : String :=
  let digits := Nat.toDigits 16 n
  String.ofList (List.replicate (width - digits.length) '0' ++ digits)

/-- A character inside a quotation. -/
def quoteChar (c : Char) : String :=
  if c == '"' then "\\\""
  else if c == '\\' then "\\\\"
  else if isPrintable c then c.toString
  else match c.toNat with
    | 0x07 => "\\a"
    | 0x08 => "\\b"
    | 0x09 => "\\t"
    | 0x0A => "\\n"
    | 0x0B => "\\v"
    | 0x0C => "\\f"
    | 0x0D => "\\r"
    | n =>
      if n < 0x80 then "\\x" ++ hexDigits 2 n
      else if n < 0x10000 then "\\u" ++ hexDigits 4 n
      else "\\U" ++ hexDigits 8 n

/-- A piece of a byte string inside a quotation. -/
def quotePiece : Piece → String
  | .char c => quoteChar c
  | .illFormed bytes => String.join (bytes.map fun b => "\\x" ++ hexDigits 2 b.toNat)

/-- A text in double quotes. -/
def quotePieces (ps : List Piece) : String := "\"" ++ String.join (ps.map quotePiece) ++ "\""

/-- A byte string in double quotes. -/
def quoteBytes (bytes : List UInt8) : String := quotePieces (Utf8.pieces bytes)

/-- A string in double quotes. -/
def quote (s : String) : String := quotePieces (ofString s)

end AddressCode.Text
