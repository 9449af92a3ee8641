import AddressCode.Span
import AddressCode.Text.Quoted

/-!
# AddressCode.Lexer.Token — tokens

A token is a piece of a byte string with its kind and its place.
-/

namespace AddressCode

/-- Some bytes of kind `kind`, found at `span`. -/
structure Token (τ : Type) where
  kind : τ
  bytes : List UInt8
  span : Span
deriving Repr, DecidableEq

namespace Token

variable {τ : Type}

/-- The lexeme of a token, as a string. -/
def lexeme (t : Token τ) : String := Text.display (Text.Utf8.pieces t.bytes)

/-- The text of a token whose kind has the number `code`. -/
def text (t : Token τ) (code : Int) : String :=
  "<" ++ toString code ++ " " ++ Text.quoteBytes t.bytes ++ " " ++ t.span.text ++ ">"

end Token

end AddressCode
