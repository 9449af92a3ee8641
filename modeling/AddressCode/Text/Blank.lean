import AddressCode.Text.Piece

/-!
# AddressCode.Text.Blank — white space

White space is the Unicode property of that name.  Labels and error texts are trimmed of it on
both sides.
-/

namespace AddressCode.Text

/-- Is `c` white space?  The members are the controls U+0009 to U+000D and U+0085, the space, the
no-break space, and the separators of the Ogham, general punctuation and CJK blocks. -/
def isBlank (c : Char) : Bool :=
  let n := c.toNat
  (0x09 ≤ n && n ≤ 0x0D) || n == 0x20 || n == 0x85 || n == 0xA0 || n == 0x1680 ||
    (0x2000 ≤ n && n ≤ 0x200A) || n == 0x2028 || n == 0x2029 || n == 0x202F || n == 0x205F ||
    n == 0x3000

/-- A list without the elements at either end that have a property. -/
def trimBy {α : Type} (p : α → Bool) (as : List α) : List α :=
  ((as.dropWhile p).reverse.dropWhile p).reverse

/-- A string without the blanks at either end. -/
def trim (s : String) : String := String.ofList (trimBy isBlank s.toList)

/-- Is a piece shown as blanks? -/
def Piece.isBlank (p : Piece) : Bool := p.shown.all Text.isBlank

/-- A text without the blanks at either end. -/
def trimPieces (ps : List Piece) : List Piece := trimBy Piece.isBlank ps

/-- Does a text consist of blanks only? -/
def allBlank (s : String) : Bool := s.toList.all isBlank

end AddressCode.Text
