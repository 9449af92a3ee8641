/-!
# AddressCode.Text.Piece — texts that may be broken

A text that comes from a file may hold bytes that belong to no character.  Such a text is a list
of pieces: characters, and between them runs of bytes that are none.  Every string is such a text.
-/

namespace AddressCode.Text

/-- A piece of a byte string read as characters. -/
inductive Piece where
  | char (c : Char)
  | illFormed (bytes : List UInt8)
deriving Repr, DecidableEq

/-- The character written for bytes that stand for none. -/
def replacement : Char := '\ufffd'

/-- The bytes of a piece. -/
def Piece.bytes : Piece → List UInt8
  | char c => String.utf8EncodeChar c
  | illFormed bytes => bytes

/-- The characters that show a piece: one replacement for each byte that belongs to none. -/
def Piece.shown : Piece → List Char
  | char c => [c]
  | illFormed bytes => bytes.map fun _ => replacement

/-- A string as a list of pieces. -/
def ofString (s : String) : List Piece := s.toList.map .char

/-- The bytes of a text. -/
def bytes (ps : List Piece) : List UInt8 := ps.flatMap Piece.bytes

/-- The string that shows a text. -/
def display (ps : List Piece) : String := String.ofList (ps.flatMap Piece.shown)

/-- Every string is a text. -/
instance : Coe String (List Piece) := ⟨ofString⟩

/-- Where a string is asked for, a text is shown. -/
instance : Coe (List Piece) String := ⟨display⟩

/-- A string shows itself. -/
@[simp]
theorem display_ofString (s : String) : display (ofString s) = s := by
  have h : ∀ cs : List Char, (cs.map Piece.char).flatMap Piece.shown = cs := by
    intro cs
    induction cs with
    | nil => rfl
    | cons c cs ih => simp [Piece.shown, ih]
  simp [display, ofString, h]

end AddressCode.Text
