import AddressCode.Lexer.Scan

/-!
# AddressCode.Instr.Tokens — the words of an instruction

Identifiers, numbers, operators and four signs; blanks separate them and are dropped.  An operator
of two characters is one token, so `tokenize` has to see whether a longer operator follows.
-/

namespace AddressCode

/-- The kinds of tokens in an instruction. -/
inductive Word where
  | ident
  | num
  | op
  | lbracket
  | rbracket
  | comma
  | colon
deriving Repr, DecidableEq, Inhabited

/-- The code of a kind of token. -/
def Word.code : Word → Int
  | .ident => 1
  | .num => 2
  | .op => 3
  | .lbracket => 4
  | .rbracket => 5
  | .comma => 6
  | .colon => 7

namespace Word

open Pattern

/-- A letter or underscore, then letters, digits and underscores. -/
def identifier : Pattern :=
  seq (alt letter (ascii '_')) (star (anyOf [letter, digit, ascii '_']))

/-- Digits, and possibly a point and more digits. -/
def numeral : Pattern := seq (plus digit) (optional (seq (ascii '.') (plus digit)))

/-- Blanks, tabs and line ends. -/
def blanks : Pattern := plus (anyOf [ascii ' ', ascii '\t', ascii '\r', ascii '\n'])

/-- The operators. -/
def operators : List String :=
  ["+", "-", "*", "/", "%", "&", "=", "<", ">", "!", "==", "!=", "<=", ">=", "**"]

/-- The other signs. -/
def signs : List (String × Word) :=
  [("[", .lbracket), ("]", .rbracket), (",", .comma), (":", .colon)]

/-- The rules of the words of an instruction. -/
def rules : List (Rule Word) :=
  [⟨identifier, .emit .ident⟩, ⟨numeral, .emit .num⟩, ⟨blanks, .skip⟩] ++
    operators.map (fun s => ⟨exactly s, .emit .op⟩) ++
    signs.map (fun s => ⟨exactly s.1, .emit s.2⟩)

/-- The lexer of instructions. -/
def lexer : Lexer Word where
  rules := rules
  nonempty := by simp [rules]
  proper := by decide

/-- The tokens of a text given as bytes, and the first piece that is none. -/
def tokenizeBytes (text : List UInt8) : List (Token Word) × Option LexError :=
  let items := lexer.scan text
  (Lexer.tokens items, Lexer.firstError? text items)

/-- The tokens of a text, and the first piece that is none. -/
def tokenize (s : String) : List (Token Word) × Option LexError :=
  tokenizeBytes (Text.Utf8.encode s)

/-- The text of the error of a text that is no sequence of tokens. -/
def illegalInput (e : LexError) : String := "illegal input: " ++ e.message

end Word

end AddressCode
