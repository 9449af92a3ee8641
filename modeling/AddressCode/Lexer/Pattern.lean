import AddressCode.Text.Utf8

/-!
# AddressCode.Lexer.Pattern — regular expressions over bytes

A pattern describes a set of byte strings.  `derive b p` describes what may follow the byte `b`
in a string of `p`, and the simplifying constructors keep a derivative that describes nothing
equal to `never`; a scanner can therefore see from the derivatives whether a match may still grow.
-/

namespace AddressCode

/-- A regular expression over bytes. -/
inductive Pattern where
  /-- no string at all -/
  | never
  /-- the empty string -/
  | empty
  /-- one byte between two bounds, both included -/
  | range (lo hi : UInt8)
  /-- a string of the first followed by a string of the second -/
  | seq (p q : Pattern)
  /-- a string of either -/
  | alt (p q : Pattern)
  /-- any number of strings, one after the other -/
  | star (p : Pattern)
deriving Repr, DecidableEq, Inhabited

namespace Pattern

/-- One given byte. -/
def byte (b : UInt8) : Pattern := range b b

/-- Any one of some patterns. -/
def anyOf : List Pattern → Pattern
  | [] => never
  | [p] => p
  | p :: ps => alt p (anyOf ps)

/-- Some patterns, one after the other. -/
def inOrder : List Pattern → Pattern
  | [] => empty
  | [p] => p
  | p :: ps => seq p (inOrder ps)

/-- One or more. -/
def plus (p : Pattern) : Pattern := seq p (star p)

/-- One or none. -/
def optional (p : Pattern) : Pattern := alt p empty

/-- The ASCII character `c`. -/
def ascii (c : Char) : Pattern := byte c.toNat.toUInt8

/-- The ASCII characters from `a` to `b`. -/
def between (a b : Char) : Pattern := range a.toNat.toUInt8 b.toNat.toUInt8

/-- The bytes of a text, exactly. -/
def exactly (s : String) : Pattern := inOrder ((Text.Utf8.encode s).map byte)

/-- A decimal digit. -/
def digit : Pattern := between '0' '9'

/-- A letter of either case. -/
def letter : Pattern := alt (between 'a' 'z') (between 'A' 'Z')

/-! ## Escapes

A character behind a backslash stands for itself, except for nine letters: three name a control
and six a class of bytes. -/

/-- A blank, a tab, a line end or a form feed. -/
def space : Pattern :=
  anyOf [ascii ' ', ascii '\t', ascii '\n', ascii '\r', byte 0x0C]

/-- A byte that is none of `space`. -/
def nonSpace : Pattern :=
  anyOf [range 0x00 0x08, byte 0x0B, range 0x0E 0x1F, range 0x21 0xFF]

/-- A letter, a digit or an underscore. -/
def word : Pattern := anyOf [digit, letter, ascii '_']

/-- A byte that is none of `word`. -/
def nonWord : Pattern :=
  anyOf [range 0x00 0x2F, range 0x3A 0x40, range 0x5B 0x5E, byte 0x60, range 0x7B 0xFF]

/-- A byte that is no `digit`. -/
def nonDigit : Pattern := alt (range 0x00 0x2F) (range 0x3A 0xFF)

/-- What a character behind a backslash stands for. -/
def escaped (c : Char) : Pattern :=
  match c with
  | 'n' => ascii '\n'
  | 'r' => ascii '\r'
  | 't' => ascii '\t'
  | 'd' => digit
  | 'D' => nonDigit
  | 's' => space
  | 'S' => nonSpace
  | 'w' => word
  | 'W' => nonWord
  | c => exactly c.toString

/-- The pattern of a fixed lexeme, each of its characters escaped. -/
def ofLexeme (s : String) : Pattern := inOrder (s.toList.map escaped)

/-- A fixed lexeme written as a pattern: a backslash in front of each character. -/
def quoteLexeme (s : String) : String :=
  String.ofList (s.toList.flatMap fun c => ['\\', c])

/-! ## Derivatives -/

/-- Does a pattern match the empty string? -/
def nullable : Pattern → Bool
  | never => false
  | empty => true
  | range _ _ => false
  | seq p q => p.nullable && q.nullable
  | alt p q => p.nullable || q.nullable
  | star _ => true

/-- The sequence of two patterns, simplified. -/
def mkSeq (p q : Pattern) : Pattern :=
  if p = never ∨ q = never then never
  else if p = empty then q
  else if q = empty then p
  else seq p q

/-- The choice between two patterns, simplified. -/
def mkAlt (p q : Pattern) : Pattern :=
  if p = never then q
  else if q = never ∨ p = q then p
  else alt p q

/-- What may follow the byte `b` in a string of the pattern. -/
def derive (b : UInt8) : Pattern → Pattern
  | never => never
  | empty => never
  | range lo hi => if lo ≤ b ∧ b ≤ hi then empty else never
  | seq p q =>
    if p.nullable then mkAlt (mkSeq (p.derive b) q) (q.derive b) else mkSeq (p.derive b) q
  | alt p q => mkAlt (p.derive b) (q.derive b)
  | star p => mkSeq (p.derive b) (star p)

end Pattern

end AddressCode
