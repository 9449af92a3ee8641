import AddressCode.Text.Split

/-!
# AddressCode.Cli.Markup — messages without colours

A message may ask for colours in two ways: with tags such as `<red>` and `</>`, and with the codes
that terminals understand.  Without colours both are taken out.  Tags count only in a text in which
some tag is closed.  What is taken out may bring together a new tag or code, and the text is
gone through a fixed number of times, so that a message loses what is nested a few levels deep.
-/

namespace AddressCode.Markup

/-- Take out what `found` finds: the number of characters to drop at the beginning of a text, zero
if there is nothing to find.  `skip` counts the characters still to drop. -/
def dropFrom (found : List Char → Nat) : Nat → List Char → List Char
  | _, [] => []
  | skip + 1, _ :: cs => dropFrom found skip cs
  | 0, c :: cs =>
    match found (c :: cs) with
    | 0 => c :: dropFrom found 0 cs
    | n + 1 => dropFrom found n cs

/-! ## Tags -/

/-- May `c` stand in a tag? -/
def isTagChar (c : Char) : Bool := c.isAlpha || c == '_' || c == '=' || c == ',' || c == ';'

/-- The length of a tag behind its opening, which has `n` characters. -/
def tagBody (n : Nat) (cs : List Char) : Nat :=
  match cs.dropWhile isTagChar with
  | '>' :: _ => n + (cs.takeWhile isTagChar).length + 1
  | _ => 0

/-- The length of the tag at the beginning of a text. -/
def tagLength : List Char → Nat
  | '<' :: '/' :: cs => tagBody 2 cs
  | '<' :: cs => tagBody 1 cs
  | _ => 0

/-- Does a text close a tag? -/
def closesTag : List Char → Bool
  | [] => false
  | c :: cs => ['<', '/', '>'].isPrefixOf (c :: cs) || closesTag cs

/-- Take out the tags of a text that closes one. -/
def dropTags (s : String) : String :=
  if closesTag s.toList then String.ofList (dropFrom tagLength 0 s.toList) else s

/-- Take out tags a number of times. -/
def dropTagsTimes : Nat → String → String
  | 0, s => s
  | n + 1, s => dropTagsTimes n (dropTags s)

/-! ## Codes -/

/-- May `c` stand between the opening and the end of a code? -/
def isCodeChar (c : Char) : Bool := c.isDigit || c == ';' || c == '?'

/-- The length of the code at the beginning of a text. -/
def codeLength : List Char → Nat
  | '\x1b' :: '[' :: cs =>
    match cs.takeWhile isCodeChar, cs.dropWhile isCodeChar with
    | [], _ => 0
    | body, 'm' :: _ => body.length + 3
    | _, _ => 0
  | _ => 0

/-- Take out the codes of a text. -/
def dropCodes (s : String) : String := String.ofList (dropFrom codeLength 0 s.toList)

/-! ## Messages -/

/-- A line of a message without tags and codes. -/
def plainLine (line : String) : String := dropCodes (dropCodes (dropTags line))

/-- A text without the line feeds at its end. -/
def withoutLineEnds (s : String) : String :=
  String.ofList ((s.toList.reverse.dropWhile (· == '\n')).reverse)

/-- A message behind a mark, its further lines indented by the width of the mark. -/
def plain (mark s : String) : String :=
  let lines := Text.splitOn "\n" (withoutLineEnds (dropTagsTimes 2 s))
  let indent := String.ofList (List.replicate mark.length ' ')
  dropTagsTimes 5 (mark ++ ("\n" ++ indent).intercalate (lines.map plainLine))

end AddressCode.Markup
