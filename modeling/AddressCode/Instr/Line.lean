import AddressCode.Instr.Parser
import AddressCode.Instr.Printer
import AddressCode.Text.Blank
import AddressCode.Text.Split

/-!
# AddressCode.Instr.Line — lines of a program

A line is a label, if it has a colon, and an instruction.  `classify` reads one; a `Line` keeps what
was read together with the text, so that a line that runs often is read once.  A line may hold bytes
that are no characters; a label keeps them, and outside of a label they are an error that shows them
as they are.
-/

namespace AddressCode

/-- A line with the label and the instruction it holds. -/
structure Statement where
  label : List Text.Piece
  instr : Instr
  source : String
deriving Repr, DecidableEq

/-- A line that holds no instruction.  The reason is a piece of it that is no token, if there is
one. -/
structure SyntaxError where
  source : String
  reason : Option LexError
deriving Repr, DecidableEq

/-- The reason of a syntax error as text. -/
def SyntaxError.reasonText (e : SyntaxError) : String :=
  match e.reason with
  | some r => Word.illegalInput r
  | none => ""

/-- The text of a syntax error. -/
def SyntaxError.message (e : SyntaxError) : String :=
  "Unrecognized instruction '" ++ Text.trim e.source ++ "'" ++
    (match e.reason with
      | some r => " (" ++ Word.illegalInput r ++ ")"
      | none => "")

/-- The label of a line and what follows it.  The label is the trimmed text before the first colon;
a line without a colon has none. -/
def splitLabel (line : List Text.Piece) : List Text.Piece × List Text.Piece :=
  match Text.cutAt? (.char ':') line with
  | some (before, after) => (Text.trimPieces before, after)
  | none => ([], line)

/-- The instruction of a line behind its label. -/
def readInstr (source : String) (rest : List Text.Piece) : Except SyntaxError Instr :=
  if Text.allBlank (Text.display rest) then .ok .noop
  else match Word.tokenizeBytes (Text.bytes rest) with
    | (_, some e) => .error ⟨source, some e⟩
    | (toks, none) =>
      match Parse.instr toks with
      | some ins => .ok ins
      | none => .error ⟨source, none⟩

/-- The statement of a line. -/
def classify (line : List Text.Piece) : Except SyntaxError Statement :=
  let (label, rest) := splitLabel line
  let source := Text.display line
  (readInstr source rest).map fun ins => ⟨label, ins, source⟩

/-- The text of a statement. -/
def Statement.text (s : Statement) : List Text.Piece :=
  (if s.label == [] then [] else s.label ++ Text.ofString ": ") ++ Text.ofString s.instr.text

/-- A line of a program together with its label and instruction. -/
structure Line where
  pieces : List Text.Piece
  label : List Text.Piece
  instr : Except SyntaxError Instr
  label_eq : label = (splitLabel pieces).1
  instr_eq : instr = (classify pieces).map (·.instr)

namespace Line

/-- The line of a text. -/
def ofPieces (ps : List Text.Piece) : Line :=
  ⟨ps, (splitLabel ps).1, (classify ps).map (·.instr), rfl, rfl⟩

/-- The line of a string. -/
def ofString (s : String) : Line := ofPieces (Text.ofString s)

/-- The text of a line. -/
def text (l : Line) : String := Text.display l.pieces

/-- The name of a line: the bytes of its label. -/
def name (l : Line) : List UInt8 := Text.bytes l.label

/-- A line is determined by its pieces. -/
theorem eq_of_pieces {a b : Line} (h : a.pieces = b.pieces) : a = b := by
  obtain ⟨s, l, i, hl, hi⟩ := a
  obtain ⟨t, l', i', hl', hi'⟩ := b
  simp only at h
  subst h hl hi hl' hi'
  rfl

instance : DecidableEq Line := fun _ _ =>
  decidable_of_iff _ ⟨eq_of_pieces, congrArg Line.pieces⟩

/-- Reading the pieces of a line again gives the line. -/
theorem ofPieces_pieces (a : Line) : ofPieces a.pieces = a := eq_of_pieces rfl

/-- The text of the line of a string is the string. -/
@[simp]
theorem text_ofString (s : String) : (ofString s).text = s := Text.display_ofString s

/-- Does a line begin the body of a procedure? -/
def opens (l : Line) : Bool :=
  match l.instr with
  | .ok (.beginFunc _ _) => true
  | _ => false

/-- Does a line end the body of a procedure? -/
def closes (l : Line) : Bool :=
  match l.instr with
  | .ok .endFunc => true
  | _ => false

end Line

end AddressCode
