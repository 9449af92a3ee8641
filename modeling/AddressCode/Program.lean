import AddressCode.Instr.Line
import AddressCode.Labels

/-!
# AddressCode.Program — programs and their labels

A program is a list of lines.  The lines between the beginning and the end of a procedure belong to
its body and not to the program around it: their labels cannot be seen from there.
-/

namespace AddressCode

/-- The lines of a program or of the body of a procedure. -/
abbrev Program := Array Line

namespace Program

/-- The program of some texts. -/
def ofTexts (lines : List (List Text.Piece)) : Program := (lines.map Line.ofPieces).toArray

/-- The program of some strings. -/
def ofStrings (lines : List String) : Program := (lines.map Line.ofString).toArray

/-- The program of a text, whose lines have a separator between them. -/
def ofSource (separator : String) (source : List Text.Piece) : Program :=
  .ofTexts (Text.splitPieces separator source)

/-- How many procedures are open behind a line, if there are `depth` of them in front of it.  The
end of a procedure outside of any counts for nothing. -/
def depthAfter (depth : Nat) (l : Line) : Nat :=
  if l.opens then depth + 1 else if l.closes then depth - 1 else depth

/-- How many procedures are open behind some lines. -/
def depthFrom (depth : Nat) (ls : List Line) : Nat := ls.foldl depthAfter depth

/-- How many procedures are open in front of the line at `pc`. -/
def staticDepth (p : Program) (pc : Nat) : Nat := depthFrom 0 (p.toList.take pc)

/-- Add the labels of some lines, the first of which is at position `pc`, inside `depth`
procedures. -/
def addLabels (labels : Labels Nat (List UInt8)) (depth pc : Nat) :
    List Line → Labels Nat (List UInt8)
  | [] => labels
  | l :: rest =>
    let labels := if depth = 0 then labels.define l.name pc else labels
    addLabels labels (depthAfter depth l) (pc + 1) rest

/-- The labels of a program, which are bytes.  Of several lines with one label, the last one
counts. -/
def labels (p : Program) : Labels Nat (List UInt8) := addLabels .empty 0 0 p.toList

end Program

end AddressCode
