import AddressCode.Text.Piece

/-!
# AddressCode.Text.Split — cutting a text into pieces

Cutting at every occurrence of a separator, cutting at the first occurrence of a character, and
the line ends of a source text.
-/

namespace AddressCode.Text

variable {α : Type} [BEq α]

/-- Cut a list at every occurrence of `sep`, from left to right.  `field` holds the elements since
the last cut, in reverse, and `skip` counts the elements of a separator still to drop. -/
def splitFrom (sep : List α) : Nat → List α → List α → List (List α)
  | _, field, [] => [field.reverse]
  | skip + 1, field, _ :: cs => splitFrom sep skip field cs
  | 0, field, c :: cs =>
    if sep.isPrefixOf (c :: cs) then field.reverse :: splitFrom sep (sep.length - 1) [] cs
    else splitFrom sep 0 (c :: field) cs

/-- The parts of a string between the occurrences of a separator, which is not empty.  There is
always at least one part. -/
def splitOn (sep s : String) : List String :=
  (splitFrom sep.toList 0 [] s.toList).map String.ofList

/-- The parts of a text between the occurrences of a separator, which is not empty. -/
def splitPieces (sep : String) (ps : List Piece) : List (List Piece) :=
  splitFrom (ofString sep) 0 [] ps

/-- The list before the first `a` and the list behind it, if `a` occurs at all. -/
def cutAt? (a : α) (as : List α) : Option (List α × List α) :=
  match as.dropWhile (· != a) with
  | [] => none
  | _ :: after => some (as.takeWhile (· != a), after)

/-- A text whose line ends are line feeds: a carriage return in front of a line feed is dropped. -/
def unixLines : List Piece → List Piece
  | [] => []
  | .char '\r' :: .char '\n' :: ps => .char '\n' :: unixLines ps
  | p :: ps => p :: unixLines ps

end AddressCode.Text
