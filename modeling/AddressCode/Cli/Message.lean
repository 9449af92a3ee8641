import AddressCode.Cli.Markup
import AddressCode.Machine.Basic

/-!
# AddressCode.Cli.Message — what the user gets to see

Printed values are lines of their own; messages carry a mark in front and lose what asks for
colours.  Variables are shown as a tree.
-/

namespace AddressCode.Message

/-- A piece of information. -/
def info (s : String) : String := Markup.plain "   >>  " s ++ "\n"

/-- An error. -/
def error (s : String) : String := Markup.plain "   Error  " s ++ "\n"

/-- The text of an event.  Printing a value that contains itself has no end, and so no text. -/
def ofEvent? : Event → Option String
  | .printed _ text => text.map (· ++ "\n")
  | .faulted f => some (error ("[" ++ toString f.code ++ "] " ++ f.text))

/-! ## Trees -/

/-- A tree of texts, as deep as variables are shown: an item and what is below it. -/
structure Item where
  text : String
  below : List String
deriving Repr, DecidableEq

/-- The lines of some texts at the lower level. -/
def leaves (margin : String) : List String → List String
  | [] => []
  | [s] => [margin ++ "└──" ++ s]
  | s :: rest => (margin ++ "├──" ++ s) :: leaves margin rest

/-- The lines of an item with the given corner and margin. -/
def item (corner margin : String) (i : Item) : List String :=
  (corner ++ (if i.below.isEmpty then "──" else "─┬") ++ i.text) :: leaves margin i.below

/-- The lines of a tree. -/
def tree : List Item → List String
  | [] => []
  | [i] => item "└" "  " i
  | i :: rest => item "├" "│ " i ++ tree rest

/-- An element of an array as text. -/
def elementText? (s : Store) (e : Number × Value) : Option String :=
  (s.text? e.2).map fun t => "[" ++ e.1.text ++ "] = " ++ t

/-- A variable as an item; the elements of an array are below it. -/
def variableItem? (s : Store) (e : String × Value) : Option Item :=
  match e.2 with
  | .array (some cell) => ((s.elements cell).entries.mapM (elementText? s)).map fun ts => ⟨e.1, ts⟩
  | v => (s.text? v).map fun t => ⟨e.1 ++ " = " ++ t, []⟩

/-- All variables, unless an element of one contains itself. -/
def heap? (s : Store) (h : Heap) : Option String :=
  match h.entries with
  | [] => some (info "heap is empty")
  | es =>
    (es.mapM (variableItem? s)).map fun items =>
      "heap\n" ++ String.join ((tree items).map (· ++ "\n")) ++ "\n"

end AddressCode.Message
