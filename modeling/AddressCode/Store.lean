import AddressCode.Tree
import AddressCode.Value.Basic
import AddressCode.Value.Content

/-!
# AddressCode.Store — the storage of arrays

Arrays live in numbered cells.  A cell maps indices to values; its entries ascend as long as every
index is a number.  Cells are only ever added, and a cell is never used for a second array.

`Store.content` writes a value out, and `Store.build` puts a content into fresh cells; a copy of a
value is its content built anew, and therefore shares nothing with anything.
-/

namespace AddressCode

/-- The elements of an array: a finite map from index to value. -/
abbrev Elements := Tree Number Value

/-- The cells of all arrays. -/
structure Store where
  cells : Array Elements
deriving Repr, DecidableEq

namespace Store

/-- The store without cells. -/
def empty : Store := ⟨#[]⟩

instance : Inhabited Store := ⟨empty⟩

/-- The elements in a cell. -/
def get? (s : Store) (cell : Nat) : Option Elements := s.cells[cell]?

/-- The elements in a cell; there are none in a cell that does not exist. -/
def elements (s : Store) (cell : Nat) : Elements := (s.get? cell).getD .empty

/-- A new cell with the given elements, as a value. -/
def alloc (s : Store) (es : Elements) : Store × Value :=
  (⟨s.cells.push es⟩, .array (some s.cells.size))

/-- Write an element of a cell. -/
def set (s : Store) (cell : Nat) (i : Number) (v : Value) : Store :=
  ⟨s.cells.modify cell fun es => es.insert i v⟩

/-! ## Writing out -/

/-- The content of a value found inside the cells of `path`.  A path never holds a cell twice, so
its length is bounded by the number of cells. -/
def contentFrom (s : Store) : Nat → List Nat → Value → Content
  | _, _, .undefined => .undefined
  | _, _, .scalar x => .scalar x
  | _, _, .boolean b => .boolean b
  | _, _, .pointer p => .pointer p
  | _, _, .array none => .unallocated
  | 0, _, .array (some _) => .cycle
  | n + 1, path, .array (some c) =>
    if c ∈ path then .cycle
    else .array ((s.elements c).entries.map fun e => (e.1, contentFrom s n (c :: path) e.2))

/-- A value with its arrays written out. -/
def content (s : Store) (v : Value) : Content := s.contentFrom (s.cells.size + 1) [] v

/-- The text of a value, unless an array in it is found inside itself. -/
def text? (s : Store) (v : Value) : Option String := (s.content v).text?

/-! ## Building -/

mutual

/-- Put a content into fresh cells, unless there is a cycle in it.  Each array of the content gets
a cell of its own. -/
def build (s : Store) : Content → Option (Store × Value)
  | .undefined => some (s, .undefined)
  | .scalar x => some (s, .scalar x)
  | .boolean b => some (s, .boolean b)
  | .pointer p => some (s, .pointer p)
  | .unallocated => some (s, .array none)
  | .array items =>
    match buildItems s items with
    | some (s, es) => some (s.alloc (.ofList es))
    | none => none
  | .cycle => none

/-- Put the elements of an array into fresh cells. -/
def buildItems (s : Store) : List (Number × Content) → Option (Store × List (Number × Value))
  | [] => some (s, [])
  | (i, c) :: rest =>
    match build s c with
    | none => none
    | some (s, v) =>
      match buildItems s rest with
      | none => none
      | some (s, es) => some (s, (i, v) :: es)

end

/-- A copy of a value in fresh cells.  There is none of a value that contains itself. -/
def clone? (s : Store) (v : Value) : Option (Store × Value) := s.build (s.content v)

end Store

end AddressCode
