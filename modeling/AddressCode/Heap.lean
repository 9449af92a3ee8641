import AddressCode.Ordered
import AddressCode.Store

/-!
# AddressCode.Heap — the variables of a frame

A heap maps names to values.  A name may be known without having a value; such a variable counts
in the size of the heap and is otherwise as good as absent.  No variable has the empty name.
-/

namespace AddressCode

/-- The variables of a frame. -/
structure Heap where
  tags : Ordered String Value
deriving Repr, DecidableEq

namespace Heap

/-- The heap without variables. -/
def empty : Heap := ⟨.empty⟩

instance : Inhabited Heap := ⟨empty⟩

/-- What is known of a variable, which may be that it is undefined. -/
def tag? (h : Heap) (name : String) : Option Value := h.tags.get? name

/-- The value of a defined variable. -/
def lookup? (h : Heap) (name : String) : Option Value := (h.tag? name).filter (·.isDefined)

/-- Is a variable defined? -/
def has (h : Heap) (name : String) : Bool := (h.lookup? name).isSome

/-- Set a variable. -/
def set (h : Heap) (name : String) (v : Value) : Heap :=
  if name = "" then h else ⟨h.tags.insert name v⟩

/-- Make a variable known, without a value if it is new. -/
def declare (h : Heap) (name : String) : Heap :=
  if (h.tag? name).isSome then h else h.set name .undefined

/-- The variable that holds the input or argument at position `i`. -/
def inputName (i : Nat) : String := "p" ++ toString i

/-- Set the input variables from position `i` on. -/
def bindFrom (h : Heap) : Nat → List Value → Heap
  | _, [] => h
  | i, v :: vs => (h.set (inputName i) v).bindFrom (i + 1) vs

/-- Set the input variables. -/
def bind (h : Heap) (vs : List Value) : Heap := h.bindFrom 0 vs

/-- Forget all variables. -/
def clear (_ : Heap) : Heap := empty

/-- The number of known variables. -/
def size (h : Heap) : Nat := h.tags.size

/-! ## Listings -/

/-- The names of the defined variables, in order.  `known` are the names of all variables that are
known, in whatever order a table yields them. -/
def namesOf (h : Heap) (known : List String) : List String := Tree.sortKeys (known.filter h.has)

/-- The names of the defined variables, in order. -/
def names (h : Heap) : List String := h.namesOf h.tags.keys

/-- The defined variables and their values, ordered by name, see `namesOf`. -/
def entriesOf (h : Heap) (known : List String) : List (String × Value) :=
  (h.namesOf known).filterMap fun name => (h.tag? name).map fun v => (name, v)

/-- The defined variables and their values, ordered by name. -/
def entries (h : Heap) : List (String × Value) := h.entriesOf h.tags.keys

/-- The text of a known variable. -/
def tagText? (s : Store) (name : String) (v : Value) : Option String :=
  (s.text? v).map fun t => "<tag '" ++ name ++ "':" ++ v.kind.name ++ "=" ++ t ++ ">"

end Heap

end AddressCode
