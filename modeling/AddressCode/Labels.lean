import AddressCode.Ordered

/-!
# AddressCode.Labels — the labels of a program

A label table maps labels to positions.  Defining a label again moves it.  The empty text is no
label.  Labels are strings, or bytes of which there may be no string.
-/

namespace AddressCode

/-- A table of labels in `κ` with positions in `π`. -/
structure Labels (π : Type) (κ : Type := String) where
  positions : Ordered κ π
deriving Repr, DecidableEq

namespace Labels

variable {π κ : Type}

/-- The table without labels. -/
def empty : Labels π κ := ⟨.empty⟩

instance : Inhabited (Labels π κ) := ⟨empty⟩

/-- The number of labels. -/
def size (ls : Labels π κ) : Nat := ls.positions.size

variable [Ord κ]

/-- Put a label at a position.  The empty label, which is the default one, is none. -/
def define [DecidableEq κ] [Inhabited κ] (ls : Labels π κ) (label : κ) (position : π) :
    Labels π κ :=
  if label = default then ls else ⟨ls.positions.insert label position⟩

/-- The empty label is not defined. -/
theorem define_default [DecidableEq κ] [Inhabited κ] (ls : Labels π κ) (position : π) :
    ls.define default position = ls := if_pos rfl

/-- The position of a label. -/
def lookup? (ls : Labels π κ) (label : κ) : Option π := ls.positions.get? label

/-- The order of two labels: by position, and by name at the same position. -/
def order [Ord π] (ls : Labels π κ) (a b : κ) : Ordering :=
  (compare (ls.lookup? a) (ls.lookup? b)).then (compare a b)

/-- The labels in their order.  `known` are all labels, in whatever order a table yields them. -/
def listOf [Ord π] (ls : Labels π κ) (known : List κ) : List κ :=
  known.mergeSort fun a b => (ls.order a b).isLE

/-- The labels by position, and by name at the same position. -/
def list [Ord π] (ls : Labels π κ) : List κ := ls.listOf ls.positions.keys

end Labels

end AddressCode
