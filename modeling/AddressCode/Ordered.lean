/-!
# AddressCode.Ordered — finite maps listed in key order

An `Ordered κ α` is a list of entries, ascending by key.  Writing a key that compares equal to
one already present replaces the whole entry, key included, so that the key listed is always the
one written last.  Two maps with the same entries are the same map: nothing about the order in
which the entries were written is left in the value.
-/

namespace AddressCode

/-- A finite map from `κ` to `α`, its entries ascending by key. -/
structure Ordered (κ α : Type) where
  entries : List (κ × α)
deriving Repr, DecidableEq

namespace Ordered

variable {κ α : Type}

/-- The map without entries. -/
def empty : Ordered κ α := ⟨[]⟩

instance : Inhabited (Ordered κ α) := ⟨empty⟩
instance : EmptyCollection (Ordered κ α) := ⟨empty⟩

/-- The number of entries. -/
def size (m : Ordered κ α) : Nat := m.entries.length

/-- The keys, ascending. -/
def keys (m : Ordered κ α) : List κ := m.entries.map (·.1)

/-- The values, in the order of their keys. -/
def values (m : Ordered κ α) : List α := m.entries.map (·.2)

variable [Ord κ]

/-- Write an entry into an ascending list: in front of the first greater key, or in place of the
first equal one. -/
def insertEntry (k : κ) (v : α) : List (κ × α) → List (κ × α)
  | [] => [(k, v)]
  | e :: rest =>
    match compare k e.1 with
    | .lt => (k, v) :: e :: rest
    | .eq => (k, v) :: rest
    | .gt => e :: insertEntry k v rest

/-- Map `k` to `v`, replacing an entry of an equal key. -/
def insert (m : Ordered κ α) (k : κ) (v : α) : Ordered κ α := ⟨insertEntry k v m.entries⟩

/-- The first entry whose key compares equal to `k`. -/
def find? (m : Ordered κ α) (k : κ) : Option (κ × α) :=
  m.entries.find? fun e => compare k e.1 == .eq

/-- The value at `k`. -/
def get? (m : Ordered κ α) (k : κ) : Option α := (m.find? k).map (·.2)

/-- Does the map have an entry at `k`? -/
def contains (m : Ordered κ α) (k : κ) : Bool := (m.get? k).isSome

/-- Write a list of entries, one after the other. -/
def insertAll (m : Ordered κ α) (es : List (κ × α)) : Ordered κ α :=
  es.foldl (fun m e => m.insert e.1 e.2) m

/-- The map of a list of entries; of equal keys the last one counts. -/
def ofList (es : List (κ × α)) : Ordered κ α := (empty : Ordered κ α).insertAll es

/-- Change the value at `k`, if there is one. -/
def modify (m : Ordered κ α) (k : κ) (f : α → α) : Ordered κ α :=
  ⟨m.entries.map fun e => if compare k e.1 == .eq then (e.1, f e.2) else e⟩

end Ordered

end AddressCode
