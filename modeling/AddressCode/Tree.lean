/-!
# AddressCode.Tree — search trees

A `Tree κ α` is a finite map held as a red-black tree: a smaller key is found to the left of a
greater one, no red node has a red child, and the ways from the root to the leaves have equally many
black nodes.  Writing a key that compares equal to one on the way replaces the whole entry, key
included, so that the key listed is always the one written last.

What a tree says is its list of entries, from left to right; mending a node on the way back from a
new leaf keeps that list.  The shape matters for keys that cannot be told apart from any other:
these are found at the root.
-/

namespace AddressCode

/-- The colour of a node. -/
inductive Colour where
  | red
  | black
deriving Repr, DecidableEq

/-- A finite map from `κ` to `α`. -/
inductive Tree (κ α : Type) where
  | leaf
  | node (colour : Colour) (left : Tree κ α) (key : κ) (value : α) (right : Tree κ α)
deriving Repr, DecidableEq

namespace Tree

variable {κ α : Type}

/-- The map without entries. -/
def empty : Tree κ α := leaf

instance : Inhabited (Tree κ α) := ⟨empty⟩

/-- The entries from left to right. -/
def entries : Tree κ α → List (κ × α)
  | leaf => []
  | node _ l k v r => l.entries ++ (k, v) :: r.entries

/-- The number of entries. -/
def size : Tree κ α → Nat
  | leaf => 0
  | node _ l _ _ r => l.size + 1 + r.size

/-- The keys from left to right. -/
def keys (t : Tree κ α) : List κ := t.entries.map (·.1)

/-! ## Colours -/

/-- Is the root of a tree red? -/
def isRed : Tree κ α → Bool
  | node .red _ _ _ _ => true
  | _ => false

/-- A tree with a black root. -/
def blacken : Tree κ α → Tree κ α
  | leaf => leaf
  | node _ l k v r => node .black l k v r

/-- The node of a black entry whose left tree has got a new leaf.  A red child of a red child is
mended: if both trees are red, by giving their colour to the node, and otherwise by turning the node
to the right. -/
def mendLeft (l : Tree κ α) (k : κ) (v : α) (r : Tree κ α) : Tree κ α :=
  match l with
  | node .red ll lk lv lr =>
    if ll.isRed || lr.isRed then
      if r.isRed then node .red l.blacken k v r.blacken
      else if ll.isRed then node .black ll lk lv (node .red lr k v r)
      else
        match lr with
        | node _ a x y b => node .black (node .red ll lk lv a) x y (node .red b k v r)
        | leaf => node .black l k v r
    else node .black l k v r
  | _ => node .black l k v r

/-- The node of a black entry whose right tree has got a new leaf, see `mendLeft`. -/
def mendRight (l : Tree κ α) (k : κ) (v : α) (r : Tree κ α) : Tree κ α :=
  match r with
  | node .red rl rk rv rr =>
    if rl.isRed || rr.isRed then
      if l.isRed then node .red l.blacken k v r.blacken
      else if rr.isRed then node .black (node .red l k v rl) rk rv rr
      else
        match rl with
        | node _ a x y b => node .black (node .red l k v a) x y (node .red b rk rv rr)
        | leaf => node .black l k v r
    else node .black l k v r
  | _ => node .black l k v r

/-- The node of an entry whose left tree has got a new leaf. -/
def joinLeft (c : Colour) (l : Tree κ α) (k : κ) (v : α) (r : Tree κ α) : Tree κ α :=
  match c with
  | .red => node .red l k v r
  | .black => mendLeft l k v r

/-- The node of an entry whose right tree has got a new leaf. -/
def joinRight (c : Colour) (l : Tree κ α) (k : κ) (v : α) (r : Tree κ α) : Tree κ α :=
  match c with
  | .red => node .red l k v r
  | .black => mendRight l k v r

/-- A black root has the same entries. -/
@[simp]
theorem entries_blacken (t : Tree κ α) : t.blacken.entries = t.entries := by
  cases t <;> rfl

/-- Mending the left tree keeps the entries. -/
@[simp]
theorem entries_mendLeft (l : Tree κ α) (k : κ) (v : α) (r : Tree κ α) :
    (mendLeft l k v r).entries = l.entries ++ (k, v) :: r.entries := by
  unfold mendLeft
  split
  · split
    · split
      · simp [entries]
      · split
        · simp [entries]
        · split <;> simp [entries]
    · rfl
  · rfl

/-- Mending the right tree keeps the entries. -/
@[simp]
theorem entries_mendRight (l : Tree κ α) (k : κ) (v : α) (r : Tree κ α) :
    (mendRight l k v r).entries = l.entries ++ (k, v) :: r.entries := by
  unfold mendRight
  split
  · split
    · split
      · simp [entries]
      · split
        · simp [entries]
        · split <;> simp [entries]
    · rfl
  · rfl

/-- A node has its entry between those of its trees. -/
@[simp]
theorem entries_joinLeft (c : Colour) (l : Tree κ α) (k : κ) (v : α) (r : Tree κ α) :
    (joinLeft c l k v r).entries = l.entries ++ (k, v) :: r.entries := by
  cases c <;> simp [joinLeft, entries]

/-- A node has its entry between those of its trees. -/
@[simp]
theorem entries_joinRight (c : Colour) (l : Tree κ α) (k : κ) (v : α) (r : Tree κ α) :
    (joinRight c l k v r).entries = l.entries ++ (k, v) :: r.entries := by
  cases c <;> simp [joinRight, entries]

/-! ## Keys -/

variable [Ord κ]

/-- Write an entry below a node, in place of one with an equal key on the way. -/
def insertBelow (k : κ) (v : α) : Tree κ α → Tree κ α
  | leaf => node .red leaf k v leaf
  | node c l x w r =>
    match compare k x with
    | .lt => joinLeft c (insertBelow k v l) x w r
    | .eq => node c l k v r
    | .gt => joinRight c l x w (insertBelow k v r)

/-- Map `k` to `v`, replacing an entry of an equal key. -/
def insert (t : Tree κ α) (k : κ) (v : α) : Tree κ α := (t.insertBelow k v).blacken

/-- The value at `k`. -/
def get? (k : κ) : Tree κ α → Option α
  | leaf => none
  | node _ l x v r =>
    match compare k x with
    | .lt => l.get? k
    | .eq => some v
    | .gt => r.get? k

/-- Write a list of entries, one after the other. -/
def insertAll (t : Tree κ α) (es : List (κ × α)) : Tree κ α :=
  es.foldl (fun t e => t.insert e.1 e.2) t

/-- The map of a list of entries; of equal keys the last one counts. -/
def ofList (es : List (κ × α)) : Tree κ α := (empty : Tree κ α).insertAll es

/-- Some keys in the order in which a search tree lists them: ascending, and each of them once. -/
def sortKeys (ks : List κ) : List κ := (ofList (ks.map fun k => (k, ()))).keys

end Tree

end AddressCode
