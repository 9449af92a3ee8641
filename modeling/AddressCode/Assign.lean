import AddressCode.Eval

/-!
# AddressCode.Assign — writing to a target

A value is written to a variable, to the variable at the end of a chain of pointers, or to an
element of an array.  The first element written to an undefined variable makes it an array.
-/

namespace AddressCode

/-- The longest chain of pointers that an assignment writes through. -/
def maxPointers : Nat := 2

/-- Write a value to an element of an array. -/
def Store.setElement (s : Store) (a : Value) (i : Number) (v : Value) : Store :=
  match a with
  | .array (some cell) => s.set cell i v
  | _ => s

/-- Write a value to a target.  What is handed back is the state that has been come to, and the
cause of a fault if there is one. -/
def Target.write (h : Heap) (s : Store) (t : Target) (v : Value) : Heap × Store × Option Cause :=
  match t with
  | .variable 0 name => (h.set name v, s, none)
  | .variable depth name =>
    if maxPointers < depth then (h, s, some (.tooDeep t))
    else match h.follow name depth with
      | .ok target => (h.set target v, s, none)
      | .error c => (h, s, some c)
  | .element name index =>
    match index.evalIndex h s with
    | .error c => (h, s, some c)
    | .ok i =>
      match h.lookup? name with
      | none =>
        -- the variable becomes an array before the element is written
        let (s, a) := s.alloc .empty
        let h := h.set name a
        (h, s.setElement a i v, none)
      | some (.array (some cell)) => (h, s.setElement (.array (some cell)) i v, none)
      | some w => (h, s, some (.notAnArray w.kind name))

/-- The state after a value was written to a target, or the cause why it cannot be. -/
def Target.assign (h : Heap) (s : Store) (t : Target) (v : Value) : Except Cause (Heap × Store) :=
  match t with
  | .variable 0 name => .ok (h.set name v, s)
  | .variable depth name =>
    if maxPointers < depth then .error (.tooDeep t)
    else match h.follow name depth with
      | .ok target => .ok (h.set target v, s)
      | .error c => .error c
  | .element name index =>
    match index.evalIndex h s with
    | .error c => .error c
    | .ok i =>
      match h.lookup? name with
      | none =>
        let (s, a) := s.alloc (.ofList [(i, v)])
        .ok (h.set name a, s)
      | some (.array (some cell)) => .ok (h, s.set cell i v)
      | some w => .error (.notAnArray w.kind name)

/-- An array that is allocated empty and then written to is allocated with the element. -/
theorem Store.setElement_alloc (s : Store) (i : Number) (v : Value) :
    (s.alloc .empty).1.setElement (s.alloc .empty).2 i v = (s.alloc (.ofList [(i, v)])).1 := by
  have hcells : (s.cells.push Tree.empty).modify s.cells.size (fun es => es.insert i v) =
      s.cells.push (Tree.empty.insert i v) := by
    apply Array.ext
    · simp
    · intro j hj hj'
      simp only [Array.getElem_modify, Array.getElem_push]
      split <;> split <;> simp_all <;> omega
  simp only [alloc, setElement, set, Tree.ofList, Tree.insertAll, List.foldl, hcells]

/-- A target is written to as a whole or not at all: a fault leaves the state as it was. -/
theorem Target.write_eq (h : Heap) (s : Store) (t : Target) (v : Value) :
    t.write h s v =
      match t.assign h s v with
      | .ok (h', s') => (h', s', none)
      | .error c => (h, s, some c) := by
  unfold write assign
  split
  · rfl
  · split
    · rfl
    · cases h.follow _ _ <;> rfl
  · rename_i name index
    cases index.evalIndex h s with
    | error c => rfl
    | ok i =>
      dsimp only
      split
      · rw [Store.setElement_alloc]
        rfl
      · rfl
      · rfl

end AddressCode
