import AddressCode.Proofs.PointerAccess
import AddressCode.Proofs.WellFormedValues

/-!
# AddressCode.Proofs.ElementWrites — an indexed write changes one element of one array

An array may be known under several names and be an element of other arrays, and the index and the
value of an assignment `x[i] = e` may be read from the very array that is written.  They are read
before the write, so what changes is settled by the state before it.

* The assignment writes to the array that the variable holds, or it makes the variable a new array
  (`Target.assign_element_eq_ok_iff`).
* `Store.ElementSet` and `Store.ArrayAdded` say what this comes to for all arrays of the store.
  Both rest on the order of the indices (`Tree.get?_insert`), as no array of a run has an index that
  is no number.
* `element_write` puts this together for the heaps of all active frames.
-/

namespace AddressCode

/-! ## Assignments to elements -/

section Assign

variable {h : Heap} {s s' : Store} {k : Number} {i : Expr}

/-- An index is the number of a value, if it is a number. -/
theorem Expr.evalIndex_eq_ok_iff :
    i.evalIndex h s = .ok k ↔
      ∃ w, i.eval h s = .ok w ∧ w.number? = some k ∧ k.isNaN = false := by
  have hindex : ∀ w : Value, w.asIndex i = .ok k ↔ w.number? = some k ∧ k.isNaN = false := by
    intro w
    unfold Value.asIndex
    cases w.number? with
    | none => simp
    | some n =>
      by_cases hn : n.isNaN = true
      · simp only [hn, if_true, reduceCtorEq, Option.some.injEq, false_iff, not_and]
        rintro rfl hk
        rw [hn] at hk
        cases hk
      · simp only [hn, Bool.false_eq_true, if_false, Except.ok.injEq, Option.some.injEq]
        refine ⟨?_, And.left⟩
        rintro rfl
        exact ⟨rfl, Bool.eq_false_of_not_eq_true hn⟩
  unfold Expr.evalIndex
  cases hw : i.eval h s with
  | error c => simp
  | ok w => simp [hindex]

/-- An assignment that succeeds changes the heap and the store as writing to its target does. -/
theorem Activation.execute_assign_eq_next_iff {limit : Nat} {a a' : Activation} {t : Target}
    {y : Expr} : a.execute limit s (.assign t y) = .signal a' s' .next ↔
      ∃ v h', y.eval a.heap s = .ok v ∧ t.assign a.heap s v = .ok (h', s') ∧
        a' = a.withHeap h' := by
  constructor
  · intro hexec
    rw [Activation.execute_assign] at hexec
    split at hexec
    · cases hexec
    · rename_i v hv
      split at hexec
      · cases hexec
      · rename_i h₁ s₁ ht
        cases hexec
        exact ⟨v, h₁, hv, ht, rfl⟩
  · rintro ⟨v, h', hv, ht, rfl⟩
    simp only [Activation.execute_assign, hv, ht]

/-- An assignment to an element succeeds if its expression and its index have values, that of the
index is a number, and the variable is undefined or an array. -/
theorem Activation.execute_element_iff {limit : Nat} {a : Activation} {x : String} {y : Expr}
    (hcell : ∀ cell, a.heap.lookup? x = some (.array cell) → ∃ c, cell = some c) :
    (∃ a' s', a.execute limit s (.assign (.element x i) y) = .signal a' s' .next) ↔
      (∃ v, y.eval a.heap s = .ok v) ∧
      (∃ w k, i.eval a.heap s = .ok w ∧ w.number? = some k ∧ k.isNaN = false) ∧
      (a.heap.lookup? x = none ∨ ∃ cell, a.heap.lookup? x = some (.array cell)) := by
  simp only [execute_assign_eq_next_iff, Target.assign_element_eq_ok_iff, Expr.evalIndex_eq_ok_iff]
  constructor
  · rintro ⟨_, _, v, _, hv, ⟨k, ⟨w, hw⟩, hcases⟩, -⟩
    refine ⟨⟨v, hv⟩, ⟨w, k, hw⟩, ?_⟩
    rcases hcases with ⟨hnone, -⟩ | ⟨c, hc, -⟩
    · exact Or.inl hnone
    · exact Or.inr ⟨some c, hc⟩
  · rintro ⟨⟨v, hv⟩, ⟨w, k, hw⟩, hnone | ⟨cell, hc⟩⟩
    · exact ⟨_, _, v, _, hv, ⟨k, ⟨w, hw⟩, Or.inl ⟨hnone, rfl, rfl⟩⟩, rfl⟩
    · obtain ⟨c, rfl⟩ := hcell cell hc
      exact ⟨_, _, v, _, hv, ⟨k, ⟨w, hw⟩, Or.inr ⟨c, hc, rfl, rfl⟩⟩, rfl⟩

/-- An element is read from the array that the variable holds. -/
theorem Operand.eval_element {z : String} {j : Expr} {c : Nat} {v : Value}
    (hz : h.lookup? z = some (.array (some c))) (hj : j.evalIndex h s = .ok k)
    (hv : ∀ o, s.element (some c) k o = .ok v) : (Operand.element z j).eval h s = .ok v := by
  obtain ⟨u, hu, hnumber, hk⟩ := Expr.evalIndex_eq_ok_iff.mp hj
  have hindex : u.asIndex j = .ok k := by simp [Value.asIndex, hnumber, hk]
  simp only [Operand.eval, hz, hu, hindex, hv]

end Assign

/-! ## What becomes of the arrays -/

namespace Store

variable {s s' : Store} {v w : Value} {c : Nat} {k : Number}

/-- The store `s'` is `s` but for one element: the array in the cell `c` has the value `v` at the
index `k`, and at every other index what it had before.  Whoever refers to the array reads the new
element, and the texts of all values in which the array is not found are the same. -/
structure ElementSet (s : Store) (c : Nat) (k : Number) (v : Value) (s' : Store) : Prop where
  size_eq : s'.cells.size = s.cells.size
  other_arrays : ∀ d ≠ c, s'.get? d = s.get? d
  listed : (k, v) ∈ (s'.elements c).entries
  indices : ∀ n : Number, n.isNaN = false →
    (s'.elements c).get? n = if n.eq k then some v else (s.elements c).get? n
  aliases : ∀ (n : Number) (x : Operand), n.eq k = true → s'.element (some c) n x = .ok v
  texts : ∀ w, ¬ s.Reach w c → s'.text? w = s.text? w

/-- The store `s'` is `s` with one more array, whose only element is `v` at the index `k`. -/
structure ArrayAdded (s : Store) (k : Number) (v : Value) (s' : Store) : Prop where
  size_eq : s'.cells.size = s.cells.size + 1
  other_arrays : ∀ d < s.cells.size, s'.get? d = s.get? d
  single : (s'.elements s.cells.size).entries = [(k, v)]
  aliases : ∀ (n : Number) (x : Operand), n.eq k = true →
    s'.element (some s.cells.size) n x = .ok v

/-- A cell with a value at an index reads this value. -/
theorem element_of_get? (hc : c < s.cells.size) {n : Number} (hn : (s.elements c).get? n = some v)
    (x : Operand) : s.element (some c) n x = .ok v := by
  simp only [element, Option.bind_some, get?_of_lt hc, hn]

theorem elementSet_set (hc : c < s.cells.size) (hasc : Ascending (s.elements c).entries)
    (hk : k.isNaN = false) (v : Value) : s.ElementSet c k v (s.set c k v) := by
  have hindices : ∀ n : Number, n.isNaN = false →
      ((s.set c k v).elements c).get? n = if n.eq k then some v else (s.elements c).get? n := by
    intro n hn
    rw [elements_set_self k hc]
    exact Tree.get?_insert hasc hk hn
  refine ⟨size_set c k, ?_, ?_, hindices, ?_, ?_⟩
  · intro d hd
    simp [set, get?, Array.getElem?_modify, Ne.symm hd]
  · rw [elements_set_self k hc]
    exact Tree.mem_insert_self
  · intro n x hn
    refine element_of_get? (by rwa [size_set]) ?_ x
    have hnum : n.isNaN = false := by
      simp only [Number.eq, Bool.and_eq_true, Bool.not_eq_true'] at hn
      exact hn.1.1
    rw [hindices n hnum, if_pos hn]
  · -- the cell that is written is not one of those found in the value
    intro w hw
    refine text?_congr fun d hd => elements_set_of_ne k ?_
    rintro rfl
    exact hw hd

theorem arrayAdded_alloc (hk : k.isNaN = false) (v : Value) :
    s.ArrayAdded k v (s.alloc (.ofList [(k, v)])).1 := by
  have hasc : Ascending [(k, v)] := ⟨by simpa using hk, List.pairwise_singleton _ _⟩
  have hsingle : ((s.alloc (.ofList [(k, v)])).1.elements s.cells.size).entries = [(k, v)] := by
    rw [elements_alloc_size, Tree.entries_ofList hasc]
  refine ⟨size_alloc _, ?_, hsingle, ?_⟩
  · intro d hd
    simp [alloc, get?, Array.getElem?_push, Nat.ne_of_lt hd]
  · intro n x hn
    have hsize : s.cells.size < (s.alloc (.ofList [(k, v)])).1.cells.size := by simp [alloc]
    refine element_of_get? hsize ?_ x
    simp only [Number.eq, Bool.and_eq_true, Bool.not_eq_true', beq_iff_eq] at hn
    have hold : Ascending ((s.alloc (.ofList [(k, v)])).1.elements s.cells.size).entries := by
      rwa [hsingle]
    refine (Tree.get?_eq_some_iff hold hn.1.1).mpr ⟨k, ?_, hn.2.symm⟩
    rw [hsingle]
    exact List.mem_singleton_self _

/-- A value whose arrays exist does not hold an array that is added, and keeps its text. -/
theorem ArrayAdded.apart (h : s.ArrayAdded k v s') (hclosed : s.Closed) (hw : w.Stored s) :
    ¬ s'.Reach w s.cells.size ∧ s'.text? w = s.text? w := by
  have hlt : ∀ d, s.Reach w d → d < s.cells.size := fun d hd => reach_lt hclosed hw hd
  have hsame : ∀ d, s.Reach w d → s'.elements d = s.elements d := by
    intro d hd
    rw [elements, elements, h.other_arrays d (hlt d hd)]
  exact ⟨fun hnew => Nat.lt_irrefl _ (hlt _ (reach_of_reach hsame hnew)), text?_congr hsame⟩

end Store

/-! ## States of a run -/

/-- A value is in a variable or a pending parameter of an active frame, or it was printed. -/
def Machine.Carries (m : Machine) (w : Value) : Prop :=
  (∃ a ∈ m.activations, w ∈ a.heap.values ∨ w ∈ a.params.values) ∨ ∃ r ∈ m.log, w = r.value

namespace Machine

variable {m : Machine} {I : Store → Prop} {P : Store → Value → Prop}

theorem HoldsAll.active (h : m.HoldsAll I P) : ∀ a ∈ m.activations, a.Holds P m.store :=
  List.forall_mem_cons.mpr ⟨h.current, h.callers⟩

theorem HoldsAll.carried (h : m.HoldsAll I P) {w : Value} (hw : m.Carries w) : P m.store w := by
  rcases hw with ⟨a, ha, hw | hw⟩ | ⟨r, hr, rfl⟩
  · exact (h.active a ha).heap w hw
  · exact (h.active a ha).params w hw
  · exact h.log r hr

end Machine

namespace Engine

open Machine

variable {e : Engine} {m : Machine} {a : Activation} {x : String}

/-- In every state of a session and every active frame, an assignment `x[i] = y` succeeds if and
only if both expressions have values, that of the index is a number, and `x` is undefined or an
array.

If `x` was an array, no variable changes, and no array but this one, which has the new element and
keeps all others.  If `x` was undefined, it becomes a new array with the single element; no other
variable, no array there was and no text changes, and no value of any frame holds the new array.

Afterwards the element is read, through `x` and through every other variable with the same array, at
every index expression whose value in the state after the write is numerically equal to the
index. -/
theorem element_write (he : e.Session) (hm : m = e.machine ∨ e.Reached m) (ha : a ∈ m.activations)
    (hx : x ≠ "") (limit : Nat) (i y : Expr) :
    ((∃ a' s', a.execute limit m.store (.assign (.element x i) y) = .signal a' s' .next) ↔
      (∃ v, y.eval a.heap m.store = .ok v) ∧
      (∃ w k, i.eval a.heap m.store = .ok w ∧ w.number? = some k ∧ k.isNaN = false) ∧
      (a.heap.lookup? x = none ∨ ∃ cell, a.heap.lookup? x = some (.array cell))) ∧
    ∀ v w k a' s', y.eval a.heap m.store = .ok v → i.eval a.heap m.store = .ok w →
      w.number? = some k →
      a.execute limit m.store (.assign (.element x i) y) = .signal a' s' .next →
      (∀ c, a.heap.lookup? x = some (.array (some c)) → a' = a ∧ m.store.ElementSet c k v s') ∧
      (a.heap.lookup? x = none →
        a' = a.withHeap (a.heap.set x (.array (some m.store.cells.size))) ∧
        a'.heap.lookup? x = some (.array (some m.store.cells.size)) ∧
        (∀ name ≠ x, a'.heap.tag? name = a.heap.tag? name) ∧
        m.store.ArrayAdded k v s' ∧
        ∀ u, m.Carries u → ¬ s'.Reach u m.store.cells.size ∧ s'.text? u = m.store.text? u) ∧
      ∀ z (j : Expr) n, a'.heap.lookup? z = a'.heap.lookup? x → j.evalIndex a'.heap s' = .ok n →
        n.eq k = true → (Operand.element z j).eval a'.heap s' = .ok v := by
  have hkept := Store.sound_law.kept_log
  have hall : m.HoldsAll Store.Sound fun s v => v.Stored s ∧ v.isDefined = true := by
    rcases hm with rfl | hm
    · exact hkept.session he
    · exact hkept.reached he hm
  -- an array in a variable is in a cell of the store
  have hcell : ∀ cell, a.heap.lookup? x = some (.array cell) →
      ∃ c, cell = some c ∧ c < m.store.cells.size := fun cell hcell =>
    ((hall.active a ha).heap _ (Heap.mem_values_of_lookup hcell)).1
  refine ⟨Activation.execute_element_iff fun cell hc => (hcell cell hc).imp fun _ => And.left, ?_⟩
  intro v w k a' s' hv hw hnumber hexec
  obtain ⟨v', h', hv', hassign, rfl⟩ := Activation.execute_assign_eq_next_iff.mp hexec
  obtain rfl := Except.ok.inj (hv'.symm.trans hv)
  obtain ⟨k', hk', hcases⟩ := Target.assign_element_eq_ok_iff.mp hassign
  obtain ⟨w', hw', hnumber', hk⟩ := Expr.evalIndex_eq_ok_iff.mp hk'
  obtain rfl := Except.ok.inj (hw'.symm.trans hw)
  obtain rfl := Option.some.inj (hnumber'.symm.trans hnumber)
  rcases hcases with ⟨hnone, rfl, rfl⟩ | ⟨c, hc, rfl, rfl⟩
  · -- the variable was undefined
    have hadded := Store.arrayAdded_alloc (s := m.store) hk v'
    have hnew : (a.heap.set x (.array (some m.store.cells.size))).lookup? x =
        some (.array (some m.store.cells.size)) := Heap.lookup?_set_self a.heap hx rfl
    refine ⟨?_, fun _ => ⟨rfl, hnew, ?_, hadded, ?_⟩, fun z j n hz hj hn => ?_⟩
    · intro c hc
      rw [hnone] at hc
      cases hc
    · exact fun name hne => Heap.tag?_set_of_ne a.heap _ hne
    · exact fun u hu => hadded.apart hall.store.closed (hall.carried hu).1
    · exact Operand.eval_element (hz.trans hnew) hj fun o => hadded.aliases n o hn
  · -- the variable held the array in the cell `c`
    obtain ⟨_, ⟨⟩, hlt⟩ := hcell (some c) hc
    have hset := Store.elementSet_set hlt (hall.store.ascends c) hk v'
    refine ⟨?_, ?_, fun z j n hz hj hn => ?_⟩
    · intro d hd
      obtain rfl := Option.some.inj (Value.array.inj (Option.some.inj (hc.symm.trans hd)))
      exact ⟨rfl, hset⟩
    · intro hnone
      rw [hnone] at hc
      cases hc
    · exact Operand.eval_element (hz.trans hc) hj fun o => hset.aliases n o hn

/-- An engine whose program writes to an array, at an index read from it, the array itself. -/
def writingSelf : Engine := (Engine.new {}).load <| .ofStrings
  ["a[0] = 0", "b = a", "a[a[0]] = a"]

/-- Before its last line the write succeeds, and the other variable with the array has the new
element. -/
theorem element_write_writingSelf : ∃ m a' s', writingSelf.Reached m ∧
    m.current.execute 0 m.store (.assign
      (.element "a" (.atomic (.element "a" (.atomic (.literal .zero none)))))
      (.atomic (.variable "a"))) = .signal a' s' .next ∧
    (Operand.element "b" (.atomic (.literal .zero none))).eval a'.heap s' =
      .ok (.array (some 0)) := by
  have hrun : (writingSelf.exec [] 2).2 = .running := by decide +kernel
  obtain ⟨m, hreached, ha, hb, hindex⟩ : ∃ m, writingSelf.Reached m ∧
      m.current.heap.lookup? "a" = some (.array (some 0)) ∧
      m.current.heap.lookup? "b" = some (.array (some 0)) ∧
      (Expr.atomic (.element "a" (.atomic (.literal .zero none)))).eval m.current.heap m.store =
        .ok (.scalar .zero) :=
    ⟨_, reached_exec writingSelf [] 2 hrun, by decide +kernel⟩
  have hvalue : (Expr.atomic (.variable "a")).eval m.current.heap m.store =
      .ok (.array (some 0)) := by
    simp only [Expr.eval, Operand.eval, ha]
  have hsession : writingSelf.Session := .load (.new {}) _
  obtain ⟨hiff, hwrite⟩ := element_write hsession (Or.inr hreached) List.mem_cons_self
    (show "a" ≠ "" by decide) 0 (.atomic (.element "a" (.atomic (.literal .zero none))))
    (.atomic (.variable "a"))
  have hzero : Number.zero.isNaN = false ∧ Number.zero.eq .zero = true := by decide +kernel
  obtain ⟨a', s', hexec⟩ := hiff.mpr
    ⟨⟨_, hvalue⟩, ⟨_, .zero, hindex, rfl, hzero.1⟩, Or.inr ⟨_, ha⟩⟩
  obtain ⟨hold, -, hread⟩ := hwrite _ _ .zero a' s' hvalue hindex rfl hexec
  obtain ⟨rfl, -⟩ := hold 0 ha
  have hj : (Expr.atomic (.literal .zero none)).evalIndex m.current.heap s' = .ok .zero := by
    rw [Expr.evalIndex_eq_ok_iff]
    exact ⟨.scalar .zero, by simp only [Expr.eval, Operand.eval], rfl, hzero.1⟩
  exact ⟨m, m.current, s', hreached, hexec, hread "b" _ .zero (hb.trans ha.symm) hj hzero.2⟩

end Engine

end AddressCode
