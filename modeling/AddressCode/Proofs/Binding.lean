import AddressCode.Proofs.Ascii
import AddressCode.Proofs.Maps
import AddressCode.Proofs.Values

/-!
# AddressCode.Proofs.Binding — the variables that hold arguments

A callee finds its arguments in the variables p0, p1 and so on.  The names differ however many there
are (`Heap.inputName_inj`), so no argument takes the place of another one.  Every value of a run is
defined (`Store.defined_law`), and so are these variables: a heap that held nothing before defines
exactly them (`Heap.lookup?_bind`).
-/

namespace AddressCode

/-! ## Names of inputs -/

namespace Heap

variable {i j : Nat} {name : String} {vs : List Value}

/-- Inputs at different positions have different names: the digits give the number back. -/
theorem inputName_inj (h : inputName i = inputName j) : i = j :=
  Text.toString_inj ((String.append_right_inj _).mp h)

theorem inputName_ne_empty (i : Nat) : inputName i ≠ "" := by
  intro h
  have hchars := congrArg String.toList h
  simp [inputName] at hchars

theorem tag?_set_self (h : Heap) (v : Value) (hname : name ≠ "") :
    (h.set name v).tag? name = some v := by
  rw [set, if_neg hname, tag?, Ordered.get?_insert, if_pos (Std.ReflCmp.compare_self)]

/-- Binding inputs from position `i` on sets no other variable. -/
theorem tag?_bindFrom_of_ne (h : Heap) (hname : ∀ j, name ≠ inputName (i + j)) :
    (h.bindFrom i vs).tag? name = h.tag? name := by
  induction vs generalizing h i with
  | nil => rfl
  | cons v vs ih =>
    have hrest : ∀ j, name ≠ inputName (i + 1 + j) := by
      intro j
      have hne := hname (j + 1)
      rwa [Nat.add_comm j 1, ← Nat.add_assoc] at hne
    rw [bindFrom, ih _ hrest]
    exact tag?_set_of_ne h v (hname 0)

theorem tag?_bindFrom (h : Heap) (i j : Nat) (vs : List Value) :
    (h.bindFrom i vs).tag? (inputName (i + j)) = vs[j]?.or (h.tag? (inputName (i + j))) := by
  induction vs generalizing h i j with
  | nil => rfl
  | cons v vs ih =>
    rw [bindFrom]
    cases j with
    | zero =>
      -- the inputs that are bound later have other names
      have hne : ∀ k, inputName (i + 0) ≠ inputName (i + 1 + k) := by
        intro k heq
        have hpos := inputName_inj heq
        omega
      rw [tag?_bindFrom_of_ne _ hne, Nat.add_zero, tag?_set_self _ _ (inputName_ne_empty i)]
      rfl
    | succ j =>
      have hne : inputName (i + 1 + j) ≠ inputName i := by
        intro heq
        have hpos := inputName_inj heq
        omega
      have hpos : i + (j + 1) = i + 1 + j := by omega
      rw [hpos, ih, tag?_set_of_ne _ _ hne, List.getElem?_cons_succ]

/-- Of an empty heap in which arguments were bound exactly the variables of the arguments are
defined, each with its argument. -/
theorem lookup?_bind (hdef : ∀ v ∈ vs, v.isDefined = true) {v : Value} :
    (empty.bind vs).lookup? name = some v ↔ ∃ i : Nat, name = inputName i ∧ vs[i]? = some v := by
  have hinput : ∀ i, (empty.bind vs).tag? (inputName i) = vs[i]? := by
    intro i
    have htag := tag?_bindFrom empty 0 i vs
    rw [Nat.zero_add] at htag
    rw [bind, htag]
    exact Option.or_none
  rw [lookup?, Option.filter_eq_some_iff]
  constructor
  · rintro ⟨htag, -⟩
    by_cases hname : ∃ i, name = inputName i
    · obtain ⟨i, rfl⟩ := hname
      exact ⟨i, rfl, (hinput i).symm.trans htag⟩
    · have hne : ∀ j, name ≠ inputName (0 + j) := fun j heq => hname ⟨0 + j, heq⟩
      rw [bind, tag?_bindFrom_of_ne _ hne] at htag
      cases htag
  · rintro ⟨i, rfl, hv⟩
    exact ⟨(hinput i).trans hv, hdef v (List.mem_of_getElem? hv)⟩

end Heap

/-! ## Values are defined -/

/-- All elements of arrays are defined. -/
def Store.Filled (s : Store) : Prop := ∀ c, ∀ e ∈ (s.elements c).entries, e.2.isDefined = true

/-- All elements of the arrays in a content are defined, and it is the content of something
defined. -/
inductive Content.Filled : Content → Prop where
  | leaf {x : Content} {v : Value} (h : x.leaf? = some v) (hv : v.isDefined = true) : Filled x
  | array {items : List (Number × Content)} (h : ∀ e ∈ items, Filled e.2) : Filled (.array items)
  | cycle : Filled .cycle

namespace Store

variable {s s' : Store} {v : Value}

theorem Filled.alloc (h : s.Filled) {es : Elements}
    (hes : ∀ e ∈ es.entries, e.2.isDefined = true) : (s.alloc es).1.Filled := by
  intro c e he
  rcases Nat.lt_trichotomy c s.cells.size with hlt | rfl | hgt
  · rw [elements_alloc_of_lt es hlt] at he
    exact h c e he
  · rw [elements_alloc_size] at he
    exact hes e he
  · have hnone : (s.alloc es).1.cells.size ≤ c := by
      rw [size_alloc]
      exact hgt
    rw [elements_of_le hnone] at he
    cases he

theorem Filled.contentFrom (h : s.Filled) {n : Nat} {path : List Nat} (hv : v.isDefined = true) :
    (s.contentFrom n path v).Filled := by
  induction n generalizing path v with
  | zero =>
    cases v with
    | array cell =>
      cases cell with
      | none => exact .leaf rfl hv
      | some c => exact .cycle
    | _ => exact .leaf rfl hv
  | succ n ih =>
    cases v with
    | array cell =>
      cases cell with
      | none => exact .leaf rfl hv
      | some c =>
        simp only [Store.contentFrom]
        split
        · exact .cycle
        · refine .array ?_
          intro e he
          obtain ⟨e', he', rfl⟩ := List.mem_map.mp he
          exact ih (h c e' he')
    | _ => exact .leaf rfl hv

theorem filled_law : BuildLaw
    (fun s x s' v => x.Filled → s.Filled → s'.Filled ∧ v.isDefined = true)
    (fun s items s' es => (∀ e ∈ items, e.2.Filled) → s.Filled →
      s'.Filled ∧ ∀ e ∈ es, e.2.isDefined = true) where
  leaf hleaf hx h := by
    cases hx with
    | leaf hleaf' hv => exact ⟨h, Option.some.inj (hleaf'.symm.trans hleaf) ▸ hv⟩
    | array => cases hleaf
    | cycle => cases hleaf
  array _ hitems hx h := by
    cases hx with
    | leaf hleaf => cases hleaf
    | array hall =>
      obtain ⟨h', hdefined⟩ := hitems hall h
      exact ⟨h'.alloc fun e he => hdefined e (Tree.mem_entries_ofList he), rfl⟩
  nil _ h := ⟨h, by simp⟩
  cons {_ _ _ i x _ rest _} _ _ hx hrest hall h := by
    obtain ⟨h₁, hv⟩ := hx (hall (i, x) (by simp)) h
    obtain ⟨h₂, hvs⟩ := hrest (fun e he => hall e (by simp [he])) h₁
    exact ⟨h₂, List.forall_mem_cons.mpr ⟨hv, hvs⟩⟩

/-- Every value of a run is defined. -/
theorem defined_law : ValueLaw Filled fun _ v => v.isDefined = true where
  empty := by
    intro c e he
    rw [elements_empty] at he
    cases he
  plain {_ v} hv := by cases v <;> first | rfl | cases hv
  grow _ hv := hv
  element h he := h _ _ he
  alloc h hv _ := by
    refine ⟨h.alloc ?_, rfl⟩
    intro e he
    rw [List.mem_singleton.mp (Tree.mem_entries_ofList he)]
    exact hv
  set h hv _ := by
    intro d e he
    rcases mem_elements_set he with rfl | he
    · exact hv
    · exact h d e he
  clone h hv hw := filled_law.build _ hw (h.contentFrom hv) h

end Store

end AddressCode
