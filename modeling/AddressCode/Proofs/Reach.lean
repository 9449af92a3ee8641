import AddressCode.Assign
import AddressCode.Params
import AddressCode.Proofs.Maps
import Mathlib.Data.Set.BooleanAlgebra
import Mathlib.Data.Set.Disjoint
import Mathlib.Order.CompletePartialOrder

/-!
# AddressCode.Proofs.Reach — the arrays that a value holds

`Store.Reach` says which cells are found in a value, through elements of elements to any depth, and
`Store.footprint` collects them for a list of values.

* `reach_congr`: the footprint of a value depends on nothing but the cells in it.
* `reach_eval`: evaluating an expression finds no array that the variables do not hold.
* `Changes.assign`: an assignment changes only arrays of its own heap, and the heap afterwards holds
  only these and new ones.
* `BuildLaw`: what holds of everything that is built from a content.
* `Fresh.clone`: a copy changes no array and holds only new ones.
-/

namespace AddressCode

/-- The value of a content that is no array with storage. -/
def Content.leaf? : Content → Option Value
  | .undefined => some .undefined
  | .scalar x => some (.scalar x)
  | .boolean b => some (.boolean b)
  | .pointer name => some (.pointer name)
  | .unallocated => some (.array none)
  | .array _ | .cycle => none

/-- An assignment to an element makes a new array, or it writes to the one that the variable
holds. -/
theorem Target.assign_element_eq_ok_iff {h h' : Heap} {s s' : Store} {x : String} {i : Expr}
    {v : Value} :
    (Target.element x i).assign h s v = .ok (h', s') ↔ ∃ k, i.evalIndex h s = .ok k ∧
      (h.lookup? x = none ∧ h' = h.set x (s.alloc (.ofList [(k, v)])).2 ∧
          s' = (s.alloc (.ofList [(k, v)])).1 ∨
        ∃ c, h.lookup? x = some (.array (some c)) ∧ h' = h ∧ s' = s.set c k v) := by
  simp only [Target.assign]
  cases hk : i.evalIndex h s with
  | error c => simp
  | ok k =>
    simp only [Except.ok.injEq, exists_eq_left']
    cases hx : h.lookup? x with
    | none => simp [eq_comm]
    | some w => rcases w with _ | _ | _ | _ | ⟨_ | c⟩ <;> simp [eq_comm]

namespace Store

/-- The cells found in a value. -/
inductive Reach (s : Store) : Value → Nat → Prop where
  | here (c : Nat) : Reach s (.array (some c)) c
  | inside {c d : Nat} {e : Number × Value} (he : e ∈ (s.elements c).entries)
      (h : Reach s e.2 d) : Reach s (.array (some c)) d

/-- The cells found in some values. -/
def footprint (s : Store) (vs : List Value) : Set Nat := { c | ∃ v ∈ vs, s.Reach v c }

variable {s s' : Store} {v w : Value} {c d : Nat} {vs ws : List Value}

/-! ## Footprints -/

theorem reach_iff_array : s.Reach v d ↔ ∃ c, v = .array (some c) ∧
    (d = c ∨ ∃ e ∈ (s.elements c).entries, s.Reach e.2 d) := by
  constructor
  · intro h
    cases h with
    | here => exact ⟨d, rfl, Or.inl rfl⟩
    | inside he h => exact ⟨_, rfl, Or.inr ⟨_, he, h⟩⟩
  · rintro ⟨c, rfl, rfl | ⟨e, he, h⟩⟩
    · exact .here d
    · exact .inside he h

theorem footprint_mono (h : ∀ v ∈ vs, v ∈ ws) : s.footprint vs ⊆ s.footprint ws := by
  rintro c ⟨v, hv, hc⟩
  exact ⟨v, h v hv, hc⟩

theorem footprint_append : s.footprint (vs ++ ws) = s.footprint vs ∪ s.footprint ws := by
  ext c
  constructor
  · rintro ⟨v, hv, hc⟩
    rcases List.mem_append.mp hv with hv | hv
    · exact Or.inl ⟨v, hv, hc⟩
    · exact Or.inr ⟨v, hv, hc⟩
  · rintro (⟨v, hv, hc⟩ | ⟨v, hv, hc⟩)
    · exact ⟨v, List.mem_append_left ws hv, hc⟩
    · exact ⟨v, List.mem_append_right vs hv, hc⟩

@[simp]
theorem footprint_nil : s.footprint [] = ∅ := by
  simp [footprint]

/-- A store that keeps the elements of every cell in a value keeps the cells in it. -/
theorem reach_of_reach (heq : ∀ c, s.Reach v c → s'.elements c = s.elements c)
    (h : s'.Reach v d) : s.Reach v d := by
  induction h with
  | here c => exact .here c
  | @inside c d e he _ ih =>
    rw [heq c (.here c)] at he
    have hin : ∀ c', s.Reach e.2 c' → s'.elements c' = s.elements c' :=
      fun c' hc' => heq c' (.inside he hc')
    exact .inside he (ih hin)

/-- The cells in a value depend on nothing but the elements of these cells. -/
theorem reach_congr (heq : ∀ c, s.Reach v c → s'.elements c = s.elements c) :
    s'.Reach v d ↔ s.Reach v d := by
  constructor
  · exact reach_of_reach heq
  · -- the cells in `v` are the same in both stores, so the assumption can be turned around
    intro h
    induction h with
    | here c => exact .here c
    | @inside c d e he _ ih =>
      have hin : ∀ c', s.Reach e.2 c' → s'.elements c' = s.elements c' :=
        fun c' hc' => heq c' (.inside he hc')
      have he' : e ∈ (s'.elements c).entries := by
        rw [heq c (.here c)]
        exact he
      exact .inside he' (ih hin)

theorem footprint_congr (heq : ∀ c ∈ s.footprint vs, s'.elements c = s.elements c) :
    s'.footprint vs = s.footprint vs := by
  ext c
  constructor
  · rintro ⟨v, hv, hc⟩
    exact ⟨v, hv, (reach_congr fun c' hc' => heq c' ⟨v, hv, hc'⟩).mp hc⟩
  · rintro ⟨v, hv, hc⟩
    exact ⟨v, hv, (reach_congr fun c' hc' => heq c' ⟨v, hv, hc'⟩).mpr hc⟩

/-! ## Cells -/

theorem elements_empty (c : Nat) : (empty.elements c).entries = [] := by
  simp [elements, get?, empty, Tree.empty, Tree.entries]

/-- A cell that does not exist has no elements. -/
theorem elements_of_le (h : s.cells.size ≤ c) : s.elements c = .empty := by
  simp [elements, get?, h]

theorem elements_alloc_of_lt (es : Elements) (h : c < s.cells.size) :
    (s.alloc es).1.elements c = s.elements c := by
  simp [alloc, elements, get?, Array.getElem?_push, Nat.ne_of_lt h]

theorem elements_alloc_size (es : Elements) : (s.alloc es).1.elements s.cells.size = es := by
  simp [alloc, elements, get?]

/-- A new array holds its cell and what is found in its elements. -/
theorem reach_alloc {es : Elements} (hlt : ∀ e ∈ es.entries, ∀ c, s.Reach e.2 c → c < s.cells.size)
    (h : (s.alloc es).1.Reach (s.alloc es).2 d) :
    d = s.cells.size ∨ ∃ e ∈ es.entries, s.Reach e.2 d := by
  obtain ⟨c, hc, rfl | ⟨e, he, hd⟩⟩ := reach_iff_array.mp h
  · exact Or.inl (by simpa [alloc] using hc.symm)
  · have hcell : c = s.cells.size := by simpa [alloc] using hc.symm
    rw [hcell, elements_alloc_size] at he
    have hold : ∀ c', s.Reach e.2 c' → (s.alloc es).1.elements c' = s.elements c' :=
      fun c' hc' => elements_alloc_of_lt es (hlt e he c' hc')
    exact Or.inr ⟨e, he, reach_of_reach hold hd⟩

theorem elements_set_of_ne {cell : Nat} (i : Number) (h : c ≠ cell) :
    (s.set cell i v).elements c = s.elements c := by
  simp [set, elements, get?, Array.getElem?_modify, Ne.symm h]

theorem elements_set_self (i : Number) (h : c < s.cells.size) :
    (s.set c i v).elements c = (s.elements c).insert i v := by
  have hcell : s.cells[c]? = some s.cells[c] := Array.getElem?_eq_getElem h
  simp [set, elements, get?, Array.getElem?_modify, hcell]

theorem size_set (c : Nat) (i : Number) : (s.set c i v).cells.size = s.cells.size := by
  simp [set]

theorem size_alloc (es : Elements) : (s.alloc es).1.cells.size = s.cells.size + 1 := by
  simp [alloc]

/-- Writing an element brings no value but its own into any cell. -/
theorem mem_elements_set {cell : Nat} {i : Number} {e : Number × Value}
    (he : e ∈ ((s.set cell i v).elements c).entries) :
    e.2 = v ∨ e ∈ (s.elements c).entries := by
  by_cases hc : c = cell
  · subst hc
    simp only [set, elements, get?, Array.getElem?_modify, if_true] at he
    cases hs : s.cells[c]? with
    | none => simp [hs, Tree.empty, Tree.entries] at he
    | some es =>
      simp only [hs, Option.map_some, Option.getD_some] at he
      rcases Tree.mem_entries_insert he with rfl | he
      · exact Or.inl rfl
      · exact Or.inr (by simpa [elements, get?, hs] using he)
  · rw [elements_set_of_ne i hc] at he
    exact Or.inr he

/-- What is found after an element was written was found before, or is found in the element. -/
theorem reach_set {cell : Nat} {i : Number} (h : (s.set cell i w).Reach v d) :
    s.Reach v d ∨ s.Reach w d := by
  induction h with
  | here c => exact Or.inl (.here c)
  | inside he _ ih =>
    rcases mem_elements_set he with hw | he
    · rw [hw] at ih
      exact Or.inr (ih.elim id id)
    · rcases ih with ih | ih
      · exact Or.inl (.inside he ih)
      · exact Or.inr ih

/-! ## Expressions -/

variable {h : Heap}

/-- A variable that is read holds nothing that the heap does not hold. -/
theorem reach_lookup {name : String} (hv : h.lookup? name = some v) (hd : s.Reach v d) :
    d ∈ s.footprint h.values :=
  ⟨v, Heap.mem_values_of_lookup hv, hd⟩

/-- An element that is read is found in the array. -/
theorem reach_element {cell : Option Nat} {i : Number} {x : Operand}
    (hv : s.element cell i x = .ok v) (hd : s.Reach v d) : s.Reach (.array cell) d := by
  unfold element at hv
  split at hv
  · cases hv
  · rename_i es hes
    obtain ⟨c, rfl, hc⟩ := Option.bind_eq_some_iff.mp hes
    split at hv
    · rename_i w hw
      cases hv
      obtain ⟨e, he, rfl⟩ := Tree.mem_of_get? hw
      have hel : s.elements c = es := by simp [elements, hc]
      exact .inside (hel ▸ he) hd
    · cases hv

/-- Reading through pointers finds nothing that the heap does not hold. -/
theorem reach_deref {x : Operand} {depth : Nat} (hv : h.deref x depth = .ok v)
    (hd : s.Reach v d) : d ∈ s.footprint h.values := by
  unfold Heap.deref at hv
  split at hv
  · split at hv
    · split at hv
      · rename_i target _
        cases hv
        -- a target without a value stands for an undefined one
        cases ht : h.lookup? target with
        | none =>
          rw [ht] at hd
          cases hd
        | some w =>
          rw [ht] at hd
          exact reach_lookup ht hd
      · cases hv
    · cases hv
  · cases hv

theorem reach_operand {x : Operand} (hv : x.eval h s = .ok v) (hd : s.Reach v d) :
    d ∈ s.footprint h.values := by
  rcases x with _ | ⟨y, lexeme⟩ | name | ⟨name, index⟩
  · simp [Operand.eval] at hv
  · simp only [Operand.eval] at hv
    cases hv
    cases hd
  · simp only [Operand.eval] at hv
    split at hv
    · rename_i w hw
      cases hv
      exact reach_lookup hw hd
    · cases hv
  · simp only [Operand.eval] at hv
    split at hv
    · rename_i cell hcell
      -- the index only chooses the element
      split at hv
      · cases hv
      · split at hv
        · cases hv
        · exact reach_lookup hcell (reach_element hv hd)
    · cases hv

/-- What an operator between two values gives is a number or a truth value. -/
theorem not_reach_applyValues {op : BinaryOp} {text : String} {x y : Value}
    (hv : op.applyValues text x y = .ok v) : ¬ s.Reach v d := by
  intro hd
  unfold BinaryOp.applyValues at hv
  split at hv
  · cases op <;> cases hv <;> cases hd
  · split at hv <;> cases hv <;> cases hd

theorem not_reach_negate {x : Operand} (hv : w.negate x = .ok v) : ¬ s.Reach v d := by
  intro hd
  unfold Value.negate at hv
  split at hv
  · cases hv
    cases hd
  · cases hv

theorem not_reach_addressOf {x : Operand} (hv : h.addressOf x = .ok v) : ¬ s.Reach v d := by
  intro hd
  unfold Heap.addressOf at hv
  split at hv
  · split at hv
    · cases hv
      cases hd
    · cases hv
  · cases hv

/-- The value of an expression holds nothing that the heap does not hold. -/
theorem reach_eval {x : Expr} (hv : x.eval h s = .ok v) (hd : s.Reach v d) :
    d ∈ s.footprint h.values := by
  cases x with
  | atomic x =>
    simp only [Expr.eval] at hv
    exact reach_operand hv hd
  | unary op x =>
    simp only [Expr.eval] at hv
    split at hv
    · cases hv
    · split at hv
      · split at hv
        · cases hv
        · exact absurd hd (not_reach_negate hv)
      · exact reach_deref hv hd
      · exact absurd hd (not_reach_addressOf hv)
      · cases hv
  | binary op x y =>
    simp only [Expr.eval] at hv
    split at hv
    · cases hv
    · split at hv
      · cases hv
      · split at hv
        · cases hv
        · exact absurd hd (not_reach_applyValues hv)

/-! ## Assignments -/

/-- A store is changed only in the cells of `F`, and grows. -/
structure Changes (s s' : Store) (F : Set Nat) : Prop where
  size_le : s.cells.size ≤ s'.cells.size
  elements_eq : ∀ c, c < s.cells.size → c ∉ F → s'.elements c = s.elements c

/-- The cells that a store has got. -/
def added (s s' : Store) : Set Nat := { c | s.cells.size ≤ c ∧ c < s'.cells.size }

theorem Changes.refl (s : Store) (F : Set Nat) : Changes s s F :=
  ⟨Nat.le_refl _, fun _ _ _ => rfl⟩

/-- A footprint that is apart from the changes, and in existing cells, stays. -/
theorem Changes.footprint_eq {F : Set Nat} (hch : Changes s s' F)
    (hlt : ∀ c ∈ s.footprint vs, c < s.cells.size) (hF : Disjoint F (s.footprint vs)) :
    s'.footprint vs = s.footprint vs := by
  apply footprint_congr
  intro c hc
  exact hch.elements_eq c (hlt c hc) fun hcF => Set.disjoint_left.mp hF hcF hc

/-- What a heap holds after a variable was set to a value. -/
theorem footprint_heap_set {name : String} {F : Set Nat} (hh : s.footprint h.values ⊆ F)
    (hv : ∀ d, s.Reach v d → d ∈ F) : s.footprint (h.set name v).values ⊆ F := by
  rintro d ⟨w, hw, hd⟩
  rcases Heap.mem_values_set hw with rfl | hw
  · exact hv d hd
  · exact hh ⟨w, hw, hd⟩

/-- An assignment changes no cell but those that the heap holds, and afterwards the heap holds
nothing but these and new ones. -/
theorem Changes.assign {t : Target} {h' : Heap}
    (hlt : ∀ c ∈ s.footprint h.values, c < s.cells.size)
    (hv : ∀ d, s.Reach v d → d ∈ s.footprint h.values)
    (ha : t.assign h s v = .ok (h', s')) :
    Changes s s' (s.footprint h.values) ∧
      s'.footprint h'.values ⊆ s.footprint h.values ∪ added s s' := by
  -- a variable is set, and the store stays
  have hset : ∀ name, s.footprint (h.set name v).values ⊆ s.footprint h.values ∪ added s s :=
    fun name => footprint_heap_set Set.subset_union_left fun d hd => Or.inl (hv d hd)
  unfold Target.assign at ha
  split at ha
  · cases ha
    exact ⟨.refl s _, hset _⟩
  · split at ha
    · cases ha
    · split at ha
      · cases ha
        exact ⟨.refl s _, hset _⟩
      · cases ha
  · rename_i name index
    split at ha
    · cases ha
    · rename_i i hi
      split at ha
      · -- the variable becomes an array in a new cell
        cases ha
        have hgrow : Changes s (s.alloc (.ofList [(i, v)])).1 ∅ :=
          ⟨by simp [alloc], fun c hc _ => elements_alloc_of_lt _ hc⟩
        have hold := hgrow.footprint_eq hlt (Set.empty_disjoint _)
        have hnew : s.cells.size ∈ added s (s.alloc (.ofList [(i, v)])).1 := by
          simp [added, alloc]
        refine ⟨⟨hgrow.size_le, fun c hc _ => hgrow.elements_eq c hc (Set.notMem_empty c)⟩, ?_⟩
        apply footprint_heap_set
        · exact hold.trans_subset Set.subset_union_left
        · intro d hd
          have hone : ∀ e ∈ (Tree.ofList [(i, v)] : Elements).entries, e.2 = v := by
            intro e he
            have he' := Tree.mem_entries_ofList he
            simp only [List.mem_singleton] at he'
            rw [he']
          have hes : ∀ e ∈ (Tree.ofList [(i, v)] : Elements).entries,
              ∀ c, s.Reach e.2 c → c < s.cells.size :=
            fun e he c hc => hlt c (hv c (hone e he ▸ hc))
          rcases reach_alloc hes hd with rfl | ⟨e, he, hd⟩
          · exact Or.inr hnew
          · exact Or.inl (hv d (hone e he ▸ hd))
      · -- an element of an array that the variable holds is written
        rename_i cell hcell
        cases ha
        have hmem : cell ∈ s.footprint h.values := reach_lookup hcell (.here cell)
        refine ⟨⟨by simp [set], ?_⟩, ?_⟩
        · intro c _ hc
          exact elements_set_of_ne i fun heq => hc (heq ▸ hmem)
        · rintro d ⟨w, hw, hd⟩
          rcases reach_set hd with hd | hd
          · exact Or.inl ⟨w, hw, hd⟩
          · exact Or.inl (hv d hd)
      · cases ha

/-! ## Building -/

/-- What makes a fact `P` hold of everything that is built from a content, and a fact `Q` of all
elements that are built: one case for each way of building. -/
structure BuildLaw (P : Store → Content → Store → Value → Prop)
    (Q : Store → List (Number × Content) → Store → List (Number × Value) → Prop) : Prop where
  leaf : ∀ {s : Store} {x : Content} {v : Value}, x.leaf? = some v → P s x s v
  array : ∀ {s s' : Store} {items : List (Number × Content)} {es : List (Number × Value)},
    s.buildItems items = some (s', es) → Q s items s' es →
      P s (.array items) (s'.alloc (.ofList es)).1 (s'.alloc (.ofList es)).2
  nil : ∀ {s : Store}, Q s [] s []
  cons : ∀ {s s₁ s₂ : Store} {i : Number} {x : Content} {v : Value}
    {rest : List (Number × Content)} {es : List (Number × Value)},
    s.build x = some (s₁, v) → s₁.buildItems rest = some (s₂, es) → P s x s₁ v →
      Q s₁ rest s₂ es → Q s ((i, x) :: rest) s₂ ((i, v) :: es)

section

variable {P : Store → Content → Store → Value → Prop}
  {Q : Store → List (Number × Content) → Store → List (Number × Value) → Prop}

mutual

theorem BuildLaw.build {s s' : Store} {v : Value} (law : BuildLaw P Q) :
    (x : Content) → s.build x = some (s', v) → P s x s' v
  | .undefined, h | .scalar _, h | .boolean _, h | .pointer _, h | .unallocated, h => by
    simp only [Store.build] at h
    cases h
    exact law.leaf rfl
  | .array items, h => by
    simp only [Store.build] at h
    split at h
    · rename_i s₁ es hes
      cases h
      exact law.array hes (law.buildItems items hes)
    · cases h
  | .cycle, h => by
    simp only [Store.build] at h
    cases h

theorem BuildLaw.buildItems {s s' : Store} {es : List (Number × Value)} (law : BuildLaw P Q) :
    (items : List (Number × Content)) → s.buildItems items = some (s', es) → Q s items s' es
  | [], h => by
    simp only [Store.buildItems] at h
    cases h
    exact law.nil
  | (i, x) :: rest, h => by
    simp only [Store.buildItems] at h
    split at h
    · cases h
    · rename_i s₁ v hv
      split at h
      · cases h
      · rename_i s₂ es' hes
        cases h
        exact law.cons hv hes (law.build x hv) (law.buildItems rest hes)

end

end

/-! ## Copies -/

/-- A store has grown without changing, and the values hold nothing but what it has got. -/
structure Fresh (s s' : Store) (vs : List Value) : Prop where
  changes : Changes s s' ∅
  footprint_subset : s'.footprint vs ⊆ added s s'

/-- A value without an array is as good as a fresh one. -/
theorem Fresh.of_not_reach (hv : ∀ d, ¬ s.Reach v d) : Fresh s s [v] := by
  refine ⟨.refl s ∅, ?_⟩
  rintro d ⟨w, hw, hd⟩
  rw [List.mem_singleton] at hw
  exact absurd (hw ▸ hd) (hv d)

/-- Fresh values stay fresh when others are made. -/
theorem Fresh.append {s₁ s₂ : Store} (h₁ : Fresh s s₁ vs) (h₂ : Fresh s₁ s₂ ws) :
    Fresh s s₂ (vs ++ ws) := by
  have hle₁ := h₁.changes.size_le
  have hle₂ := h₂.changes.size_le
  refine ⟨⟨Nat.le_trans hle₁ hle₂, ?_⟩, ?_⟩
  · intro c hc hempty
    rw [h₂.changes.elements_eq c (Nat.lt_of_lt_of_le hc hle₁) hempty]
    exact h₁.changes.elements_eq c hc hempty
  · -- what was made first is not changed by what was made after it
    have hlt : ∀ c ∈ s₁.footprint vs, c < s₁.cells.size :=
      fun c hc => (h₁.footprint_subset hc).2
    have hvs : s₂.footprint vs = s₁.footprint vs :=
      h₂.changes.footprint_eq hlt (Set.empty_disjoint _)
    rw [footprint_append, hvs]
    rintro d (hd | hd)
    · obtain ⟨hlo, hhi⟩ := h₁.footprint_subset hd
      exact ⟨hlo, Nat.lt_of_lt_of_le hhi hle₂⟩
    · obtain ⟨hlo, hhi⟩ := h₂.footprint_subset hd
      exact ⟨Nat.le_trans hle₁ hlo, hhi⟩

/-- An array of fresh elements is fresh. -/
theorem Fresh.alloc {es : List (Number × Value)} (hes : Fresh s s' (es.map (·.2))) :
    Fresh s (s'.alloc (.ofList es)).1 [(s'.alloc (.ofList es)).2] := by
  have hmem : ∀ e ∈ (Tree.ofList es : Elements).entries, ∀ d, s'.Reach e.2 d → d ∈ added s s' := by
    intro e he d hd
    have he' := Tree.mem_entries_ofList he
    exact hes.footprint_subset ⟨e.2, List.mem_map_of_mem he', hd⟩
  have hsize : (s'.alloc (.ofList es)).1.cells.size = s'.cells.size + 1 := by simp [Store.alloc]
  refine ⟨⟨?_, ?_⟩, ?_⟩
  · rw [hsize]
    exact Nat.le_succ_of_le hes.changes.size_le
  · intro c hc hempty
    rw [elements_alloc_of_lt _ (Nat.lt_of_lt_of_le hc hes.changes.size_le)]
    exact hes.changes.elements_eq c hc hempty
  · rintro d ⟨w, hw, hd⟩
    rw [List.mem_singleton] at hw
    rw [hw] at hd
    rcases reach_alloc (fun e he c hc => (hmem e he c hc).2) hd with rfl | ⟨e, he, hd⟩
    · exact ⟨hes.changes.size_le, by rw [hsize]; exact Nat.lt_succ_self _⟩
    · obtain ⟨hlo, hhi⟩ := hmem e he d hd
      exact ⟨hlo, by rw [hsize]; exact Nat.lt_succ_of_lt hhi⟩

/-- What is built from a content is fresh, and so are the elements that are built from contents. -/
theorem fresh_law : BuildLaw (fun s _ s' v => Fresh s s' [v])
    (fun s _ s' es => Fresh s s' (es.map (·.2))) where
  leaf {_ x _} hx := by
    apply Fresh.of_not_reach
    intro d hd
    cases x <;> cases hx <;> cases hd
  array _ hes := hes.alloc
  nil := ⟨.refl _ ∅, by simp⟩
  cons _ _ hv hes := hv.append hes

theorem Fresh.build (x : Content) (h : s.build x = some (s', v)) : Fresh s s' [v] :=
  fresh_law.build x h

theorem Fresh.buildItems {es : List (Number × Value)} (items : List (Number × Content))
    (h : s.buildItems items = some (s', es)) : Fresh s s' (es.map (·.2)) :=
  fresh_law.buildItems items h

/-- A copy of a value is fresh. -/
theorem Fresh.clone (h : s.clone? v = some (s', w)) : Fresh s s' [w] :=
  Fresh.build _ h

end Store

end AddressCode
