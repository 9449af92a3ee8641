import AddressCode.Proofs.Values
import Mathlib.Data.List.Perm.Subperm
import Mathlib.Data.Set.Function

/-!
# AddressCode.Proofs.Renaming — the numbers of cells do not matter

A value can be read with other numbers for its cells (`Value.rename`).  `Store.Renames` says that a
store has some cells of another one under other numbers, no two of them under the same.  Whatever is
done to values and arrays in these cells is done alike in both stores:

* expressions have the same value up to the numbers, or fail in the same way (`Renames.eval`);
* assignments write alike (`Renames.assign`);
* values have the same content (`Renames.content`), and copies are made alike (`Renames.clone`).

That no two cells get the same number matters for the equality of arrays, which compares cells.
-/

namespace AddressCode

/-! ## Maps and trees -/

/-- Change the values of a tree. -/
def Tree.map {κ α β : Type} (f : α → β) : Tree κ α → Tree κ β
  | .leaf => .leaf
  | .node c l k v r => .node c (l.map f) k (f v) (r.map f)

namespace Tree

variable {κ α β : Type} (f : α → β)

@[simp]
theorem entries_map (t : Tree κ α) :
    (t.map f).entries = t.entries.map fun e => (e.1, f e.2) := by
  induction t with
  | leaf => rfl
  | node c l k v r ihl ihr => simp [map, entries, ihl, ihr]

@[simp]
theorem isRed_map (t : Tree κ α) : (t.map f).isRed = t.isRed := by
  rcases t with _ | ⟨_ | _, _, _, _, _⟩ <;> rfl

@[simp]
theorem blacken_map (t : Tree κ α) : (t.map f).blacken = t.blacken.map f := by
  cases t <;> rfl

theorem mendLeft_map (l : Tree κ α) (k : κ) (v : α) (r : Tree κ α) :
    mendLeft (l.map f) k (f v) (r.map f) = (mendLeft l k v r).map f := by
  rcases l with _ | ⟨_ | _, ll, lk, lv, lr⟩
  · rfl
  · simp only [map, mendLeft, isRed_map]
    split
    · split
      · rw [blacken_map]
        rfl
      · split
        · rfl
        · cases lr <;> rfl
    · rfl
  · rfl

theorem mendRight_map (l : Tree κ α) (k : κ) (v : α) (r : Tree κ α) :
    mendRight (l.map f) k (f v) (r.map f) = (mendRight l k v r).map f := by
  rcases r with _ | ⟨_ | _, rl, rk, rv, rr⟩
  · rfl
  · simp only [map, mendRight, isRed_map]
    split
    · split
      · rw [blacken_map]
        rfl
      · split
        · rfl
        · cases rl <;> rfl
    · rfl
  · rfl

variable [Ord κ]

theorem insertBelow_map (t : Tree κ α) (k : κ) (v : α) :
    (t.map f).insertBelow k (f v) = (t.insertBelow k v).map f := by
  induction t with
  | leaf => rfl
  | node c l x w r ihl ihr =>
    simp only [map, insertBelow]
    split
    · cases c
      · simp [joinLeft, map, ihl]
      · simp [joinLeft, ihl, mendLeft_map]
    · rfl
    · cases c
      · simp [joinRight, map, ihr]
      · simp [joinRight, ihr, mendRight_map]

theorem insert_map (t : Tree κ α) (k : κ) (v : α) :
    (t.map f).insert k (f v) = (t.insert k v).map f := by
  simp [insert, insertBelow_map]

theorem get?_map (t : Tree κ α) (k : κ) : (t.map f).get? k = (t.get? k).map f := by
  induction t with
  | leaf => rfl
  | node c l x w r ihl ihr =>
    simp only [map, get?]
    split
    · exact ihl
    · rfl
    · exact ihr

theorem ofList_map (es : List (κ × α)) :
    ofList (es.map fun e => (e.1, f e.2)) = (ofList es).map f := by
  have hall : ∀ t : Tree κ α,
      (t.map f).insertAll (es.map fun e => (e.1, f e.2)) = (t.insertAll es).map f := by
    induction es with
    | nil => exact fun _ => rfl
    | cons e es ih =>
      intro t
      have hhead := insert_map f t e.1 e.2
      simp only [insertAll, List.map_cons, List.foldl_cons] at ih ⊢
      rw [hhead, ih]
  exact hall empty

omit [Ord κ] in
/-- Only the values in a tree matter. -/
theorem map_congr {f g : α → β} {t : Tree κ α} (h : ∀ e ∈ t.entries, f e.2 = g e.2) :
    t.map f = t.map g := by
  induction t with
  | leaf => rfl
  | node c l k v r ihl ihr =>
    have hl := ihl fun e he => h e (by simp [entries, he])
    have hr := ihr fun e he => h e (by simp [entries, he])
    have hv : f v = g v := h (k, v) (by simp [entries])
    simp [map, hl, hr, hv]

end Tree

namespace Ordered

variable {κ α β : Type} (f : α → β)

/-- Change the values of a map. -/
def map (m : Ordered κ α) : Ordered κ β := ⟨m.entries.map fun e => (e.1, f e.2)⟩

variable [Ord κ]

theorem get?_map (m : Ordered κ α) (k : κ) : (m.map f).get? k = (m.get? k).map f := by
  simp [get?, find?, map, List.find?_map, Function.comp_def]

theorem insert_map (m : Ordered κ α) (k : κ) (v : α) :
    (m.map f).insert k (f v) = (m.insert k v).map f := by
  obtain ⟨es⟩ := m
  simp only [insert, map, mk.injEq]
  induction es with
  | nil => rfl
  | cons e es ih =>
    simp only [List.map_cons, insertEntry]
    split <;> simp [ih]

end Ordered

/-! ## Values and heaps -/

namespace Value

/-- A value with other numbers for its cells. -/
def rename (ρ : Nat → Nat) : Value → Value
  | .array cell => .array (cell.map ρ)
  | v => v

/-- If a value is an array, it is one of the cells in `D`. -/
def Within (D : Set Nat) (v : Value) : Prop := ∀ c, v = .array (some c) → c ∈ D

variable {ρ ρ' : Nat → Nat} {D D' : Set Nat} {v w : Value}

theorem rename_array (cell : Option Nat) : (array cell).rename ρ = .array (cell.map ρ) := rfl

@[simp]
theorem kind_rename (v : Value) : (v.rename ρ).kind = v.kind := by cases v <;> rfl

@[simp]
theorem isDefined_rename (v : Value) : (v.rename ρ).isDefined = v.isDefined := by cases v <;> rfl

@[simp]
theorem number?_rename (v : Value) : (v.rename ρ).number? = v.number? := by cases v <;> rfl

@[simp]
theorem ref?_rename (v : Value) : (v.rename ρ).ref? = v.ref? := by cases v <;> rfl

@[simp]
theorem truthy_rename (v : Value) : (v.rename ρ).truthy = v.truthy := by cases v <;> rfl

@[simp]
theorem asIndex_rename (v : Value) (x : Expr) : (v.rename ρ).asIndex x = v.asIndex x := by
  simp [asIndex]

theorem within_of_isPlain (h : v.isPlain = true) : v.Within D := by
  rintro c rfl
  cases h

theorem Within.mono (h : v.Within D) (hsub : D ⊆ D') : v.Within D' :=
  fun c hc => hsub (h c hc)

/-- Only the numbers of the cells in a value matter. -/
theorem Within.rename_eq (h : v.Within D) (heq : Set.EqOn ρ' ρ D) : v.rename ρ' = v.rename ρ := by
  rcases v with _ | _ | _ | _ | ⟨_ | c⟩
  any_goals rfl
  simp [rename, heq (h c rfl)]

/-- Arrays are the same cell under other numbers if they are the same cell. -/
theorem equal_rename (hinj : Set.InjOn ρ D) (hv : v.Within D) (hw : w.Within D) :
    (v.rename ρ).equal (w.rename ρ) = v.equal w := by
  rcases v with _ | _ | _ | _ | ⟨_ | c⟩ <;> rcases w with _ | _ | _ | _ | ⟨_ | d⟩
  any_goals rfl
  have hcd : ρ c = ρ d ↔ c = d := hinj.eq_iff (hv c rfl) (hw d rfl)
  simp [rename, equal, hcd]

end Value

namespace Heap

variable {ρ : Nat → Nat}

/-- The variables with other numbers for their cells. -/
def rename (ρ : Nat → Nat) (h : Heap) : Heap := ⟨h.tags.map (Value.rename ρ)⟩

@[simp]
theorem lookup?_rename (h : Heap) (name : String) :
    (h.rename ρ).lookup? name = (h.lookup? name).map (Value.rename ρ) := by
  simp only [lookup?, tag?, rename, Ordered.get?_map]
  cases h.tags.get? name with
  | none => rfl
  | some v => cases hd : v.isDefined <;> simp [Option.filter, hd]

@[simp]
theorem has_rename (h : Heap) (name : String) : (h.rename ρ).has name = h.has name := by
  simp [has]

theorem set_rename (h : Heap) (name : String) (v : Value) :
    (h.rename ρ).set name (v.rename ρ) = (h.set name v).rename ρ := by
  unfold set
  split
  · rfl
  · simp [rename, Ordered.insert_map]

/-- Only the numbers of the cells in the variables matter. -/
theorem rename_eq {ρ' : Nat → Nat} {D : Set Nat} {h : Heap} (hh : ∀ w ∈ h.values, w.Within D)
    (heq : Set.EqOn ρ' ρ D) : h.rename ρ' = h.rename ρ := by
  simp only [rename, Ordered.map, mk.injEq, Ordered.mk.injEq]
  refine List.map_congr_left ?_
  intro e he
  have hw : e.2.Within D := hh e.2 (mem_values.mpr ⟨e, he, rfl⟩)
  rw [hw.rename_eq heq]

theorem within_set {D : Set Nat} {h : Heap} {name : String} {v : Value}
    (hh : ∀ w ∈ h.values, w.Within D) (hv : v.Within D) :
    ∀ w ∈ (h.set name v).values, w.Within D := by
  intro w hw
  rcases mem_values_set hw with rfl | hw
  · exact hv
  · exact hh w hw

theorem bindFrom_rename (h : Heap) (i : Nat) (vs : List Value) :
    (h.rename ρ).bindFrom i (vs.map (Value.rename ρ)) = (h.bindFrom i vs).rename ρ := by
  induction vs generalizing h i with
  | nil => rfl
  | cons v vs ih => simp only [List.map_cons, bindFrom, set_rename, ih]

@[simp]
theorem follow_rename (h : Heap) (name : String) (depth : Nat) :
    (h.rename ρ).follow name depth = h.follow name depth := by
  have hfrom : ∀ start name, (h.rename ρ).followFrom start depth name =
      h.followFrom start depth name := by
    induction depth with
    | zero => simp [followFrom]
    | succ depth ih =>
      intro start name
      simp only [followFrom, lookup?_rename]
      cases h.lookup? name with
      | none => rfl
      | some v => simp [ih]
  exact hfrom name name

theorem deref_rename (h : Heap) (x : Operand) (depth : Nat) :
    (h.rename ρ).deref x depth = (h.deref x depth).map (Value.rename ρ) := by
  unfold deref
  split
  · simp only [has_rename, follow_rename, lookup?_rename]
    split
    · split
      · rename_i target _
        cases h.lookup? target <;> rfl
      · rfl
    · rfl
  · rfl

theorem addressOf_rename (h : Heap) (x : Operand) :
    (h.rename ρ).addressOf x = (h.addressOf x).map (Value.rename ρ) := by
  unfold addressOf
  split
  · rw [has_rename]
    split <;> rfl
  · rfl

end Heap

/-! ## Cells under other numbers -/

namespace Store

/-- The store `t` has the cells `D` of the store `s` under the numbers that `ρ` gives them. -/
structure Renames (ρ : Nat → Nat) (D : Set Nat) (s t : Store) : Prop where
  exist : ∀ c ∈ D, c < s.cells.size ∧ ρ c < t.cells.size
  inj : Set.InjOn ρ D
  closed : ∀ c ∈ D, ∀ e ∈ (s.elements c).entries, e.2.Within D
  elements : ∀ c ∈ D, t.elements (ρ c) = (s.elements c).map (Value.rename ρ)

variable {ρ ρ' : Nat → Nat} {D D' : Set Nat} {s s' t t' : Store} {h : Heap} {v w : Value}

theorem get?_of_lt {c : Nat} (hc : c < s.cells.size) : s.get? c = some (s.elements c) := by
  simp [elements, get?, hc]

namespace Renames

/-- An element is found alike. -/
theorem element (hr : Renames ρ D s t) {cell : Option Nat} (hc : (Value.array cell).Within D)
    (i : Number) (x : Operand) :
    t.element (cell.map ρ) i x = (s.element cell i x).map (Value.rename ρ) := by
  cases cell with
  | none => rfl
  | some c =>
    have hmem := hc c rfl
    obtain ⟨hlt, hlt'⟩ := hr.exist c hmem
    simp only [Store.element, Option.map_some, Option.bind_some, get?_of_lt hlt, get?_of_lt hlt',
      hr.elements c hmem, Tree.get?_map]
    cases (s.elements c).get? i <;> rfl

/-- What an expression finds stays within the cells. -/
theorem within_eval (hr : Renames ρ D s t) (hh : ∀ w ∈ h.values, w.Within D) {x : Expr}
    (hv : x.eval h s = .ok v) : v.Within D :=
  Expr.eval_origin (fun _ hw _ => Value.within_of_isPlain hw) hh
    (fun c hc => hr.closed c (hh _ hc c rfl)) hv

theorem within_operand (hr : Renames ρ D s t) (hh : ∀ w ∈ h.values, w.Within D) {x : Operand}
    (hv : x.eval h s = .ok v) : v.Within D := by
  refine hr.within_eval hh (x := .atomic x) ?_
  simpa [Expr.eval] using hv

/-- An operator between two values gives the same. -/
theorem applyValues (hr : Renames ρ D s t) (op : BinaryOp) (text : String) (hv : v.Within D)
    (hw : w.Within D) : op.applyValues text (v.rename ρ) (w.rename ρ) =
      (op.applyValues text v w).map (Value.rename ρ) := by
  unfold BinaryOp.applyValues
  simp only [Value.number?_rename, Value.kind_rename, Value.equal_rename hr.inj hv hw]
  split
  · cases op <;> rfl
  · split <;> rfl

mutual

theorem evalOperand (hr : Renames ρ D s t) (hh : ∀ w ∈ h.values, w.Within D) :
    (x : Operand) → x.eval (h.rename ρ) t = (x.eval h s).map (Value.rename ρ)
  | .missing => by
    simp only [Operand.eval]
    rfl
  | .literal x lexeme => by
    simp only [Operand.eval]
    rfl
  | .variable name => by
    simp only [Operand.eval, Heap.lookup?_rename]
    cases h.lookup? name <;> rfl
  | .element name index => by
    have hindex := eval hr hh index
    simp only [Operand.eval, Heap.lookup?_rename, hindex]
    cases hl : h.lookup? name with
    | none => rfl
    | some v =>
      cases v with
      | array cell =>
        simp only [Option.map_some, Value.rename]
        cases index.eval h s with
        | error c => rfl
        | ok i =>
          simp only [Except.map, Value.asIndex_rename]
          cases i.asIndex index with
          | error c => rfl
          | ok k => exact hr.element (hh _ (Heap.mem_values_of_lookup hl)) k _
      | _ => rfl

/-- An expression has the same value up to the numbers of cells, or fails in the same way. -/
theorem eval (hr : Renames ρ D s t) (hh : ∀ w ∈ h.values, w.Within D) :
    (x : Expr) → x.eval (h.rename ρ) t = (x.eval h s).map (Value.rename ρ)
  | .atomic x => by
    simp only [Expr.eval]
    exact evalOperand hr hh x
  | .unary op x => by
    simp only [Expr.eval]
    split
    · rfl
    · split
      · rw [evalOperand hr hh x]
        cases x.eval h s with
        | error c => rfl
        | ok v =>
          simp only [Except.map, Value.negate, Value.number?_rename, Value.kind_rename]
          cases v.number? <;> rfl
      · exact Heap.deref_rename h x _
      · exact Heap.addressOf_rename h x
      · rfl
  | .binary op x y => by
    simp only [Expr.eval]
    split
    · rfl
    · rw [evalOperand hr hh x, evalOperand hr hh y]
      cases hx : x.eval h s with
      | error c => rfl
      | ok v =>
        cases hy : y.eval h s with
        | error c => rfl
        | ok w => exact hr.applyValues _ op (hr.within_operand hh hx) (hr.within_operand hh hy)

end

theorem evalIndex (hr : Renames ρ D s t) (hh : ∀ w ∈ h.values, w.Within D) (x : Expr) :
    x.evalIndex (h.rename ρ) t = x.evalIndex h s := by
  unfold Expr.evalIndex
  rw [hr.eval hh x]
  cases x.eval h s <;> simp [Except.map]

end Renames

/-! ## New cells -/

/-- Two stores have got more cells, and some of the new ones are under the numbers of others.  The
old ones have kept their numbers. -/
structure Grows (ρ : Nat → Nat) (D : Set Nat) (s t : Store) (ρ' : Nat → Nat) (D' : Set Nat)
    (s' t' : Store) : Prop where
  subset : D ⊆ D'
  agree : Set.EqOn ρ' ρ D
  size_le : s.cells.size ≤ s'.cells.size ∧ t.cells.size ≤ t'.cells.size
  new : ∀ c ∈ D', c ∈ D ∨
    (s.cells.size ≤ c ∧ c < s'.cells.size) ∧ t.cells.size ≤ ρ' c ∧ ρ' c < t'.cells.size

theorem Grows.refl (ρ : Nat → Nat) (D : Set Nat) (s t : Store) : Grows ρ D s t ρ D s t :=
  ⟨subset_rfl, fun _ _ => rfl, ⟨Nat.le_refl _, Nat.le_refl _⟩, fun _ hc => Or.inl hc⟩

theorem Grows.trans {ρ₁ ρ₂ : Nat → Nat} {D₁ D₂ : Set Nat} {s₁ s₂ t₁ t₂ : Store}
    (h : Grows ρ D s t ρ₁ D₁ s₁ t₁) (h' : Grows ρ₁ D₁ s₁ t₁ ρ₂ D₂ s₂ t₂) :
    Grows ρ D s t ρ₂ D₂ s₂ t₂ := by
  refine ⟨h.subset.trans h'.subset, ?_, ?_, ?_⟩
  · intro c hc
    rw [h'.agree (h.subset hc), h.agree hc]
  · exact ⟨Nat.le_trans h.size_le.1 h'.size_le.1, Nat.le_trans h.size_le.2 h'.size_le.2⟩
  · intro c hc
    rcases h'.new c hc with hc | ⟨⟨hlo, hhi⟩, hlo', hhi'⟩
    · rcases h.new c hc with hc' | ⟨⟨hlo, hhi⟩, hlo', hhi'⟩
      · exact Or.inl hc'
      · rw [h'.agree hc]
        have hle := h'.size_le
        exact Or.inr ⟨⟨hlo, Nat.lt_of_lt_of_le hhi hle.1⟩, hlo', Nat.lt_of_lt_of_le hhi' hle.2⟩
    · have hle := h.size_le
      exact Or.inr ⟨⟨Nat.le_trans hle.1 hlo, hhi⟩, Nat.le_trans hle.2 hlo', hhi'⟩

namespace Renames

/-- The number of a new cell. -/
def extend (ρ : Nat → Nat) (s t : Store) : Nat → Nat :=
  Function.update ρ s.cells.size t.cells.size

theorem extend_self : extend ρ s t s.cells.size = t.cells.size := Function.update_self _ _ _

/-- The old cells keep their numbers. -/
theorem extend_agree (hr : Renames ρ D s t) : Set.EqOn (extend ρ s t) ρ D :=
  fun c hc => Function.update_of_ne (Nat.ne_of_lt (hr.exist c hc).1) _ _

/-- No old cell has the number of the new one. -/
theorem extend_inj (hr : Renames ρ D s t) :
    Set.InjOn (extend ρ s t) (insert s.cells.size D) := by
  have hnew : ∀ c ∈ D, extend ρ s t c ≠ t.cells.size := by
    intro c hc
    rw [hr.extend_agree hc]
    exact Nat.ne_of_lt (hr.exist c hc).2
  rintro c (rfl | hc) d (rfl | hd) heq
  · rfl
  · exact absurd (heq.symm.trans extend_self) (hnew d hd)
  · exact absurd (heq.trans extend_self) (hnew c hc)
  · rw [hr.extend_agree hc, hr.extend_agree hd] at heq
    exact hr.inj hc hd heq

theorem within_alloc (es : Elements) : (s.alloc es).2.Within (insert s.cells.size D) := by
  intro c hc
  cases hc
  exact Set.mem_insert _ _

/-- A new cell in both stores. -/
theorem grows_alloc (hr : Renames ρ D s t) (es es' : Elements) :
    Grows ρ D s t (extend ρ s t) (insert s.cells.size D) (s.alloc es).1 (t.alloc es').1 := by
  refine ⟨Set.subset_insert _ _, hr.extend_agree, ?_, ?_⟩
  · rw [size_alloc, size_alloc]
    exact ⟨Nat.le_succ _, Nat.le_succ _⟩
  · rw [size_alloc, size_alloc]
    rintro c (rfl | hc)
    · rw [extend_self]
      exact Or.inr ⟨⟨Nat.le_refl _, Nat.lt_succ_self _⟩, Nat.le_refl _, Nat.lt_succ_self _⟩
    · exact Or.inl hc

/-- An array of elements within the cells gets a new cell in both stores. -/
theorem alloc (hr : Renames ρ D s t) {es : Elements} (hes : ∀ e ∈ es.entries, e.2.Within D) :
    Renames (extend ρ s t) (insert s.cells.size D) (s.alloc es).1
        (t.alloc (es.map (Value.rename ρ))).1 ∧
      Grows ρ D s t (extend ρ s t) (insert s.cells.size D) (s.alloc es).1
        (t.alloc (es.map (Value.rename ρ))).1 ∧
      (t.alloc (es.map (Value.rename ρ))).2 = (s.alloc es).2.rename (extend ρ s t) := by
  have hrename : ∀ {es : Elements}, (∀ e ∈ es.entries, e.2.Within D) →
      es.map (Value.rename (extend ρ s t)) = es.map (Value.rename ρ) :=
    fun hes => Tree.map_congr fun e he => (hes e he).rename_eq hr.extend_agree
  have hsub : D ⊆ insert s.cells.size D := Set.subset_insert _ _
  refine ⟨⟨?_, hr.extend_inj, ?_, ?_⟩, hr.grows_alloc _ _, ?_⟩
  · rw [size_alloc, size_alloc]
    rintro c (rfl | hc)
    · rw [extend_self]
      exact ⟨Nat.lt_succ_self _, Nat.lt_succ_self _⟩
    · rw [hr.extend_agree hc]
      obtain ⟨hlt, hlt'⟩ := hr.exist c hc
      exact ⟨Nat.lt_succ_of_lt hlt, Nat.lt_succ_of_lt hlt'⟩
  · rintro c (rfl | hc) e he
    · rw [elements_alloc_size] at he
      exact (hes e he).mono hsub
    · rw [elements_alloc_of_lt es (hr.exist c hc).1] at he
      exact (hr.closed c hc e he).mono hsub
  · rintro c (rfl | hc)
    · rw [extend_self, elements_alloc_size, elements_alloc_size, hrename hes]
    · obtain ⟨hlt, hlt'⟩ := hr.exist c hc
      rw [hr.extend_agree hc, elements_alloc_of_lt _ hlt', elements_alloc_of_lt _ hlt,
        hrename (hr.closed c hc)]
      exact hr.elements c hc
  · simp [Store.alloc, Value.rename, extend_self]

/-- An element is written alike. -/
theorem set (hr : Renames ρ D s t) {c : Nat} (hc : c ∈ D) (i : Number) (hv : v.Within D) :
    Renames ρ D (s.set c i v) (t.set (ρ c) i (v.rename ρ)) := by
  constructor
  · rw [size_set, size_set]
    exact hr.exist
  · exact hr.inj
  · intro d hd e he
    rcases mem_elements_set he with heq | he
    · rw [heq]
      exact hv
    · exact hr.closed d hd e he
  · intro d hd
    by_cases hcd : d = c
    · obtain ⟨hlt, hlt'⟩ := hr.exist d hd
      rw [← hcd, elements_set_self i hlt', elements_set_self i hlt, hr.elements d hd,
        Tree.insert_map]
    · have hne : ρ d ≠ ρ c := fun heq => hcd (hr.inj hd hc heq)
      rw [elements_set_of_ne i hne, elements_set_of_ne i hcd]
      exact hr.elements d hd

/-- An assignment fails alike. -/
theorem assign_error (hr : Renames ρ D s t) (hh : ∀ w ∈ h.values, w.Within D) {target : Target}
    {c : Cause} (ha : target.assign h s v = .error c) :
    target.assign (h.rename ρ) t (v.rename ρ) = .error c := by
  unfold Target.assign at ha ⊢
  split at ha
  · cases ha
  · split at ha
    · rename_i hdeep
      simp only [hdeep, if_true]
      exact ha
    · rename_i hdeep
      simp only [hdeep, if_false, Heap.follow_rename]
      split at ha
      · cases ha
      · exact ha
  · rw [hr.evalIndex hh]
    split at ha
    · exact ha
    · rw [Heap.lookup?_rename]
      split at ha
      · cases ha
      · cases ha
      · rename_i v hne hv
        cases ha
        rcases v with _ | _ | _ | _ | ⟨_ | c⟩
        any_goals rw [hv] ; rfl
        exact absurd rfl (hne c)

/-- An assignment writes alike, to the same variable or to the same array. -/
theorem assign (hr : Renames ρ D s t) (hh : ∀ w ∈ h.values, w.Within D) (hv : v.Within D)
    {target : Target} {h' : Heap} (ha : target.assign h s v = .ok (h', s')) :
    ∃ ρ' D' t', target.assign (h.rename ρ) t (v.rename ρ) = .ok (h'.rename ρ', t') ∧
      Grows ρ D s t ρ' D' s' t' ∧ Renames ρ' D' s' t' ∧ ∀ w ∈ h'.values, w.Within D' := by
  unfold Target.assign at ha ⊢
  split at ha
  · cases ha
    refine ⟨ρ, D, t, ?_, .refl ρ D s t, hr, Heap.within_set hh hv⟩
    rw [Heap.set_rename]
  · split at ha
    · cases ha
    · rename_i hdeep
      simp only [hdeep, if_false, Heap.follow_rename]
      split at ha
      · rename_i target htarget
        cases ha
        refine ⟨ρ, D, t, ?_, .refl ρ D s t, hr, Heap.within_set hh hv⟩
        rw [Heap.set_rename]
      · cases ha
  · rw [hr.evalIndex hh]
    split at ha
    · cases ha
    · rename_i i hi
      rw [Heap.lookup?_rename]
      split at ha
      · -- the variable becomes an array in a new cell
        rename_i hnone
        cases ha
        have hes : ∀ e ∈ (Tree.ofList [(i, v)] : Elements).entries, e.2.Within D := by
          intro e he
          have he' := Tree.mem_entries_ofList he
          rw [List.mem_singleton] at he'
          rw [he']
          exact hv
        obtain ⟨hr', hgrows, hnew⟩ := hr.alloc hes
        have hlist : (Tree.ofList [(i, v.rename ρ)] : Elements) =
            (Tree.ofList [(i, v)]).map (Value.rename ρ) := Tree.ofList_map _ [(i, v)]
        refine ⟨_, _, _, ?_, hgrows, hr', ?_⟩
        · rw [hnone, Option.map_none]
          simp only [hlist, hnew]
          rw [← Heap.rename_eq hh hgrows.agree, Heap.set_rename]
          rfl
        · exact Heap.within_set (fun w hw => (hh w hw).mono hgrows.subset)
            (within_alloc (.ofList [(i, v)]))
      · rename_i cell hcell
        cases ha
        have hmem : cell ∈ D := hh _ (Heap.mem_values_of_lookup hcell) cell rfl
        refine ⟨ρ, D, _, ?_, ?_, hr.set hmem i hv, hh⟩
        · rw [hcell]
          rfl
        · refine ⟨subset_rfl, fun _ _ => rfl, ?_, fun c hc => Or.inl hc⟩
          rw [size_set, size_set]
          exact ⟨Nat.le_refl _, Nat.le_refl _⟩
      · cases ha

end Renames

/-! ## Contents and copies -/

/-- A path of different cells is no longer than the store. -/
theorem length_path_le {path : List Nat} (hnodup : path.Nodup)
    (hlt : ∀ c ∈ path, c < s.cells.size) : path.length ≤ s.cells.size := by
  have hsub : path ⊆ List.range s.cells.size := fun c hc => List.mem_range.mpr (hlt c hc)
  simpa using (List.subperm_of_subset hnodup hsub).length_le

/-- A content is written out in full once the depth is that of all cells that are not on the way. -/
theorem contentFrom_of_le {n n' : Nat} {path : List Nat} (hnodup : path.Nodup)
    (hlt : ∀ c ∈ path, c < s.cells.size) (hn : s.cells.size < n + path.length) (hle : n ≤ n') :
    s.contentFrom n' path v = s.contentFrom n path v := by
  induction n generalizing n' path v with
  | zero =>
    have hpath := length_path_le hnodup hlt
    omega
  | succ n ih =>
    obtain ⟨n', rfl⟩ : ∃ k, n' = k + 1 := ⟨n' - 1, by omega⟩
    rcases v with _ | _ | _ | _ | ⟨_ | c⟩
    any_goals rfl
    simp only [contentFrom]
    by_cases hc : c ∈ path
    · simp only [hc, if_true]
    · simp only [hc, if_false]
      congr 1
      refine List.map_congr_left ?_
      intro e he
      -- a cell with elements exists
      have hcell : c < s.cells.size := by
        rcases Nat.lt_or_ge c s.cells.size with h | h
        · exact h
        · rw [elements_of_le h] at he
          cases he
      have hsame : s.contentFrom n' (c :: path) e.2 = s.contentFrom n (c :: path) e.2 :=
        ih (List.nodup_cons.mpr ⟨hc, hnodup⟩) (by simpa using ⟨hcell, hlt⟩)
          (by rw [List.length_cons]; omega) (by omega)
      rw [hsame]

namespace Renames

theorem contentFrom (hr : Renames ρ D s t) {n : Nat} {path : List Nat} (hpath : ∀ c ∈ path, c ∈ D)
    (hv : v.Within D) :
    t.contentFrom n (path.map ρ) (v.rename ρ) = s.contentFrom n path v := by
  induction n generalizing path v with
  | zero => rcases v with _ | _ | _ | _ | ⟨_ | c⟩ <;> rfl
  | succ n ih =>
    rcases v with _ | _ | _ | _ | ⟨_ | c⟩
    any_goals rfl
    have hc : c ∈ D := hv c rfl
    have hmem : ρ c ∈ path.map ρ ↔ c ∈ path := by
      constructor
      · intro h
        obtain ⟨d, hd, heq⟩ := List.mem_map.mp h
        rw [← hr.inj (hpath d hd) hc heq]
        exact hd
      · exact List.mem_map_of_mem
    simp only [Value.rename_array, Option.map_some, Store.contentFrom, hmem, hr.elements c hc,
      Tree.entries_map, List.map_map]
    split
    · rfl
    · congr 1
      refine List.map_congr_left ?_
      intro e he
      have hin : t.contentFrom n ((c :: path).map ρ) (e.2.rename ρ) =
          s.contentFrom n (c :: path) e.2 :=
        ih (List.forall_mem_cons.mpr ⟨hc, hpath⟩) (hr.closed c hc e he)
      simpa using hin

/-- A value has the same content. -/
theorem content (hr : Renames ρ D s t) (hv : v.Within D) :
    t.content (v.rename ρ) = s.content v := by
  -- both are written out to a depth that is enough for either store
  let n := max s.cells.size t.cells.size + 1
  have hs : s.contentFrom n [] v = s.content v :=
    contentFrom_of_le List.nodup_nil (by simp) (by simp) (by simp only [n]; omega)
  have ht : t.contentFrom n [] (v.rename ρ) = t.content (v.rename ρ) :=
    contentFrom_of_le List.nodup_nil (by simp) (by simp) (by simp only [n]; omega)
  have hmid : t.contentFrom n ([].map ρ) (v.rename ρ) = s.contentFrom n [] v :=
    hr.contentFrom (by simp) hv
  rw [← hs, ← ht]
  exact hmid

theorem text? (hr : Renames ρ D s t) (hv : v.Within D) : t.text? (v.rename ρ) = s.text? v := by
  unfold Store.text?
  rw [hr.content hv]

/-- What is built in one store is built in the other one. -/
theorem build_law : BuildLaw
    (fun s x s' v => ∀ {ρ : Nat → Nat} {D : Set Nat} {t : Store}, Renames ρ D s t →
      ∃ ρ' D' t', t.build x = some (t', v.rename ρ') ∧ Grows ρ D s t ρ' D' s' t' ∧
        Renames ρ' D' s' t' ∧ v.Within D')
    (fun s items s' es => ∀ {ρ : Nat → Nat} {D : Set Nat} {t : Store}, Renames ρ D s t →
      ∃ ρ' D' t', t.buildItems items = some (t', es.map fun e => (e.1, e.2.rename ρ')) ∧
        Grows ρ D s t ρ' D' s' t' ∧ Renames ρ' D' s' t' ∧ ∀ e ∈ es, e.2.Within D') where
  leaf {s x v} hx ρ D t hr := by
    refine ⟨ρ, D, t, ?_, .refl ρ D s t, hr, ?_⟩
    · cases x <;> cases hx <;> rfl
    · rintro c rfl
      cases x <;> cases hx
  array {s s' items es} _ hitems ρ D t hr := by
    obtain ⟨ρ₁, D₁, t₁, hbuild, hgrows, hr₁, hwithin⟩ := hitems hr
    obtain ⟨hr₂, hgrows₂, hnew⟩ := hr₁.alloc fun e he => hwithin e (Tree.mem_entries_ofList he)
    refine ⟨_, _, _, ?_, hgrows.trans hgrows₂, hr₂, within_alloc _⟩
    rw [← hnew]
    simp [Store.build, hbuild, Tree.ofList_map]
  nil {s} ρ D t hr := ⟨ρ, D, t, rfl, .refl ρ D s t, hr, by simp⟩
  cons {s s₁ s₂ i x v rest es} _ _ hx hrest ρ D t hr := by
    obtain ⟨ρ₁, D₁, t₁, hbuild, hgrows, hr₁, hwithin⟩ := hx hr
    obtain ⟨ρ₂, D₂, t₂, hbuild₂, hgrows₂, hr₂, hwithin₂⟩ := hrest hr₁
    refine ⟨ρ₂, D₂, t₂, ?_, hgrows.trans hgrows₂, hr₂, ?_⟩
    · simp [Store.buildItems, hbuild, hbuild₂, hwithin.rename_eq hgrows₂.agree]
    · exact List.forall_mem_cons.mpr ⟨hwithin.mono hgrows₂.subset, hwithin₂⟩

/-- No cells at all are under the same numbers in any two stores. -/
theorem empty (s t : Store) : Renames id ∅ s t :=
  ⟨by simp, Set.injOn_empty _, by simp, by simp⟩

/-- A copy is made alike. -/
theorem clone (hr : Renames ρ D s t) (hv : v.Within D) (hw : s.clone? v = some (s', w)) :
    ∃ ρ' D' t', t.clone? (v.rename ρ) = some (t', w.rename ρ') ∧ Grows ρ D s t ρ' D' s' t' ∧
      Renames ρ' D' s' t' ∧ w.Within D' := by
  unfold clone? at hw ⊢
  rw [hr.content hv]
  exact build_law.build _ hw hr

/-- There is no copy in one store if there is none in the other one. -/
theorem clone_none (hr : Renames ρ D s t) (hv : v.Within D) (hw : s.clone? v = none) :
    t.clone? (v.rename ρ) = none := by
  unfold clone? at hw ⊢
  rw [hr.content hv]
  cases ht : t.build (s.content v) with
  | none => rfl
  | some r =>
    obtain ⟨_, _, _, hbuild, -⟩ := build_law.build _ ht (Renames.empty t s)
    rw [hw] at hbuild
    cases hbuild

end Renames

end Store

end AddressCode
