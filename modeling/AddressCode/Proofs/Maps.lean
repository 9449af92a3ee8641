import AddressCode.Heap

/-!
# AddressCode.Proofs.Maps — entries of maps, trees and heaps

What writing does to the entries of a map: the new entry is there, and nothing else is new.  These
facts need no order of the entries; the law of looking up what was written (`Ordered.get?_insert`)
needs only that keys that compare equal are equal.
-/

namespace AddressCode

/-! ## Maps listed in key order -/

namespace Ordered

variable {κ α : Type} [Ord κ]

theorem mem_insertEntry {k : κ} {v : α} {es : List (κ × α)} {e : κ × α}
    (h : e ∈ insertEntry k v es) : e = (k, v) ∨ e ∈ es := by
  induction es with
  | nil =>
    simp only [insertEntry, List.mem_singleton] at h
    exact Or.inl h
  | cons e' rest ih =>
    simp only [insertEntry] at h
    split at h
    · simpa using h
    · rcases List.mem_cons.mp h with h | h
      · exact Or.inl h
      · exact Or.inr (List.mem_cons_of_mem _ h)
    · rcases List.mem_cons.mp h with h | h
      · exact Or.inr (by simp [h])
      · rcases ih h with h | h
        · exact Or.inl h
        · exact Or.inr (List.mem_cons_of_mem _ h)

/-- A value that is found stands in an entry. -/
theorem mem_of_get? {m : Ordered κ α} {k : κ} {v : α} (h : m.get? k = some v) :
    ∃ e ∈ m.entries, e.2 = v := by
  obtain ⟨e, he, hv⟩ := Option.map_eq_some_iff.mp h
  exact ⟨e, List.mem_of_find?_eq_some he, hv⟩

/-- Looking up a key after an entry was written. -/
theorem get?_insert [Std.LawfulEqOrd κ] (m : Ordered κ α) (k k' : κ) (v : α) :
    (m.insert k v).get? k' = if compare k' k = .eq then some v else m.get? k' := by
  obtain ⟨es⟩ := m
  simp only [insert, get?, find?]
  induction es with
  | nil =>
    by_cases hk : compare k' k = .eq <;> simp [insertEntry, hk]
  | cons e rest ih =>
    simp only [insertEntry]
    split
    · by_cases hk : compare k' k = .eq <;> simp [List.find?_cons, hk]
    · -- the entry of an equal key is replaced
      rename_i heq
      have hke : k = e.1 := Std.LawfulEqOrd.eq_of_compare heq
      by_cases hk : compare k' k = .eq
      · simp [hk]
      · simp [hk, ← hke]
    · rename_i hgt
      by_cases he : compare k' e.1 = .eq
      · have hke : k' = e.1 := Std.LawfulEqOrd.eq_of_compare he
        have hk : compare k' k ≠ .eq := by
          intro hk
          have hkk : k' = k := Std.LawfulEqOrd.eq_of_compare hk
          rw [← hkk, he] at hgt
          cases hgt
        simp [he, hk]
      · simpa [List.find?_cons, he] using ih

/-- Looking up a key after a value was changed. -/
theorem get?_modify [Std.LawfulEqOrd κ] (m : Ordered κ α) (k k' : κ) (f : α → α) :
    (m.modify k f).get? k' = if compare k' k = .eq then (m.get? k').map f else m.get? k' := by
  obtain ⟨es⟩ := m
  simp only [modify, get?, find?]
  induction es with
  | nil => simp
  | cons e rest ih =>
    rw [List.map_cons, List.find?_cons, List.find?_cons]
    by_cases he : compare k' e.1 = .eq
    · have hke : k' = e.1 := Std.LawfulEqOrd.eq_of_compare he
      by_cases hk : compare k e.1 = .eq
      · have hkk : k' = k := hke.trans (Std.LawfulEqOrd.eq_of_compare hk).symm
        simp [hkk, hk]
      · have hkk : compare k' k ≠ .eq := by
          intro hkk
          rw [← Std.LawfulEqOrd.eq_of_compare hkk] at hk
          exact hk he
        simp [hk, he, hkk]
    · have hkey : (if compare k e.1 == .eq then (e.1, f e.2) else e).1 = e.1 := by
        split <;> rfl
      have hskip : (compare k' e.1 == .eq) = false := beq_false_of_ne he
      rw [hkey, hskip]
      exact ih

end Ordered

/-! ## Trees -/

namespace Tree

variable {κ α : Type} [Ord κ]

theorem mem_entries_insertBelow {k : κ} {v : α} {t : Tree κ α} {e : κ × α}
    (h : e ∈ (t.insertBelow k v).entries) : e = (k, v) ∨ e ∈ t.entries := by
  induction t with
  | leaf =>
    simp only [insertBelow, entries, List.nil_append, List.mem_singleton] at h
    exact Or.inl h
  | node c l x w r ihl ihr =>
    simp only [insertBelow] at h
    split at h
    · simp only [entries_joinLeft, List.mem_append, List.mem_cons] at h
      simp only [entries, List.mem_append, List.mem_cons]
      rcases h with h | h | h
      · rcases ihl h with h | h
        · exact Or.inl h
        · exact Or.inr (Or.inl h)
      · exact Or.inr (Or.inr (Or.inl h))
      · exact Or.inr (Or.inr (Or.inr h))
    · simp only [entries, List.mem_append, List.mem_cons] at h ⊢
      rcases h with h | h | h
      · exact Or.inr (Or.inl h)
      · exact Or.inl h
      · exact Or.inr (Or.inr (Or.inr h))
    · simp only [entries_joinRight, List.mem_append, List.mem_cons] at h
      simp only [entries, List.mem_append, List.mem_cons]
      rcases h with h | h | h
      · exact Or.inr (Or.inl h)
      · exact Or.inr (Or.inr (Or.inl h))
      · rcases ihr h with h | h
        · exact Or.inl h
        · exact Or.inr (Or.inr (Or.inr h))

theorem mem_entries_insert {k : κ} {v : α} {t : Tree κ α} {e : κ × α}
    (h : e ∈ (t.insert k v).entries) : e = (k, v) ∨ e ∈ t.entries := by
  simp only [insert, entries_blacken] at h
  exact mem_entries_insertBelow h

/-- The entry that is written is there. -/
theorem mem_insert_self {k : κ} {v : α} {t : Tree κ α} : (k, v) ∈ (t.insert k v).entries := by
  rw [insert, entries_blacken]
  induction t with
  | leaf => simp [insertBelow, entries]
  | node c l x w r ihl ihr =>
    simp only [insertBelow]
    split
    · simp [ihl]
    · simp [entries]
    · simp [ihr]

/-- Only an entry of a key that compares equal is replaced. -/
theorem mem_insert_of_ne {k : κ} {v : α} {t : Tree κ α} {e : κ × α} (he : e ∈ t.entries)
    (hne : compare k e.1 ≠ .eq) : e ∈ (t.insert k v).entries := by
  rw [insert, entries_blacken]
  induction t with
  | leaf => cases he
  | node c l x w r ihl ihr =>
    simp only [entries, List.mem_append, List.mem_cons] at he
    simp only [insertBelow]
    split
    · rw [entries_joinLeft, List.mem_append, List.mem_cons]
      exact he.imp_left ihl
    · rename_i heq
      rw [entries, List.mem_append, List.mem_cons]
      rcases he with he | rfl | he
      · exact Or.inl he
      · exact absurd heq hne
      · exact Or.inr (Or.inr he)
    · rw [entries_joinRight, List.mem_append, List.mem_cons]
      exact he.imp_right fun h => h.imp_right ihr

theorem mem_entries_insertAll {es : List (κ × α)} {t : Tree κ α} {e : κ × α}
    (h : e ∈ (t.insertAll es).entries) : e ∈ es ∨ e ∈ t.entries := by
  induction es generalizing t with
  | nil => exact Or.inr h
  | cons e' rest ih =>
    rcases ih h with h | h
    · exact Or.inl (List.mem_cons_of_mem _ h)
    · rcases mem_entries_insert h with h | h
      · exact Or.inl (by simp [h])
      · exact Or.inr h

/-- The entries of the tree of a list come from the list. -/
theorem mem_entries_ofList {es : List (κ × α)} {e : κ × α} (h : e ∈ (ofList es).entries) :
    e ∈ es := by
  rcases mem_entries_insertAll h with h | h
  · exact h
  · simp [empty, entries] at h

/-- A value that is found stands in an entry. -/
theorem mem_of_get? {k : κ} {v : α} {t : Tree κ α} (h : t.get? k = some v) :
    ∃ e ∈ t.entries, e.2 = v := by
  induction t with
  | leaf => simp [get?] at h
  | node c l x w r ihl ihr =>
    simp only [get?] at h
    simp only [entries, List.mem_append, List.mem_cons]
    split at h
    · obtain ⟨e, he, hv⟩ := ihl h
      exact ⟨e, Or.inl he, hv⟩
    · exact ⟨(x, w), Or.inr (Or.inl rfl), by simpa using h⟩
    · obtain ⟨e, he, hv⟩ := ihr h
      exact ⟨e, Or.inr (Or.inr he), hv⟩

end Tree

/-! ## Heaps -/

namespace Heap

/-- The values of all known variables. -/
def values (h : Heap) : List Value := h.tags.values

variable {h : Heap} {name : String} {v w : Value}

theorem mem_values : v ∈ h.values ↔ ∃ e ∈ h.tags.entries, e.2 = v := by
  simp [values, Ordered.values]

theorem mem_values_of_lookup (hv : h.lookup? name = some v) : v ∈ h.values := by
  have htag : h.tag? name = some v := (Option.filter_eq_some_iff.mp hv).1
  exact mem_values.mpr (Ordered.mem_of_get? htag)

/-- A variable that is set brings no value but its own. -/
theorem mem_values_set (hw : w ∈ (h.set name v).values) : w = v ∨ w ∈ h.values := by
  unfold set at hw
  split at hw
  · exact Or.inr hw
  · obtain ⟨e, he, rfl⟩ := mem_values.mp hw
    rcases Ordered.mem_insertEntry he with rfl | he
    · exact Or.inl rfl
    · exact Or.inr (mem_values.mpr ⟨e, he, rfl⟩)

theorem mem_values_bindFrom {vs : List Value} {i : Nat} (hw : w ∈ (h.bindFrom i vs).values) :
    w ∈ vs ∨ w ∈ h.values := by
  induction vs generalizing h i with
  | nil => exact Or.inr hw
  | cons v vs ih =>
    rcases ih hw with hw | hw
    · exact Or.inl (List.mem_cons_of_mem _ hw)
    · rcases mem_values_set hw with rfl | hw
      · exact Or.inl (by simp)
      · exact Or.inr hw

/-- The inputs that are bound bring no value but their own. -/
theorem mem_values_bind {vs : List Value} (hw : w ∈ (h.bind vs).values) :
    w ∈ vs ∨ w ∈ h.values :=
  mem_values_bindFrom hw

/-- Setting a variable changes no other one. -/
theorem tag?_set_of_ne (h : Heap) (v : Value) {x y : String} (hy : y ≠ x) :
    (h.set x v).tag? y = h.tag? y := by
  unfold set
  split
  · rfl
  · have hne : compare y x ≠ .eq := fun hc => hy (Std.LawfulEqOrd.eq_of_compare hc)
    simp [tag?, Ordered.get?_insert, hne]

end Heap

end AddressCode
