import AddressCode.Proofs.Maps

/-!
# AddressCode.Proofs.Order — search trees over numbers

Numbers are ordered by their keys, and what is no number is told apart from none.  A tree whose
keys are numbers and ascend keeps both when an entry is written (`Tree.ascending_insert`), and the
tree of ascending entries has just these entries (`Tree.entries_ofList`).  Such a tree is a finite
map from numbers (`Tree.get?_insert`), in which both zeros are one.
-/

namespace AddressCode

/-! ## Ascending entries -/

namespace Number

theorem lt_iff {x y : Number} :
    x.lt y = true ↔ x.isNaN = false ∧ y.isNaN = false ∧ x.key < y.key := by
  simp [lt, and_assoc]

theorem compare_eq (x y : Number) :
    compare x y = if x.lt y then .lt else if y.lt x then .gt else .eq := rfl

theorem compare_lt_iff {x y : Number} : compare x y = .lt ↔ x.lt y = true := by
  rw [compare_eq]
  split
  · simp [*]
  · split <;> simp [*]

theorem compare_gt_iff {x y : Number} : compare x y = .gt ↔ y.lt x = true := by
  rw [compare_eq]
  split
  · rename_i hlt
    have hle := (lt_iff.mp hlt).2.2
    simp only [reduceCtorEq, false_iff, Bool.not_eq_true]
    cases hgt : y.lt x with
    | false => rfl
    | true =>
      have hge := (lt_iff.mp hgt).2.2
      omega
  · split <;> simp [*]

/-- Numbers that compare equal have the same key. -/
theorem key_of_compare_eq {x y : Number} (hx : x.isNaN = false) (hy : y.isNaN = false)
    (h : compare x y = .eq) : x.key = y.key := by
  have hlt : ¬ x.lt y = true := fun hlt => by simp [compare_lt_iff.mpr hlt] at h
  have hgt : ¬ y.lt x = true := fun hgt => by simp [compare_gt_iff.mpr hgt] at h
  rw [lt_iff] at hlt hgt
  simp only [hx, hy, true_and] at hlt hgt
  omega

theorem lt_trans {x y z : Number} (h : x.lt y = true) (h' : y.lt z = true) : x.lt z = true := by
  rw [lt_iff] at h h' ⊢
  exact ⟨h.1, h'.2.1, by omega⟩

theorem eq_iff {x y : Number} :
    x.eq y = true ↔ x.isNaN = false ∧ y.isNaN = false ∧ x.key = y.key := by
  simp [eq, and_assoc]

theorem eq_comm (x y : Number) : x.eq y = y.eq x := by
  rw [Bool.eq_iff_iff, eq_iff, eq_iff]
  constructor <;> rintro ⟨hx, hy, hkey⟩ <;> exact ⟨hy, hx, hkey.symm⟩

/-- Equal numbers are equal to the same numbers. -/
theorem eq_congr {x y : Number} (h : x.eq y = true) (z : Number) : x.eq z = y.eq z := by
  obtain ⟨hx, hy, hkey⟩ := eq_iff.mp h
  simp [eq, hx, hy, hkey]

theorem eq_self {x : Number} (h : x.isNaN = false) : x.eq x = true :=
  eq_iff.mpr ⟨h, h, rfl⟩

/-- What compares equal to a number, as far as it is a number, is equal to it. -/
theorem compare_eq_iff {x y : Number} (hx : x.isNaN = false) (hy : y.isNaN = false) :
    compare x y = .eq ↔ x.eq y = true := by
  constructor
  · intro h
    exact eq_iff.mpr ⟨hx, hy, key_of_compare_eq hx hy h⟩
  · intro h
    obtain ⟨-, -, hkey⟩ := eq_iff.mp h
    simp [compare_eq, lt, hkey]

/-- Zero with a sign, which is equal to zero. -/
def negativeZero : Number := ⟨0x8000000000000000⟩

end Number

/-- The keys of some entries are numbers, and ascend. -/
structure Ascending {α : Type} (es : List (Number × α)) : Prop where
  numbers : ∀ e ∈ es, e.1.isNaN = false
  ordered : es.Pairwise fun e e' => e.1.lt e'.1 = true

namespace Tree

variable {α : Type} {t l r : Tree Number α} {k x : Number} {v w : α} {c : Colour}

/-- The entries of a node ascend if those of its trees do, on both sides of its key. -/
theorem ascending_node : Ascending (node c l x w r).entries ↔
    x.isNaN = false ∧ Ascending l.entries ∧ Ascending r.entries ∧
      (∀ e ∈ l.entries, e.1.lt x = true) ∧ ∀ e ∈ r.entries, x.lt e.1 = true := by
  constructor
  · intro h
    obtain ⟨hl, hxr, hlr⟩ := List.pairwise_append.mp h.ordered
    obtain ⟨hx, hr⟩ := List.pairwise_cons.mp hxr
    refine ⟨h.numbers (x, w) (by simp [entries]), ⟨?_, hl⟩, ⟨?_, hr⟩, ?_, hx⟩
    · exact fun e he => h.numbers e (by simp [entries, he])
    · exact fun e he => h.numbers e (by simp [entries, he])
    · exact fun e he => hlr e he (x, w) (by simp)
  · rintro ⟨hnum, hl, hr, hlx, hxr⟩
    constructor
    · intro e he
      simp only [entries, List.mem_append, List.mem_cons] at he
      rcases he with he | rfl | he
      · exact hl.numbers e he
      · exact hnum
      · exact hr.numbers e he
    · refine List.pairwise_append.mpr ⟨hl.ordered, List.pairwise_cons.mpr ⟨hxr, hr.ordered⟩, ?_⟩
      intro e he e' he'
      rcases List.mem_cons.mp he' with rfl | he'
      · exact hlx e he
      · exact Number.lt_trans (hlx e he) (hxr e' he')

/-- Writing an entry keeps the order. -/
theorem ascending_insertBelow (hk : k.isNaN = false) (h : Ascending t.entries) :
    Ascending (t.insertBelow k v).entries := by
  induction t with
  | leaf => exact ⟨by simp [insertBelow, entries, hk], by simp [insertBelow, entries]⟩
  | node c l x w r ihl ihr =>
    obtain ⟨hx, hl, hr, hlx, hxr⟩ := ascending_node.mp h
    simp only [insertBelow]
    split
    · rename_i hlt
      rw [entries_joinLeft]
      change Ascending (node c (insertBelow k v l) x w r).entries
      refine ascending_node.mpr ⟨hx, ihl hl, hr, ?_, hxr⟩
      intro e he
      rcases mem_entries_insertBelow he with rfl | he
      · exact Number.compare_lt_iff.mp hlt
      · exact hlx e he
    · -- the new key has the place of the old one
      rename_i heq
      have hkey := Number.key_of_compare_eq hk hx heq
      refine ascending_node.mpr ⟨hk, hl, hr, ?_, ?_⟩
      · intro e he
        have hlt := hlx e he
        rw [Number.lt_iff] at hlt ⊢
        exact ⟨hlt.1, hk, by omega⟩
      · intro e he
        have hlt := hxr e he
        rw [Number.lt_iff] at hlt ⊢
        exact ⟨hk, hlt.2.1, by omega⟩
    · rename_i hgt
      rw [entries_joinRight]
      change Ascending (node c l x w (insertBelow k v r)).entries
      refine ascending_node.mpr ⟨hx, hl, ihr hr, hlx, ?_⟩
      intro e he
      rcases mem_entries_insertBelow he with rfl | he
      · exact Number.compare_gt_iff.mp hgt
      · exact hxr e he

theorem ascending_insert (hk : k.isNaN = false) (h : Ascending t.entries) :
    Ascending (t.insert k v).entries := by
  simp only [insert, entries_blacken]
  exact ascending_insertBelow hk h

theorem ascending_insertAll {es : List (Number × α)} (hes : ∀ e ∈ es, e.1.isNaN = false)
    (h : Ascending t.entries) : Ascending (t.insertAll es).entries := by
  induction es generalizing t with
  | nil => exact h
  | cons e es ih =>
    obtain ⟨he, hes⟩ := List.forall_mem_cons.mp hes
    exact ih hes (ascending_insert he h)

/-- In a tree with ascending keys a number is found under a key that is numerically equal to it. -/
theorem get?_eq_some_iff (h : Ascending t.entries) (hk : k.isNaN = false) :
    t.get? k = some v ↔ ∃ x, (x, v) ∈ t.entries ∧ x.key = k.key := by
  induction t with
  | leaf => simp [get?, entries]
  | node c l x w r ihl ihr =>
    obtain ⟨hx, hl, hr, hlx, hxr⟩ := ascending_node.mp h
    have hleft : ∀ {y u}, (y, u) ∈ l.entries → y.key < x.key :=
      fun hy => (Number.lt_iff.mp (hlx _ hy)).2.2
    have hright : ∀ {y u}, (y, u) ∈ r.entries → x.key < y.key :=
      fun hy => (Number.lt_iff.mp (hxr _ hy)).2.2
    simp only [get?, entries, List.mem_append, List.mem_cons, Prod.mk.injEq]
    split
    · rename_i hlt
      have hkx := (Number.lt_iff.mp (Number.compare_lt_iff.mp hlt)).2.2
      rw [ihl hl]
      refine exists_congr fun y => ⟨And.imp_left Or.inl, ?_⟩
      rintro ⟨hy | ⟨rfl, -⟩ | hy, hkey⟩
      · exact ⟨hy, hkey⟩
      · omega
      · have := hright hy
        omega
    · rename_i heq
      have hkx := Number.key_of_compare_eq hk hx heq
      refine ⟨fun hw => ⟨x, Or.inr (Or.inl ⟨rfl, (Option.some.inj hw).symm⟩), hkx.symm⟩, ?_⟩
      rintro ⟨y, hy | ⟨-, rfl⟩ | hy, hkey⟩
      · have := hleft hy
        omega
      · rfl
      · have := hright hy
        omega
    · rename_i hgt
      have hkx := (Number.lt_iff.mp (Number.compare_gt_iff.mp hgt)).2.2
      rw [ihr hr]
      refine exists_congr fun y => ⟨And.imp_left fun hy => Or.inr (Or.inr hy), ?_⟩
      rintro ⟨hy | ⟨rfl, -⟩ | hy, hkey⟩
      · have := hleft hy
        omega
      · omega
      · exact ⟨hy, hkey⟩

/-- Looking up a number after an entry was written. -/
theorem get?_insert (h : Ascending t.entries) (hk : k.isNaN = false) (hx : x.isNaN = false) :
    (t.insert k v).get? x = if x.eq k then some v else t.get? x := by
  have heq : x.eq k = true ↔ x.key = k.key := by simp [Number.eq, hx, hk]
  simp only [heq]
  have hins := ascending_insert (v := v) hk h
  split
  · rename_i hkey
    exact (get?_eq_some_iff hins hx).mpr ⟨k, mem_insert_self, hkey.symm⟩
  · -- the entries under other keys are the same
    rename_i hkey
    refine Option.ext fun u => ?_
    rw [get?_eq_some_iff hins hx, get?_eq_some_iff h hx]
    refine exists_congr fun y => ⟨?_, ?_⟩
    · rintro ⟨hy, hyx⟩
      rcases mem_entries_insert hy with heq | hy
      · obtain ⟨rfl, -⟩ := Prod.mk.inj heq
        exact absurd hyx.symm hkey
      · exact ⟨hy, hyx⟩
    · rintro ⟨hy, hyx⟩
      refine ⟨mem_insert_of_ne hy fun hcmp => hkey ?_, hyx⟩
      rw [← hyx, Number.key_of_compare_eq hk (h.numbers _ hy) hcmp]

/-- A key greater than all others comes last. -/
theorem entries_insertBelow_last (h : ∀ e ∈ t.entries, e.1.lt k = true) :
    (t.insertBelow k v).entries = t.entries ++ [(k, v)] := by
  induction t with
  | leaf => rfl
  | node c l x w r _ ihr =>
    have hgt : compare k x = .gt := Number.compare_gt_iff.mpr (h (x, w) (by simp [entries]))
    have hr := ihr fun e he => h e (by simp [entries, he])
    simp [insertBelow, hgt, entries, hr]

theorem entries_insertAll_ascending {es : List (Number × α)}
    (h : Ascending (t.entries ++ es)) : (t.insertAll es).entries = t.entries ++ es := by
  induction es generalizing t with
  | nil => simp [insertAll]
  | cons e es ih =>
    have hlast : (t.insert e.1 e.2).entries = t.entries ++ [e] := by
      rw [insert, entries_blacken]
      refine entries_insertBelow_last ?_
      intro e' he'
      exact (List.pairwise_append.mp h.ordered).2.2 e' he' e (by simp)
    have hrest := @ih (t.insert e.1 e.2) (by simpa [hlast] using h)
    rw [hlast, List.append_assoc] at hrest
    exact hrest

/-- The tree of ascending entries has these entries. -/
theorem entries_ofList {es : List (Number × α)} (h : Ascending es) : (ofList es).entries = es :=
  entries_insertAll_ascending (by simpa [empty, entries] using h)

end Tree

end AddressCode
