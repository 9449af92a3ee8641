import AddressCode.Proofs.Maps
import Mathlib.Data.List.Sort

/-!
# AddressCode.Proofs.SortedKeys — keys in ascending order

A map keeps its entries in the order of their keys, whatever is written to it
(`Ordered.increasing_insert`).  There is one ascending list of given keys (`Increasing.ext`), so
nothing is left in a map of the order in which its entries were written.

* `Ordered.Yields` are the orders in which a table that has none of its own may yield the keys of a
  map.
* `Tree.sortKeys` brings keys into order by a search tree.  A tree with ascending keys takes a new
  entry to the same place as the list of its entries does (`Tree.entries_insert`); so the keys come
  out ascending (`Tree.increasing_sortKeys`), and none is lost (`Tree.mem_sortKeys`).
-/

namespace AddressCode

variable {κ α : Type} [Ord κ]

/-- Each key is less than all that follow. -/
def Increasing (ks : List κ) : Prop := ks.Pairwise fun k k' => compare k k' = .lt

theorem not_lt_self [Std.TransOrd κ] (k : κ) : ¬ compare k k = .lt := by
  simp [Std.ReflCmp.compare_self]

namespace Increasing

variable {ks ks' : List κ}

theorem nodup [Std.TransOrd κ] (h : Increasing ks) : ks.Nodup := by
  refine h.imp ?_
  rintro k k' hlt rfl
  exact not_lt_self k hlt

/-- There is one ascending list of given keys. -/
theorem ext [Std.TransOrd κ] (h : Increasing ks) (h' : Increasing ks')
    (hmem : ∀ k, k ∈ ks ↔ k ∈ ks') : ks = ks' := by
  have : Std.Irrefl fun k k' : κ => compare k k' = .lt := ⟨not_lt_self⟩
  have : Std.Antisymm fun k k' : κ => compare k k' = .lt := by
    refine ⟨fun k k' hlt hgt => ?_⟩
    rw [Std.OrientedCmp.gt_of_lt hgt] at hlt
    cases hlt
  exact List.Pairwise.eq_of_mem_iff h h' hmem

end Increasing

/-! ## Maps -/

namespace Ordered

variable {m : Ordered κ α} {k k' : κ} {v : α} {es rest : List (κ × α)} {e : κ × α} {ks : List κ}

/-- An entry that belongs in front of another one is written into what is in front of it. -/
theorem insertEntry_append_of_lt (h : compare k e.1 = .lt) :
    insertEntry k v (es ++ e :: rest) = insertEntry k v es ++ e :: rest := by
  induction es with
  | nil => simp [insertEntry, h]
  | cons e' es ih =>
    rw [List.cons_append, insertEntry, insertEntry]
    cases compare k e'.1 with
    | lt => rfl
    | eq => rfl
    | gt => exact congrArg _ ih

/-- An entry that belongs behind others is written into what follows them. -/
theorem insertEntry_append_of_gt (h : ∀ e ∈ es, compare k e.1 = .gt) :
    insertEntry k v (es ++ rest) = es ++ insertEntry k v rest := by
  induction es with
  | nil => rfl
  | cons e es ih =>
    obtain ⟨he, hes⟩ := List.forall_mem_cons.mp h
    simp [insertEntry, he, ih hes]

theorem increasing_insertEntry [Std.TransOrd κ] (h : Increasing (es.map (·.1))) :
    Increasing ((insertEntry k v es).map (·.1)) := by
  induction es with
  | nil => simp [insertEntry, Increasing]
  | cons e es ih =>
    obtain ⟨he, hes⟩ := List.pairwise_cons.mp h
    rw [insertEntry]
    cases hk : compare k e.1 with
    | lt =>
      refine List.pairwise_cons.mpr ⟨?_, h⟩
      intro k' hk'
      rcases List.mem_cons.mp hk' with rfl | hk'
      · exact hk
      · exact Std.TransCmp.lt_trans hk (he k' hk')
    | eq =>
      -- the new key has the place of the old one
      exact List.pairwise_cons.mpr
        ⟨fun k' hk' => Std.TransCmp.lt_of_eq_of_lt hk (he k' hk'), hes⟩
    | gt =>
      refine List.pairwise_cons.mpr ⟨?_, ih hes⟩
      intro k' hk'
      obtain ⟨e', he', rfl⟩ := List.mem_map.mp hk'
      rcases mem_insertEntry he' with rfl | he'
      · exact Std.OrientedCmp.lt_of_gt hk
      · exact he e'.1 (List.mem_map_of_mem he')

/-- Writing an entry keeps the keys in order. -/
theorem increasing_insert [Std.TransOrd κ] (h : Increasing m.keys) :
    Increasing (m.insert k v).keys :=
  increasing_insertEntry h

theorem keys_modify (m : Ordered κ α) (k : κ) (f : α → α) : (m.modify k f).keys = m.keys := by
  rw [keys, keys, modify, List.map_map]
  refine List.map_congr_left fun e _ => ?_
  rw [Function.comp_apply]
  split <;> rfl

variable [Std.LawfulEqOrd κ]

theorem mem_keys_iff : k ∈ m.keys ↔ m.contains k = true := by
  rw [contains, get?, find?, Option.isSome_map, List.find?_isSome, keys, List.mem_map]
  refine exists_congr fun e => and_congr_right fun _ => ?_
  rw [beq_iff_eq, Std.LawfulEqCmp.compare_eq_iff_eq, eq_comm]

/-- A write adds its key. -/
theorem mem_keys_insert : k' ∈ (m.insert k v).keys ↔ k' = k ∨ k' ∈ m.keys := by
  rw [mem_keys_iff, mem_keys_iff, contains, get?_insert, contains]
  by_cases hk : k' = k <;> simp [hk]

/-- An order in which a table without an order of its own may yield the keys of a map: each of them
once. -/
structure Yields (m : Ordered κ α) (ks : List κ) : Prop where
  nodup : ks.Nodup
  mem_iff : ∀ k, k ∈ ks ↔ m.contains k = true

theorem Yields.mem_keys (h : m.Yields ks) : k ∈ ks ↔ k ∈ m.keys := by
  rw [h.mem_iff, mem_keys_iff]

/-- A map with ascending keys has no other orders than those of its keys. -/
theorem yields_iff_perm [Std.TransOrd κ] (h : Increasing m.keys) :
    m.Yields ks ↔ ks.Perm m.keys := by
  constructor
  · intro hks
    exact (List.perm_ext_iff_of_nodup hks.nodup h.nodup).mpr fun k => hks.mem_keys
  · intro hperm
    exact ⟨hperm.nodup_iff.mpr h.nodup, fun k => by rw [hperm.mem_iff, mem_keys_iff]⟩

end Ordered

/-! ## Trees -/

namespace Tree

variable [Std.TransOrd κ] {t : Tree κ α} {k k' : κ} {v : α} {es : List (κ × α)} {ks ks' : List κ}

/-- In a tree with ascending keys a new entry gets the place that it gets among the entries. -/
theorem entries_insertBelow (h : Increasing t.keys) :
    (t.insertBelow k v).entries = Ordered.insertEntry k v t.entries := by
  induction t with
  | leaf => rfl
  | node c l x w r ihl ihr =>
    rw [keys, entries, List.map_append, List.map_cons] at h
    obtain ⟨hl, hxr, hlr⟩ := List.pairwise_append.mp h
    obtain ⟨-, hr⟩ := List.pairwise_cons.mp hxr
    have hleft : ∀ e ∈ l.entries, compare x e.1 = .gt := fun e he =>
      Std.OrientedCmp.gt_of_lt (hlr e.1 (List.mem_map_of_mem he) x List.mem_cons_self)
    rw [insertBelow, entries]
    cases hk : compare k x with
    | lt =>
      rw [entries_joinLeft, ihl hl, Ordered.insertEntry_append_of_lt hk]
    -- otherwise the list is searched past all that the tree has on its left
    | eq =>
      rw [Ordered.insertEntry_append_of_gt fun e he =>
        Std.TransCmp.gt_of_eq_of_gt hk (hleft e he)]
      simp [entries, Ordered.insertEntry, hk]
    | gt =>
      rw [entries_joinRight, ihr hr, Ordered.insertEntry_append_of_gt fun e he =>
        Std.TransCmp.gt_trans hk (hleft e he)]
      simp [Ordered.insertEntry, hk]

theorem entries_insert (h : Increasing t.keys) :
    (t.insert k v).entries = Ordered.insertEntry k v t.entries := by
  rw [insert, entries_blacken, entries_insertBelow h]

theorem increasing_insert (h : Increasing t.keys) : Increasing (t.insert k v).keys := by
  rw [keys, entries_insert h]
  exact Ordered.increasing_insertEntry h

theorem increasing_insertAll (h : Increasing t.keys) : Increasing (t.insertAll es).keys := by
  induction es generalizing t with
  | nil => exact h
  | cons e es ih => exact ih (increasing_insert h)

/-- Sorted keys ascend. -/
theorem increasing_sortKeys (ks : List κ) : Increasing (sortKeys ks) :=
  increasing_insertAll List.Pairwise.nil

variable [Std.LawfulEqOrd κ]

theorem mem_keys_insert (h : Increasing t.keys) :
    k' ∈ (t.insert k v).keys ↔ k' = k ∨ k' ∈ t.keys := by
  rw [keys, entries_insert h]
  exact Ordered.mem_keys_insert (m := ⟨t.entries⟩)

theorem mem_keys_insertAll (h : Increasing t.keys) :
    k ∈ (t.insertAll es).keys ↔ k ∈ es.map (·.1) ∨ k ∈ t.keys := by
  induction es generalizing t with
  | nil => simp [insertAll]
  | cons e es ih =>
    have hrest := ih (increasing_insert (k := e.1) (v := e.2) h)
    rw [mem_keys_insert h, or_left_comm, ← or_assoc] at hrest
    rw [List.map_cons, List.mem_cons]
    exact hrest

/-- Sorting neither adds nor drops a key. -/
theorem mem_sortKeys : k ∈ sortKeys ks ↔ k ∈ ks := by
  have hempty : Increasing (empty : Tree κ Unit).keys := List.Pairwise.nil
  rw [sortKeys, ofList, mem_keys_insertAll hempty]
  simp [empty, keys, entries]

/-- The order in which keys come does not matter. -/
theorem sortKeys_congr (h : ∀ k, k ∈ ks ↔ k ∈ ks') : sortKeys ks = sortKeys ks' :=
  (increasing_sortKeys ks).ext (increasing_sortKeys ks') fun k => by
    rw [mem_sortKeys, mem_sortKeys, h k]

end Tree

end AddressCode
