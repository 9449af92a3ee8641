import AddressCode.Proofs.DeepCopies
import Mathlib.Data.List.Sort

/-!
# AddressCode.Proofs.Arrays — arrays are finite maps in the order of their indices

What an array says after any writes is said here without the tree: `lastAt?` looks for the last
write at an index that is numerically equal to a given one, going through the list of all writes.  A
step lemma, `Tree.mem_insert_iff`, says what is left of the entries when one more is written, and
`Tree.lastAt?_insertAll` says for all writes, by induction, that the entries are the last writes at
their indices; so neither the order of writes at different indices matters nor the shape of the tree
(`Tree.entries_insertAll_of_perm`).

The main theorem is `Store.array_is_sorted_map`.  It asks for numbers.  What is no number is not
told apart from any index by the order of the tree, so it finds an element in every array that has
one, and an array with such an index is found to have an element at every other one
(`Store.array_not_sorted_map_nan`).  Instructions take only numbers for an index
(`Expr.not_isNaN_of_evalIndex`).
-/

namespace AddressCode

variable {α : Type}

/-! ## Last writes -/

/-- The last of some writes at an index that is numerically equal to `i`. -/
def lastAt? (ws : List (Number × α)) (i : Number) : Option (Number × α) :=
  ws.reverse.find? fun w => i.eq w.1

/-- No two entries have numerically equal indices. -/
def Different (es : List (Number × α)) : Prop :=
  es.Pairwise fun e e' => e.1.eq e'.1 = false

section LastWrites

variable {ws ws' es : List (Number × α)} {w e : Number × α} {i : Number}

/-- The latest write counts, if it is at the index. -/
theorem lastAt?_concat (ws : List (Number × α)) (w : Number × α) (i : Number) :
    lastAt? (ws ++ [w]) i = if i.eq w.1 then some w else lastAt? ws i := by
  rw [lastAt?, List.reverse_concat, List.find?_cons]
  cases i.eq w.1 with
  | true => rfl
  | false => rfl

/-- Later writes count before earlier ones. -/
theorem lastAt?_append (ws ws' : List (Number × α)) (i : Number) :
    lastAt? (ws ++ ws') i = (lastAt? ws' i).or (lastAt? ws i) := by
  rw [lastAt?, List.reverse_append, List.find?_append]
  rfl

/-- If no two writes are at equal indices, the only write at an index is the last one. -/
theorem lastAt?_eq_some_iff (h : Different es) :
    lastAt? es i = some e ↔ e ∈ es ∧ i.eq e.1 = true := by
  induction es using List.reverseRecOn with
  | nil => simp [lastAt?]
  | append_singleton es w ih =>
    obtain ⟨hes, -, hlast⟩ := List.pairwise_append.mp h
    rw [lastAt?_concat, List.mem_append, List.mem_singleton]
    by_cases hw : i.eq w.1 = true
    · rw [if_pos hw]
      constructor
      · rintro ⟨⟩
        exact ⟨Or.inr rfl, hw⟩
      · rintro ⟨he | rfl, hi⟩
        · -- an earlier write at this index would be at an index equal to the last one
          have hne := hlast e he w (List.mem_singleton_self w)
          rw [← Number.eq_congr hi, hw] at hne
          cases hne
        · rfl
    · rw [if_neg hw, ih hes]
      constructor
      · rintro ⟨he, hi⟩
        exact ⟨Or.inl he, hi⟩
      · rintro ⟨he | rfl, hi⟩
        · exact ⟨he, hi⟩
        · exact absurd hi hw

/-- The order of writes at different indices does not matter. -/
theorem lastAt?_of_perm (hperm : ws.Perm ws') (h : Different ws) (i : Number) :
    lastAt? ws i = lastAt? ws' i := by
  have h' : Different ws' := by
    refine (hperm.pairwise_iff ?_).mp h
    intro w w' hne
    rw [Number.eq_comm]
    exact hne
  refine Option.ext fun e => ?_
  rw [lastAt?_eq_some_iff h, lastAt?_eq_some_iff h', hperm.mem_iff]

end LastWrites

/-! ## Trees -/

/-- Indices that ascend are different. -/
theorem Ascending.different {es : List (Number × α)} (h : Ascending es) : Different es := by
  refine h.ordered.imp ?_
  intro e e' hlt
  obtain ⟨-, -, hkey⟩ := Number.lt_iff.mp hlt
  refine Bool.eq_false_iff.mpr fun heq => ?_
  have hsame := (Number.eq_iff.mp heq).2.2
  omega

/-- There is one list of ascending entries with given members. -/
theorem Ascending.ext {es es' : List (Number × α)} (h : Ascending es) (h' : Ascending es')
    (hmem : ∀ e, e ∈ es ↔ e ∈ es') : es = es' := by
  have hirrefl : ∀ e : Number × α, ¬ e.1.lt e.1 = true := by
    intro e hlt
    exact absurd (Number.lt_iff.mp hlt).2.2 (Int.lt_irrefl _)
  have : Std.Irrefl fun e e' : Number × α => e.1.lt e'.1 = true := ⟨hirrefl⟩
  have : Std.Antisymm fun e e' : Number × α => e.1.lt e'.1 = true :=
    ⟨fun e e' hlt hgt => absurd (Number.lt_trans hlt hgt) (hirrefl e)⟩
  exact List.Pairwise.eq_of_mem_iff h.ordered h'.ordered hmem

namespace Tree

variable {t : Tree Number α} {k i : Number} {v : α} {e : Number × α} {ws ws' : List (Number × α)}

theorem size_eq (t : Tree Number α) : t.size = t.keys.length := by
  rw [keys, List.length_map]
  induction t with
  | leaf => rfl
  | node c l x w r ihl ihr =>
    rw [size, entries, List.length_append, List.length_cons, ihl, ihr]
    omega

/-- The entries once another one is written: this one, and those of other indices. -/
theorem mem_insert_iff (h : Ascending t.entries) (hk : k.isNaN = false) :
    e ∈ (t.insert k v).entries ↔ e = (k, v) ∨ e ∈ t.entries ∧ k.eq e.1 = false := by
  have hins : Ascending (t.insert k v).entries := ascending_insert hk h
  constructor
  · intro he
    rcases mem_entries_insert he with heq | hold
    · exact Or.inl heq
    · by_cases hke : k.eq e.1 = true
      · -- of two entries at one index there is only one
        have hself := (lastAt?_eq_some_iff (i := k) hins.different).mpr
          ⟨mem_insert_self (v := v), Number.eq_self hk⟩
        have hother := (lastAt?_eq_some_iff (i := k) hins.different).mpr ⟨he, hke⟩
        exact Or.inl (Option.some.inj (hother.symm.trans hself))
      · exact Or.inr ⟨hold, Bool.eq_false_iff.mpr hke⟩
  · rintro (rfl | ⟨he, hke⟩)
    · exact mem_insert_self
    · refine mem_insert_of_ne he fun hcmp => ?_
      rw [(Number.compare_eq_iff hk (h.numbers e he)).mp hcmp] at hke
      cases hke

/-- After any writes the entries are the last ones at their indices, among the entries that there
were and the writes.  The induction goes back along the writes: the latest one takes the place of
those at its index. -/
theorem lastAt?_insertAll (h : Ascending t.entries) (hws : ∀ w ∈ ws, w.1.isNaN = false) :
    lastAt? (t.entries ++ ws) i = some e ↔ e ∈ (t.insertAll ws).entries ∧ i.eq e.1 = true := by
  induction ws using List.reverseRecOn generalizing e with
  | nil =>
    rw [List.append_nil]
    exact lastAt?_eq_some_iff h.different
  | append_singleton ws w ih =>
    have hw : w.1.isNaN = false := hws w (by simp)
    have hold : ∀ w ∈ ws, w.1.isNaN = false := fun w' hw' => hws w' (by simp [hw'])
    have hinsert : t.insertAll (ws ++ [w]) = (t.insertAll ws).insert w.1 w.2 := by
      simp [insertAll]
    rw [← List.append_assoc, lastAt?_concat, hinsert,
      mem_insert_iff (ascending_insertAll hold h) hw]
    by_cases hi : i.eq w.1 = true
    · rw [if_pos hi, Number.eq_congr hi]
      constructor
      · rintro ⟨⟩
        exact ⟨Or.inl rfl, Number.eq_self hw⟩
      · rintro ⟨rfl | ⟨-, hne⟩, heq⟩
        · rfl
        · rw [heq] at hne
          cases hne
    · rw [if_neg hi, ih hold]
      constructor
      · rintro ⟨he, heq⟩
        refine ⟨Or.inr ⟨he, Bool.eq_false_iff.mpr fun hwe => hi ?_⟩, heq⟩
        rw [Number.eq_comm, Number.eq_congr hwe, Number.eq_comm]
        exact heq
      · rintro ⟨rfl | ⟨he, -⟩, heq⟩
        · exact absurd heq hi
        · exact ⟨he, heq⟩

/-- Looking up a number after any writes gives the value of the last one at this index. -/
theorem get?_insertAll (h : Ascending t.entries) (hws : ∀ w ∈ ws, w.1.isNaN = false)
    (hi : i.isNaN = false) :
    (t.insertAll ws).get? i = (lastAt? (t.entries ++ ws) i).map (·.2) := by
  have hasc : Ascending (t.insertAll ws).entries := ascending_insertAll hws h
  refine Option.ext fun v => ?_
  rw [get?_eq_some_iff hasc hi, Option.map_eq_some_iff]
  constructor
  · rintro ⟨x, hx, hkey⟩
    exact ⟨(x, v), (lastAt?_insertAll h hws).mpr
      ⟨hx, Number.eq_iff.mpr ⟨hi, hasc.numbers _ hx, hkey.symm⟩⟩, rfl⟩
  · rintro ⟨⟨x, w⟩, hlast, rfl⟩
    obtain ⟨hx, heq⟩ := (lastAt?_insertAll h hws).mp hlast
    exact ⟨x, hx, (Number.eq_iff.mp heq).2.2.symm⟩

/-- Writes at different indices give the same entries in whatever order. -/
theorem entries_insertAll_of_perm (h : Ascending t.entries) (hws : ∀ w ∈ ws, w.1.isNaN = false)
    (hperm : ws.Perm ws') (hdiff : Different ws) :
    (t.insertAll ws).entries = (t.insertAll ws').entries := by
  have hws' : ∀ w ∈ ws', w.1.isNaN = false := fun w hw => hws w (hperm.mem_iff.mpr hw)
  have hasc : Ascending (t.insertAll ws).entries := ascending_insertAll hws h
  have hasc' : Ascending (t.insertAll ws').entries := ascending_insertAll hws' h
  have hlast : ∀ i, lastAt? (t.entries ++ ws) i = lastAt? (t.entries ++ ws') i := by
    intro i
    rw [lastAt?_append, lastAt?_append, lastAt?_of_perm hperm hdiff]
  refine hasc.ext hasc' fun e => ?_
  constructor
  · intro he
    have hself := (lastAt?_insertAll h hws).mpr ⟨he, Number.eq_self (hasc.numbers e he)⟩
    rw [hlast] at hself
    exact ((lastAt?_insertAll h hws').mp hself).1
  · intro he
    have hself := (lastAt?_insertAll h hws').mpr ⟨he, Number.eq_self (hasc'.numbers e he)⟩
    rw [← hlast] at hself
    exact ((lastAt?_insertAll h hws).mp hself).1

end Tree

/-! ## Arrays -/

namespace Store

variable {s s' : Store} {c : Nat} {before ws : List (Number × Value)}

/-- The cell `c` has got an array that no one else holds: a new one, or a copy of an array whose
indices are numbers and ascend.  `before` are its entries. -/
inductive Makes (s : Store) : Store → Nat → List (Number × Value) → Prop where
  | new : Makes s (s.alloc .empty).1 s.cells.size []
  | copy {s' : Store} {c d : Nat} (hasc : Ascending (s.elements d).entries)
      (h : s.clone? (.array (some d)) = some (s', .array (some c))) :
      Makes s s' c (s'.elements c).entries

/-- A copy has the indices of the array that was copied. -/
theorem keys_clone {d : Nat} (hasc : Ascending (s.elements d).entries)
    (h : s.clone? (.array (some d)) = some (s', .array (some c))) :
    c < s'.cells.size ∧ (s'.elements c).keys = (s.elements d).keys := by
  have hcontent : s.content (.array (some d)) = .array ((s.elements d).entries.map fun e =>
      (e.1, s.contentFrom s.cells.size [d] e.2)) := rfl
  rw [clone?, hcontent, build] at h
  split at h
  · rename_i s₁ es hes
    have hpair : s₁.alloc (.ofList es) = (s', .array (some c)) := Option.some.inj h
    obtain rfl : (s₁.alloc (.ofList es)).1 = s' := congrArg Prod.fst hpair
    obtain rfl : s₁.cells.size = c := by simpa [alloc] using congrArg Prod.snd hpair
    have hkeys : es.map (·.1) = (s.elements d).entries.map (·.1) := by
      rw [keys_buildItems hes]
      simp
    have hes' : Ascending es := hasc.of_keys hkeys
    refine ⟨by simp [size_alloc], ?_⟩
    rw [elements_alloc_size, Tree.keys, Tree.entries_ofList hes', hkeys]
    rfl
  · cases h

/-- The array is there, its indices are numbers and ascend. -/
theorem Makes.spec (h : s.Makes s' c before) :
    c < s'.cells.size ∧ (s'.elements c).entries = before ∧ Ascending before := by
  cases h with
  | new =>
    refine ⟨by simp [size_alloc], ?_, ascending_nil⟩
    rw [elements_alloc_size]
    rfl
  | copy hasc h =>
    obtain ⟨hlt, hkeys⟩ := keys_clone hasc h
    exact ⟨hlt, rfl, hasc.of_keys hkeys⟩

/-- The store after a sequence of writes to one array. -/
def writeAll (s : Store) (c : Nat) (ws : List (Number × Value)) : Store :=
  s.setAll (ws.map fun w => (c, w))

theorem elements_writeAll (h : c < s.cells.size) (ws : List (Number × Value)) :
    (s.writeAll c ws).elements c = (s.elements c).insertAll ws := by
  induction ws generalizing s with
  | nil => rfl
  | cons w ws ih =>
    have hset : (s.set c w.1 w.2).elements c = (s.elements c).insert w.1 w.2 :=
      elements_set_self w.1 h
    have hrest := ih (s := s.set c w.1 w.2) (by rwa [size_set])
    rw [hset] at hrest
    exact hrest

/-- A new array, or a copy of one whose indices are numbers and ascend, after any writes at indices
that are numbers.  Its indices are numbers that strictly ascend, so no two of them are equal, and
each is listed with its value; its length is their number.  At an index that is a number it has the
value of the last write at an index numerically equal to it, and none if there was no such write;
the index that is listed is the one of that last write.  Writes at different indices give the same
entries and values in whatever order they are made. -/
theorem array_is_sorted_map (h : s.Makes s' c before) (hws : ∀ w ∈ ws, w.1.isNaN = false) :
    let a := (s'.writeAll c ws).elements c
    ((∀ i ∈ a.keys, i.isNaN = false) ∧ a.keys.Pairwise fun i j => i.lt j = true) ∧
      a.entries.map (·.1) = a.keys ∧ a.size = a.keys.length ∧
      (∀ i, i.isNaN = false → a.get? i = (lastAt? (before ++ ws) i).map (·.2)) ∧
      (∀ i e, lastAt? (before ++ ws) i = some e ↔ e ∈ a.entries ∧ i.eq e.1 = true) ∧
      ∀ ws', ws.Perm ws' → Different ws →
        ((s'.writeAll c ws').elements c).entries = a.entries ∧
          ∀ i, i.isNaN = false → ((s'.writeAll c ws').elements c).get? i = a.get? i := by
  obtain ⟨hlt, rfl, hbefore⟩ := h.spec
  intro a
  have ha : a = (s'.elements c).insertAll ws := elements_writeAll hlt ws
  have hasc : Ascending a.entries := by
    rw [ha]
    exact Tree.ascending_insertAll hws hbefore
  refine ⟨⟨?_, ?_⟩, rfl, a.size_eq, ?_, ?_, ?_⟩
  · intro i hi
    obtain ⟨e, he, rfl⟩ := List.mem_map.mp hi
    exact hasc.numbers e he
  · exact List.pairwise_map.mpr hasc.ordered
  · intro i hi
    rw [ha]
    exact Tree.get?_insertAll hbefore hws hi
  · intro i e
    rw [ha]
    exact Tree.lastAt?_insertAll hbefore hws
  · intro ws' hperm hdiff
    have hws' : ∀ w ∈ ws', w.1.isNaN = false := fun w hw => hws w (hperm.mem_iff.mpr hw)
    rw [elements_writeAll hlt, ha]
    refine ⟨(Tree.entries_insertAll_of_perm hbefore hws hperm hdiff).symm, ?_⟩
    intro i hi
    rw [Tree.get?_insertAll hbefore hws' hi, Tree.get?_insertAll hbefore hws hi, lastAt?_append,
      lastAt?_append, lastAt?_of_perm hperm hdiff]

/-- An array in an element of another one. -/
def nestedPair : Store :=
  ⟨#[.ofList [(.one, .scalar .one)], .ofList [(.one, .boolean true), (.zero, .array (some 0))]]⟩

/-- In a copy of the outer array, a write at the other zero takes the place of the inner array and
leaves the index with its sign. -/
theorem array_is_sorted_map_zeros : ∃ s' before,
    nestedPair.Makes s' 3 before ∧ before.map (·.1) = [.zero, .one] ∧
      ((s'.writeAll 3 [(Number.negativeZero, .boolean false)]).elements 3).get? .zero =
        some (.boolean false) ∧
      (Number.negativeZero, .boolean false) ∈
        ((s'.writeAll 3 [(Number.negativeZero, .boolean false)]).elements 3).entries := by
  have hfacts : (nestedPair.clone? (.array (some 1))).map (fun r => (r.2, (r.1.elements 3).keys)) =
      some (.array (some 3), [.zero, .one]) := by
    decide +kernel
  obtain ⟨⟨s', v⟩, hclone, hpair⟩ := Option.map_eq_some_iff.mp hfacts
  obtain ⟨rfl, hkeys⟩ := Prod.mk.inj hpair
  have hasc : Ascending (nestedPair.elements 1).entries :=
    Tree.ascending_ofList (by decide +kernel)
  have hmakes : nestedPair.Makes s' 3 (s'.elements 3).entries := .copy hasc hclone
  have hnumbers : ∀ w ∈ [(Number.negativeZero, Value.boolean false)], w.1.isNaN = false := by
    decide +kernel
  obtain ⟨-, -, -, hget, hlast, -⟩ := array_is_sorted_map hmakes hnumbers
  have hzero : lastAt? ((s'.elements 3).entries ++ [(Number.negativeZero, .boolean false)]) .zero =
      some (Number.negativeZero, .boolean false) := by
    rw [lastAt?_concat, if_pos (by decide +kernel)]
  refine ⟨s', _, hmakes, hkeys, ?_, ((hlast _ _).mp hzero).1⟩
  rw [hget .zero (by decide +kernel), hzero]
  rfl

/-- The store of a new array after some writes to it. -/
def ofWrites (ws : List (Number × Value)) : Store := (Store.empty.alloc .empty).1.writeAll 0 ws

/-- A new array that has been written to at zero is found to have an element at what is no number,
although there was no write at an index equal to that.  And the copy of an array that has been
written to at what is no number is found to have an element at one. -/
theorem array_not_sorted_map_nan :
    lastAt? [(.zero, Value.boolean true)] .nan = none ∧
      ((ofWrites [(.zero, .boolean true)]).elements 0).get? .nan = some (.boolean true) ∧
      ∃ s', (ofWrites [(.nan, .boolean true)]).clone? (.array (some 0)) =
          some (s', .array (some 1)) ∧
        lastAt? (s'.elements 1).entries .one = none ∧
        (s'.elements 1).get? .one = some (.boolean true) := by
  have hfacts : lastAt? [(.zero, Value.boolean true)] .nan = none ∧
      ((ofWrites [(.zero, .boolean true)]).elements 0).get? .nan = some (.boolean true) ∧
      ((ofWrites [(.nan, .boolean true)]).clone? (.array (some 0))).map (fun r =>
          (r.2, lastAt? (r.1.elements 1).entries .one, (r.1.elements 1).get? .one)) =
        some (.array (some 1), none, some (.boolean true)) := by
    decide +kernel
  obtain ⟨hnone, hfound, hcopy⟩ := hfacts
  obtain ⟨⟨s', v⟩, hclone, htriple⟩ := Option.map_eq_some_iff.mp hcopy
  simp only [Prod.mk.injEq] at htriple
  obtain ⟨rfl, hlast, hget⟩ := htriple
  exact ⟨hnone, hfound, s', hclone, hlast, hget⟩

end Store

end AddressCode
