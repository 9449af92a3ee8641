import AddressCode.Proofs.ByteOrder
import AddressCode.Proofs.Nesting
import AddressCode.Proofs.PointerAccess
import AddressCode.Proofs.SortedKeys
import Mathlib.Data.List.DropRight
import Mathlib.Data.Finset.Card

/-!
# AddressCode.Proofs.Listings — listings do not depend on the order of a table

A table may yield its keys in any order (`Ordered.Yields`).  What is listed of heaps, scopes and
label tables is the same for all of these orders, and it is said here from the operations that led
to the table:

* a step lemma for the operations of a heap, `Heap.tag?_apply`, gives what is known of a variable
  after any of them (`Heap.tag?_after`): what the last set since the heap was cleared gave to it;
* the names of a heap or of a scope are brought into order by a search tree, and there is only one
  list that it can make of them (`lists_sortKeys`);
* labels are sorted by a comparison in which no two of them are equal, so whatever way of sorting
  ends with the same list (`Labels.eq_listOf`).

The main theorem is `listings_independent_of_order`.  Names ascend by their bytes.
-/

namespace AddressCode

open Text.Utf8

/-! ## Last writes -/

section LastWrites

variable {α κ : Type} [DecidableEq κ] {ws : List (κ × α)} {name : κ}

/-- What the last of some writes to a name has written. -/
def lastFor? (ws : List (κ × α)) (name : κ) : Option α := ws.reverse.lookup name

/-- The latest write counts, if it is to the name. -/
theorem lastFor?_concat (ws : List (κ × α)) (w : κ × α) (name : κ) :
    lastFor? (ws ++ [w]) name = if name = w.1 then some w.2 else lastFor? ws name := by
  rw [lastFor?, List.reverse_concat, List.lookup_cons]
  by_cases hw : name = w.1
  · simp [hw]
  · simp [beq_false_of_ne hw, hw, lastFor?]

/-- Later writes count before earlier ones. -/
theorem lastFor?_append (ws ws' : List (κ × α)) (name : κ) :
    lastFor? (ws ++ ws') name = (lastFor? ws' name).or (lastFor? ws name) := by
  rw [lastFor?, List.reverse_append, List.lookup_append]
  rfl

theorem lastFor?_isSome : (lastFor? ws name).isSome = true ↔ name ∈ ws.map (·.1) := by
  simp only [lastFor?, List.lookup_isSome_iff, List.mem_reverse, beq_iff_eq, List.mem_map,
    eq_comm (a := name)]

end LastWrites

/-! ## Lists of names -/

/-- A list of the names with a property, each of them less than all that follow, by their bytes. -/
structure Lists (names : List String) (P : String → Prop) : Prop where
  ascending : names.Pairwise fun a b => encode a < encode b
  mem_iff : ∀ name, name ∈ names ↔ P name

/-- Sorted names are such a list. -/
theorem lists_sortKeys {names : List String} {P : String → Prop}
    (h : ∀ name, name ∈ names ↔ P name) : Lists (Tree.sortKeys names) P := by
  constructor
  · refine (Tree.increasing_sortKeys names).imp ?_
    intro a b hlt
    exact encode_lt_encode_iff.mpr (Std.LawfulLTCmp.eq_lt_iff_lt.mp hlt)
  · intro name
    rw [Tree.mem_sortKeys, h]

/-! ## Heaps -/

namespace Heap

variable {h : Heap} {name : String} {known : List String}

/-- An operation that may change a heap. -/
inductive Op where
  | set (name : String) (v : Value)
  | declare (name : String)
  | bind (vs : List Value)
  | clear

namespace Op

/-- The heap after an operation. -/
def apply (h : Heap) : Op → Heap
  | set name v => h.set name v
  | declare name => h.declare name
  | bind vs => h.bind vs
  | clear => h.clear

def isClear : Op → Bool
  | clear => true
  | _ => false

/-- The values that an operation sets, with the names of their variables. -/
def sets : Op → List (String × Value)
  | set name v => [(name, v)]
  | declare _ => []
  | bind vs => vs.mapIdx fun i v => (inputName i, v)
  | clear => []

/-- The names that an operation makes known. -/
def names : Op → List String
  | declare name => [name]
  | op => op.sets.map (·.1)

theorem mem_names_of_sets {op : Op} (h : name ∈ op.sets.map (·.1)) : name ∈ op.names := by
  cases op with
  | declare => cases h
  | _ => exact h

end Op

/-- The heap after some operations. -/
def after (ops : List Op) : Heap := ops.foldl Op.apply empty

/-- The operations since the last one that cleared the heap. -/
def sinceClear (ops : List Op) : List Op := ops.rtakeWhile fun op => !op.isClear

/-- The value that the last set of a variable since the heap was cleared gave to it. -/
def lastSet? (ops : List Op) (name : String) : Option Value :=
  lastFor? ((sinceClear ops).flatMap Op.sets) name

/-- The names that were made known since the heap was cleared. -/
def mentioned (ops : List Op) : List String := (sinceClear ops).flatMap Op.names

theorem tag?_set (h : Heap) (x : String) (v : Value) (name : String) :
    (h.set x v).tag? name = if name = x ∧ x ≠ "" then some v else h.tag? name := by
  by_cases hname : name = x
  · by_cases hx : x = ""
    · simp [set, hx]
    · rw [hname, tag?_set_self h v hx, if_pos ⟨rfl, hx⟩]
  · rw [tag?_set_of_ne h v hname, if_neg fun hand => hname hand.1]

/-- Set variables one after the other. -/
def setAll (h : Heap) (ws : List (String × Value)) : Heap := ws.foldl (fun h w => h.set w.1 w.2) h

/-- Variables that are set one after the other have the last values. -/
theorem tag?_setAll (h : Heap) (ws : List (String × Value)) (hname : name ≠ "") :
    (h.setAll ws).tag? name = (lastFor? ws name).or (h.tag? name) := by
  induction ws using List.reverseRecOn with
  | nil => rfl
  | append_singleton ws w ih =>
    have hconcat : h.setAll (ws ++ [w]) = (h.setAll ws).set w.1 w.2 := by simp [setAll]
    rw [hconcat, tag?_set, lastFor?_concat]
    by_cases hw : name = w.1
    · rw [if_pos ⟨hw, hw ▸ hname⟩, if_pos hw]
      rfl
    · rw [if_neg fun hand => hw hand.1, if_neg hw, ih]

/-- Inputs are set one after the other. -/
theorem bindFrom_eq (h : Heap) (i : Nat) (vs : List Value) :
    h.bindFrom i vs = h.setAll (vs.mapIdx fun j v => (inputName (i + j), v)) := by
  induction vs generalizing h i with
  | nil => rfl
  | cons v vs ih =>
    rw [bindFrom, ih, List.mapIdx_cons, setAll, setAll, List.foldl_cons]
    simp only [Nat.add_right_comm i 1, Nat.add_assoc, Nat.add_zero]

theorem bind_eq (h : Heap) (vs : List Value) : h.bind vs = h.setAll (Op.bind vs).sets := by
  rw [bind, bindFrom_eq]
  simp only [Nat.zero_add]
  rfl

theorem tag?_declare (h : Heap) (x : String) (hname : name ≠ "") : (h.declare x).tag? name =
    (h.tag? name).or (if name = x then some .undefined else none) := by
  rw [declare]
  by_cases hx : name = x
  · subst hx
    rw [if_pos rfl]
    cases htag : h.tag? name with
    | none => simp [tag?_set, hname]
    | some v => simp [htag]
  · rw [if_neg hx, Option.or_none]
    split
    · rfl
    · exact tag?_set_of_ne h _ hx

/-- What is known of a variable after an operation that does not clear the heap: the last value that
it sets, or else what was known before, or else that the variable has no value. -/
theorem tag?_apply (h : Heap) {op : Op} (hop : op.isClear = false) (hname : name ≠ "") :
    (op.apply h).tag? name = (lastFor? op.sets name).or
      ((h.tag? name).or (if name ∈ op.names then some .undefined else none)) := by
  have hsets : ∀ ws : List (String × Value), (lastFor? ws name).or
      ((h.tag? name).or (if name ∈ ws.map (·.1) then some .undefined else none)) =
        (lastFor? ws name).or (h.tag? name) := by
    intro ws
    cases hlast : lastFor? ws name with
    | some v => rfl
    | none =>
      have hmem : name ∉ ws.map (·.1) := by
        rw [← lastFor?_isSome, hlast]
        decide
      rw [if_neg hmem, Option.or_none]
  cases op with
  | set x v => exact (tag?_setAll h [(x, v)] hname).trans (hsets _).symm
  | declare x =>
    simp only [Op.names, List.mem_singleton]
    exact tag?_declare h x hname
  | bind vs =>
    rw [Op.apply, bind_eq]
    exact (tag?_setAll h _ hname).trans (hsets _).symm
  | clear => cases hop

section Run

variable (ops : List Op) (op : Op)

theorem after_concat : after (ops ++ [op]) = op.apply (after ops) := by
  rw [after, List.foldl_append]
  rfl

theorem sinceClear_concat :
    sinceClear (ops ++ [op]) = if op.isClear then [] else sinceClear ops ++ [op] := by
  rw [sinceClear, List.rtakeWhile_concat]
  cases op.isClear <;> rfl

/-- What is known of a variable after some operations.  The induction goes back along the operations
to the last one that cleared the heap. -/
theorem tag?_after (hname : name ≠ "") : (after ops).tag? name =
    (lastSet? ops name).or (if name ∈ mentioned ops then some .undefined else none) := by
  induction ops using List.reverseRecOn with
  | nil => rfl
  | append_singleton ops op ih =>
    rw [after_concat, lastSet?, mentioned, sinceClear_concat]
    cases hop : op.isClear with
    | true =>
      cases op with
      | clear => rfl
      | _ => cases hop
    | false =>
      -- a name is known from before or through the operation
      have hmem : ∀ {u : Value}, (if name ∈ mentioned ops ++ op.names then some u else none) =
          (if name ∈ mentioned ops then some u else none).or
            (if name ∈ op.names then some u else none) := by
        intro u
        by_cases hold : name ∈ mentioned ops <;> by_cases hnew : name ∈ op.names <;>
          simp [hold, hnew]
      rw [tag?_apply _ hop hname, ih]
      simp only [Bool.false_eq_true, if_false, List.flatMap_append, List.flatMap_singleton]
      rw [lastFor?_append, ← mentioned, hmem]
      simp only [Option.or_assoc]
      rfl

/-- What setting a variable keeps is kept by every operation. -/
theorem after_induction {P : Heap → Prop} (hempty : P empty)
    (hset : ∀ h x v, P h → P (h.set x v)) : P (after ops) := by
  have hsetAll : ∀ (ws : List (String × Value)) (h : Heap), P h → P (h.setAll ws) := by
    intro ws
    induction ws with
    | nil => exact fun h hh => hh
    | cons w ws ih => exact fun h hh => ih _ (hset h w.1 w.2 hh)
  induction ops using List.reverseRecOn with
  | nil => exact hempty
  | append_singleton ops op ih =>
    rw [after_concat]
    cases op with
    | set x v => exact hset _ x v ih
    | declare x =>
      rw [Op.apply, declare]
      split
      · exact ih
      · exact hset _ x _ ih
    | bind vs =>
      rw [Op.apply, bind_eq]
      exact hsetAll _ _ ih
    | clear => exact hempty

/-- No variable has the empty name. -/
theorem tag?_after_empty : (after ops).tag? "" = none := by
  refine after_induction (P := fun h => h.tag? "" = none) ops rfl ?_
  intro h x v hnone
  rw [tag?_set, if_neg fun hand => hand.2 hand.1.symm, hnone]

/-- The table is in order after any operations. -/
theorem increasing_after : Increasing (after ops).tags.keys := by
  refine after_induction (P := fun h => Increasing h.tags.keys) ops List.Pairwise.nil ?_
  intro h x v hkeys
  rw [set]
  split
  · exact hkeys
  · exact Ordered.increasing_insert hkeys

theorem mem_mentioned_of_lastSet? {v : Value} (h : lastSet? ops name = some v) :
    name ∈ mentioned ops := by
  have hsome : (lastSet? ops name).isSome = true := by simp [h]
  obtain ⟨w, hw, rfl⟩ := List.mem_map.mp (lastFor?_isSome.mp hsome)
  obtain ⟨op, hop, hsets⟩ := List.mem_flatMap.mp hw
  exact List.mem_flatMap.mpr ⟨op, hop, Op.mem_names_of_sets (List.mem_map_of_mem hsets)⟩

/-- The variables that are known. -/
theorem contains_after :
    (after ops).tags.contains name = true ↔ name ≠ "" ∧ name ∈ mentioned ops := by
  change ((after ops).tag? name).isSome = true ↔ _
  by_cases hname : name = ""
  · simp [hname, tag?_after_empty]
  · rw [tag?_after ops hname]
    cases hlast : lastSet? ops name with
    | some v => simp [hname, mem_mentioned_of_lastSet? ops hlast]
    | none => by_cases hmem : name ∈ mentioned ops <;> simp [hname, hmem]

/-- The variables that are defined, with their values: what was set last, if that is defined. -/
theorem lookup?_after {v : Value} : (after ops).lookup? name = some v ↔
    name ≠ "" ∧ lastSet? ops name = some v ∧ v.isDefined = true := by
  rw [lookup?, Option.filter_eq_some_iff]
  by_cases hname : name = ""
  · simp [hname, tag?_after_empty]
  · rw [tag?_after ops hname]
    cases hlast : lastSet? ops name with
    | some w => simp [hname]
    | none =>
      -- what is only known has no value
      by_cases hmem : name ∈ mentioned ops
      · simp only [hmem, if_true, Option.none_or, Option.some.injEq, reduceCtorEq, false_and,
          and_false, iff_false]
        rintro ⟨rfl, hdef⟩
        cases hdef
      · simp [hmem]

theorem has_after : (after ops).has name = true ↔
    name ≠ "" ∧ ∃ v, lastSet? ops name = some v ∧ v.isDefined = true := by
  rw [has_iff]
  simp only [lookup?_after, exists_and_left]

end Run

/-! ### What is listed -/

/-- Each name that is listed is visited with the value that looking it up gives. -/
theorem entriesOf_eq (h : Heap) (known : List String) :
    (h.entriesOf known).map (fun e => (e.1, some e.2)) =
      (h.namesOf known).map fun name => (name, h.lookup? name) := by
  have hdef : ∀ name ∈ h.namesOf known, h.has name = true := by
    intro name hname
    exact (List.mem_filter.mp (Tree.mem_sortKeys.mp hname)).2
  rw [entriesOf]
  generalize h.namesOf known = names at hdef
  induction names with
  | nil => rfl
  | cons name names ih =>
    obtain ⟨hname, hnames⟩ := List.forall_mem_cons.mp hdef
    obtain ⟨v, hv⟩ := has_iff.mp hname
    simp [tag?_of_lookup? hv, hv, ih hnames]

variable {ops : List Op}

theorem mem_filter_has (h : (after ops).tags.Yields known) (name : String) :
    name ∈ known.filter (after ops).has ↔
      name ≠ "" ∧ ∃ v, lastSet? ops name = some v ∧ v.isDefined = true := by
  rw [List.mem_filter, has_after, h.mem_iff, contains_after]
  refine and_iff_right_of_imp ?_
  rintro ⟨hname, v, hlast, -⟩
  exact ⟨hname, mem_mentioned_of_lastSet? ops hlast⟩

/-- The names that are listed do not depend on the order in which the table yields them. -/
theorem namesOf_eq (h : (after ops).tags.Yields known) :
    (after ops).namesOf known = (after ops).names := by
  refine Tree.sortKeys_congr fun name => ?_
  rw [List.mem_filter, List.mem_filter, h.mem_keys]

/-- The size of a heap is the number of the names that were made known. -/
theorem size_after : (after ops).size = ((mentioned ops).toFinset.erase "").card := by
  have hset : (mentioned ops).toFinset.erase "" = (after ops).tags.keys.toFinset := by
    ext name
    rw [Finset.mem_erase, List.mem_toFinset, List.mem_toFinset, Ordered.mem_keys_iff,
      contains_after]
  rw [hset, List.toFinset_card_of_nodup (increasing_after ops).nodup, Ordered.keys,
    List.length_map]
  rfl

end Heap

/-! ## Scopes -/

namespace Scope

/-- An operation that changes a scope. -/
inductive Op where
  | define (p : Procedure)
  | append (name : String) (line : Line)

/-- The scope after an operation. -/
def Op.apply (s : Scope) : Op → Scope
  | define p => s.define p
  | append name line => s.append name line

/-- A scope after some operations. -/
def after (name : String) (ops : List Op) : Scope := ops.foldl Op.apply (.new name)

variable {name p : String} {ops : List Op}

theorem after_concat (name : String) (ops : List Op) (op : Op) :
    after name (ops ++ [op]) = op.apply (after name ops) := by
  rw [after, List.foldl_append]
  rfl

/-- The procedures of a scope are those that were defined in it. -/
theorem mem_keys_after :
    p ∈ (after name ops).procs.keys ↔ ∃ proc, .define proc ∈ ops ∧ proc.name = p := by
  induction ops using List.reverseRecOn with
  | nil => simp [after, new, Ordered.keys, Ordered.empty]
  | append_singleton ops op ih =>
    rw [after_concat]
    cases op with
    | define proc =>
      rw [Op.apply, define, Ordered.mem_keys_insert, ih]
      simp only [List.mem_append, List.mem_singleton, Op.define.injEq]
      constructor
      · rintro (rfl | ⟨proc', hmem, rfl⟩)
        · exact ⟨proc, Or.inr rfl, rfl⟩
        · exact ⟨proc', Or.inl hmem, rfl⟩
      · rintro ⟨proc', hmem | rfl, rfl⟩
        · exact Or.inr ⟨proc', hmem, rfl⟩
        · exact Or.inl rfl
    | append q line =>
      rw [Op.apply, append, Ordered.keys_modify, ih]
      simp

/-- The table is in order after any operations. -/
theorem increasing_after (name : String) (ops : List Op) :
    Increasing (after name ops).procs.keys := by
  induction ops using List.reverseRecOn with
  | nil => exact List.Pairwise.nil
  | append_singleton ops op ih =>
    rw [after_concat]
    cases op with
    | define proc => exact Ordered.increasing_insert ih
    | append q line =>
      rw [Op.apply, append, Ordered.keys_modify]
      exact ih

end Scope

/-! ## Labels -/

namespace Labels

variable {π κ : Type} [Ord κ] {ds : List (κ × π)} {label : κ} {known sorted : List κ}

section Order

variable [Ord π]

theorem perm_listOf (ls : Labels π κ) (known : List κ) : (ls.listOf known).Perm known :=
  List.mergeSort_perm known _

variable [Std.TransOrd π] [Std.TransOrd κ]

/-- The comparison of labels is an order. -/
instance (ls : Labels π κ) : Std.TransCmp ls.order :=
  inferInstanceAs (Std.TransCmp (compareLex (compareOn ls.lookup?) compare))

/-- No two labels are at the same place of the order. -/
instance [Std.LawfulEqOrd κ] (ls : Labels π κ) : Std.LawfulEqCmp ls.order where
  eq_of_compare h := by
    rw [order, Ordering.then_eq_eq] at h
    exact Std.LawfulEqCmp.eq_of_compare h.2

/-- Labels that are listed are in order. -/
theorem pairwise_listOf (ls : Labels π κ) (known : List κ) :
    (ls.listOf known).Pairwise fun a b => (ls.order a b).isLE = true := by
  refine List.pairwise_mergeSort (fun a b c => Std.TransCmp.isLE_trans) ?_ known
  intro a b
  have hswap : ls.order b a = (ls.order a b).swap := Std.OrientedCmp.eq_swap
  rw [hswap]
  cases ls.order a b <;> rfl

/-- Whatever way of sorting ends with the same list. -/
theorem eq_listOf [Std.LawfulEqOrd κ] (ls : Labels π κ) (hperm : sorted.Perm known)
    (hsorted : sorted.Pairwise fun a b => (ls.order a b).isLE = true) :
    sorted = ls.listOf known := by
  -- sorted lists with the same elements differ at most where two of these are equal in the order
  refine List.Perm.eq_of_pairwise ?_ hsorted (ls.pairwise_listOf known)
    (hperm.trans (ls.perm_listOf known).symm)
  intro a b _ _ hab hba
  exact Std.LawfulEqCmp.eq_of_compare (Std.OrientedCmp.isLE_antisymm hab hba)

end Order

variable [DecidableEq κ] [Inhabited κ]

/-- The table of some definitions, one after the other. -/
def after (ds : List (κ × π)) : Labels π κ := ds.foldl (fun ls d => ls.define d.1 d.2) empty

/-- The labels of some definitions are listed: each that is not empty once, by the positions of
their last definitions and by the order of their names at the same position, the same list for every
order in which a table may yield the labels, and whatever way they are sorted. -/
structure Listed [Ord π] [LT π] (before : κ → κ → Prop) (ds : List (κ × π)) (known : List κ) :
    Prop where
  nodup : ((after ds).listOf known).Nodup
  mem_iff : ∀ label, label ∈ (after ds).listOf known ↔ label ≠ default ∧ label ∈ ds.map (·.1)
  ascending : ((after ds).listOf known).Pairwise fun a b => ∃ i j, lastFor? ds a = some i ∧
    lastFor? ds b = some j ∧ (i < j ∨ i = j ∧ before a b)
  eq_list : (after ds).listOf known = (after ds).list
  unique : ∀ sorted : List κ, sorted.Perm known →
    sorted.Pairwise (fun a b => ((after ds).order a b).isLE = true) → sorted = (after ds).list

theorem after_concat (ds : List (κ × π)) (d : κ × π) :
    after (ds ++ [d]) = (after ds).define d.1 d.2 := by
  rw [after, List.foldl_append]
  rfl

theorem increasing_after [Std.TransOrd κ] (ds : List (κ × π)) :
    Increasing (after ds).positions.keys := by
  induction ds using List.reverseRecOn with
  | nil => exact List.Pairwise.nil
  | append_singleton ds d ih =>
    rw [after_concat, define]
    split
    · exact ih
    · exact Ordered.increasing_insert ih

variable [Std.LawfulEqOrd κ]

/-- A label that is not empty has the position of its last definition. -/
theorem lookup?_after (ds : List (κ × π)) (label : κ) :
    (after ds).lookup? label = if label = default then none else lastFor? ds label := by
  induction ds using List.reverseRecOn with
  | nil => split <;> rfl
  | append_singleton ds d ih =>
    rw [after_concat, lookup?_define, lastFor?_concat, ih]
    by_cases hlabel : label = default
    · rw [if_pos hlabel, if_neg fun hand => hand.2 (hand.1 ▸ hlabel), if_pos hlabel]
    · by_cases hd : label = d.1
      · rw [if_pos ⟨hd, hd ▸ hlabel⟩, if_neg hlabel, if_pos hd]
      · rw [if_neg fun hand => hd hand.1, if_neg hlabel, if_neg hlabel, if_neg hd]

/-- The labels of a table are those that were defined. -/
theorem contains_after :
    (after ds).positions.contains label = true ↔ label ≠ default ∧ label ∈ ds.map (·.1) := by
  change ((after ds).lookup? label).isSome = true ↔ _
  rw [lookup?_after]
  by_cases hlabel : label = default
  · simp [hlabel]
  · rw [if_neg hlabel, lastFor?_isSome]
    simp [hlabel]

variable [Ord π] [Std.TransOrd π] [Std.TransOrd κ]

/-- The labels that are listed do not depend on the order in which the table yields them. -/
theorem listOf_eq (h : (after ds).positions.Yields known) :
    (after ds).listOf known = (after ds).list := by
  have hperm : known.Perm (after ds).positions.keys :=
    (Ordered.yields_iff_perm (increasing_after ds)).mp h
  exact eq_listOf _ ((perm_listOf _ known).trans hperm) (pairwise_listOf _ known)

variable [LT π] [Std.LawfulEqOrd π] [Std.LawfulLTOrd π]

/-- Labels are listed by position, and by name at the same position. -/
theorem pairwise_listOf_after (h : (after ds).positions.Yields known) :
    ((after ds).listOf known).Pairwise fun a b =>
      ∃ i j, lastFor? ds a = some i ∧ lastFor? ds b = some j ∧
        (i < j ∨ i = j ∧ compare a b = .lt) := by
  have hnodup : ((after ds).listOf known).Nodup := (perm_listOf _ known).nodup_iff.mpr h.nodup
  have hplace : ∀ {a}, a ∈ (after ds).listOf known →
      ∃ i, lastFor? ds a = some i ∧ (after ds).lookup? a = some i := by
    intro a ha
    have hknown : a ∈ known := (perm_listOf _ known).mem_iff.mp ha
    obtain ⟨hne, hmem⟩ := contains_after.mp ((h.mem_iff a).mp hknown)
    obtain ⟨i, hi⟩ := Option.isSome_iff_exists.mp (lastFor?_isSome.mpr hmem)
    exact ⟨i, hi, by rw [lookup?_after, if_neg hne, hi]⟩
  refine ((pairwise_listOf _ known).and hnodup).imp_of_mem ?_
  rintro a b ha hb ⟨hle, hne⟩
  obtain ⟨i, hi, hai⟩ := hplace ha
  obtain ⟨j, hj, hbj⟩ := hplace hb
  refine ⟨i, j, hi, hj, ?_⟩
  -- two labels are never at the same place of the order
  have hlt : (after ds).order a b = .lt := by
    rcases Ordering.isLE_iff_eq_lt_or_eq_eq.mp hle with hlt | heq
    · exact hlt
    · exact absurd (Std.LawfulEqCmp.eq_of_compare heq) hne
  have hcompare : compare (some i) (some j) = compare i j := rfl
  rw [order, Ordering.then_eq_lt, hai, hbj, hcompare] at hlt
  rcases hlt with hlt | ⟨heq, hname⟩
  · exact Or.inl (Std.LawfulLTCmp.eq_lt_iff_lt.mp hlt)
  · exact Or.inr ⟨Std.LawfulEqCmp.eq_of_compare heq, hname⟩

/-- The labels of any definitions are listed by position and name. -/
theorem listed_after {before : κ → κ → Prop} (h : (after ds).positions.Yields known)
    (hbefore : ∀ {a b : κ}, compare a b = .lt → before a b) : Listed before ds known := by
  have hperm := perm_listOf (after ds) known
  refine ⟨hperm.nodup_iff.mpr h.nodup, ?_, ?_, listOf_eq h, ?_⟩
  · intro label
    rw [hperm.mem_iff, h.mem_iff, contains_after]
  · refine (pairwise_listOf_after h).imp ?_
    rintro a b ⟨i, j, hi, hj, hlt⟩
    exact ⟨i, j, hi, hj, hlt.imp_right fun hname => ⟨hname.1, hbefore hname.2⟩⟩
  · intro sorted hsorted hpairs
    rw [← listOf_eq h]
    exact eq_listOf _ hsorted hpairs

end Labels

/-- Let a table be reached by any operations, and `known` be its keys in any order.

The names listed of a heap are those that are not empty and whose last set since the heap was
cleared stored a defined value, in strictly ascending order of their bytes.  They are visited in
this order with the values that looking them up gives.  The size counts every name that was made
known since then, with a value or not.

The names listed of a scope are those of the procedures defined in it, in the same order.

Each label that is not empty and was defined is listed once; labels are ordered by the positions of
their last definitions, and by the bytes of their names at the same position.  This holds of strings
and of bytes that need not be those of a string.

None of the lists depends on `known`, and labels come out in this order whatever way they are
sorted. -/
theorem listings_independent_of_order {π : Type} [Ord π] [LT π] [Std.TransOrd π]
    [Std.LawfulEqOrd π] [Std.LawfulLTOrd π] :
    (∀ ops known, (Heap.after ops).tags.Yields known →
      let h := Heap.after ops
      Lists (h.namesOf known) (fun name =>
        name ≠ "" ∧ ∃ v, Heap.lastSet? ops name = some v ∧ v.isDefined = true) ∧
      (h.entriesOf known).map (fun e => (e.1, some e.2)) =
        (h.namesOf known).map (fun name => (name, h.lookup? name)) ∧
      h.size = ((Heap.mentioned ops).toFinset.erase "").card ∧
      h.namesOf known = h.names ∧ h.entriesOf known = h.entries) ∧
    (∀ name ops known, (Scope.after name ops).procs.Yields known →
      Lists (Tree.sortKeys known) (fun p => ∃ proc, .define proc ∈ ops ∧ proc.name = p) ∧
      Tree.sortKeys known = (Scope.after name ops).names) ∧
    (∀ (ds : List (String × π)) (known : List String), (Labels.after ds).positions.Yields known →
      Labels.Listed (fun a b => encode a < encode b) ds known) ∧
    ∀ (ds : List (List UInt8 × π)) (known : List (List UInt8)),
      (Labels.after ds).positions.Yields known → Labels.Listed (fun a b => a < b) ds known := by
  refine ⟨?_, ?_, ?_, ?_⟩
  · intro ops known h
    refine ⟨lists_sortKeys (Heap.mem_filter_has h), Heap.entriesOf_eq _ known, Heap.size_after,
      Heap.namesOf_eq h, ?_⟩
    simp only [Heap.entriesOf, Heap.entries, Heap.namesOf_eq h, Heap.names]
  · intro name ops known h
    refine ⟨lists_sortKeys fun p => ?_, Tree.sortKeys_congr fun p => h.mem_keys⟩
    rw [h.mem_keys, Scope.mem_keys_after]
  · intro ds known h
    exact Labels.listed_after h fun hlt =>
      encode_lt_encode_iff.mpr (Std.LawfulLTCmp.eq_lt_iff_lt.mp hlt)
  · intro ds known h
    exact Labels.listed_after h compare_bytes_eq_lt_iff.mp

/-- Operations that make a name known twice, give one no value, take the value of another one away
and clear the heap. -/
def revisedHeap : List Heap.Op :=
  [.set "b" (.scalar .one), .clear, .set "z" (.boolean true), .declare "m", .set "" (.boolean true),
    .set "é" (.pointer "z"), .set "a" (.boolean true), .bind [.scalar .one], .set "a" .undefined]

/-- Operations on a scope that define a procedure twice. -/
def redefinedScope : List Scope.Op :=
  [.define ⟨"g", 1, #[]⟩, .append "g" (.ofString "return p0"), .define ⟨"f", 0, #[]⟩,
    .define ⟨"g", 0, #[]⟩]

/-- Labels at shared positions, one of which is moved. -/
def sharedPositions : List (String × Int) :=
  [("x", 3), ("é", 1), ("b", 1), ("", 7), ("a", 1), ("x", 0)]

/-- The names come out in the order of their bytes and the labels in the order of their positions,
although the tables yield them otherwise. -/
theorem listings_independent_of_order_tied :
    (Heap.after revisedHeap).tags.Yields ["é", "m", "a", "z", "p0"] ∧
      (Scope.after "root" redefinedScope).procs.Yields ["g", "f"] ∧
      (Labels.after sharedPositions).positions.Yields ["b", "x", "é", "a"] ∧
      (Heap.after revisedHeap).names = ["p0", "z", "é"] ∧ (Heap.after revisedHeap).size = 5 ∧
      (Scope.after "root" redefinedScope).names = ["f", "g"] ∧
      (Labels.after sharedPositions).list = ["x", "a", "b", "é"] := by
  have hheap : (Heap.after revisedHeap).tags.Yields ["é", "m", "a", "z", "p0"] :=
    (Ordered.yields_iff_perm (Heap.increasing_after _)).mpr (by decide +kernel)
  have hscope : (Scope.after "root" redefinedScope).procs.Yields ["g", "f"] :=
    (Ordered.yields_iff_perm (Scope.increasing_after _ _)).mpr (by decide +kernel)
  have hlabels : (Labels.after sharedPositions).positions.Yields ["b", "x", "é", "a"] :=
    (Ordered.yields_iff_perm (Labels.increasing_after _)).mpr (by decide +kernel)
  obtain ⟨heaps, scopes, labels, -⟩ := @listings_independent_of_order Int _ _ _ _ _
  obtain ⟨-, -, hsize, hnames, -⟩ := heaps _ _ hheap
  obtain ⟨-, hprocs⟩ := scopes _ _ _ hscope
  have hlist := (labels _ _ hlabels).unique
  refine ⟨hheap, hscope, hlabels, ?_, ?_, ?_, ?_⟩
  · rw [← hnames]
    decide +kernel
  · rw [hsize]
    decide +kernel
  · rw [← hprocs]
    decide +kernel
  · exact (hlist ["x", "a", "b", "é"] (by decide +kernel) (by decide +kernel)).symm

end AddressCode
