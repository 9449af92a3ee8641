import AddressCode.Proofs.Binding
import AddressCode.Proofs.Copies
import AddressCode.Proofs.OutputLog
import AddressCode.Proofs.Storage

/-!
# AddressCode.Proofs.WellFormedValues — every value of a run is well formed

Undefined values exist, and so do arrays without storage and numbers that are none.  None of them
gets where it would do harm: a variable, a pending parameter and a record hold a defined value, and
an array in one of them has storage, at least one element, and only defined elements under indices
that are numbers and ascend.

* `Store.full_law` says that no array is empty.  An array gets its first element when it is made,
  and the copy of an array has as many elements.
* `ValueLaw.and` puts this together with the laws for storage (`Store.stored_law`), for defined
  values (`Store.defined_law`) and for indices (`Store.ascending_law`).
* `ValueLaw.kept_log` extends a law to the records of the log.

A law speaks of the values in variables, parameters and records.  `Store.Found` are the values that
are found in them to any depth, and these are elements of arrays in the store
(`Store.Sound.wellFormed`).
-/

namespace AddressCode

/-! ## Laws -/

namespace ValueLaw

variable {I J : Store → Prop} {P Q : Store → Value → Prop}

/-- Two laws are one. -/
theorem and (law : ValueLaw I P) (law' : ValueLaw J Q) :
    ValueLaw (fun s => I s ∧ J s) fun s v => P s v ∧ Q s v where
  empty := ⟨law.empty, law'.empty⟩
  plain hv := ⟨law.plain hv, law'.plain hv⟩
  grow hle hv := ⟨law.grow hle hv.1, law'.grow hle hv.2⟩
  element h he := ⟨law.element h.1 he, law'.element h.2 he⟩
  alloc h hv hi := by
    obtain ⟨hI, hP⟩ := law.alloc h.1 hv.1 hi
    obtain ⟨hJ, hQ⟩ := law'.alloc h.2 hv.2 hi
    exact ⟨⟨hI, hJ⟩, hP, hQ⟩
  set h hv hi := ⟨law.set h.1 hv.1 hi, law'.set h.2 hv.2 hi⟩
  clone h hv hw := by
    obtain ⟨hI, hP⟩ := law.clone h.1 hv.1 hw
    obtain ⟨hJ, hQ⟩ := law'.clone h.2 hv.2 hw
    exact ⟨⟨hI, hJ⟩, hP, hQ⟩

end ValueLaw

/-- The store has a property, and so have all variables, pending parameters and records. -/
structure Machine.HoldsAll (I : Store → Prop) (P : Store → Value → Prop) (m : Machine) : Prop
    extends m.Holds I P where
  log : ∀ r ∈ m.log, P m.store r.value

/-- What is printed is the value of an expression. -/
theorem Activation.Does.eval_of_print {limit : Nat} {a a' : Activation} {s s' : Store} {l : Line}
    {v : Value} {line : Int} (hd : a.Does limit s l (.signal a' s' (.print v line))) :
    ∃ x : Expr, x.eval a.heap s = .ok v := by
  cases hd with
  | print _ hv => exact ⟨_, hv⟩

/-- A record that a step adds to the log holds the value of an expression. -/
theorem Machine.mem_log_state {cfg : Config} {m : Machine} {r : Record}
    (hr : r ∈ (m.step cfg).state.log) :
    r ∈ m.log ∨ ∃ x : Expr, x.eval m.current.heap m.store = .ok r.value := by
  rcases log_step cfg m with ⟨hlog, -⟩ | ⟨r', _, hprints, hlog, -⟩
  · exact Or.inl (hlog ▸ hr)
  · obtain ⟨_, _, -, he, rfl, -⟩ := hprints
    rw [hlog] at hr
    rcases Array.mem_push.mp hr with hr | rfl
    · exact Or.inl hr
    · exact Or.inr (does_of_effect he).eval_of_print

namespace ValueLaw

variable {I : Store → Prop} {P : Store → Value → Prop} {cfg : Config} {m m' : Machine}

theorem log_state (law : ValueLaw I P) (h : m.HoldsAll I P) (cfg : Config)
    (hle : m.store.cells.size ≤ (m.step cfg).state.store.cells.size) :
    ∀ r ∈ (m.step cfg).state.log, P (m.step cfg).state.store r.value := by
  intro r hr
  rcases Machine.mem_log_state hr with hr | ⟨x, hv⟩
  · exact law.grow hle (h.log r hr)
  · exact law.grow hle (law.eval h.store h.current hv)

/-- A law holds of the records at every moment of every session. -/
theorem kept_log (law : ValueLaw I P) : Engine.Kept (Machine.HoldsAll I P) where
  initial k := ⟨law.kept.initial k, fun r hr => absurd hr (Array.not_mem_empty r)⟩
  launch inputs p h := ⟨law.kept.launch inputs p h.toHolds, h.log⟩
  step {cfg m m'} h hs := by
    have hle := (Machine.elements_step hs).1
    have hlog := law.log_state h cfg (by rw [hs]; exact hle)
    rw [hs] at hlog
    exact ⟨law.step h.toHolds hs, hlog⟩
  stop {cfg m m'} h hstop := by
    have hfinds : Machine.Finds cfg m m' := Or.inr hstop
    refine ⟨law.kept.stop h.toHolds hstop, ?_⟩
    rcases hfinds.cases with rfl | ⟨rfl, hstore⟩
    · exact h.log
    · exact law.log_state h cfg (by rw [hstore])

end ValueLaw

/-! ## Arrays have elements -/

namespace Tree

variable {κ α : Type} [Ord κ] {k : κ} {v : α} {t : Tree κ α}

theorem entries_insert_ne_nil : (t.insert k v).entries ≠ [] := by
  rw [insert, entries_blacken]
  cases t with
  | leaf => simp [insertBelow, entries]
  | node c l x w r =>
    simp only [insertBelow]
    split <;> simp [entries]

theorem entries_insertAll_ne_nil {es : List (κ × α)} (h : t.entries ≠ []) :
    (t.insertAll es).entries ≠ [] := by
  induction es generalizing t with
  | nil => exact h
  | cons e es ih => exact ih entries_insert_ne_nil

theorem entries_ofList_ne_nil {es : List (κ × α)} (h : es ≠ []) : (ofList es).entries ≠ [] := by
  obtain ⟨e, es, rfl⟩ := List.exists_cons_of_ne_nil h
  change ((empty.insert e.1 e.2).insertAll es).entries ≠ []
  exact entries_insertAll_ne_nil entries_insert_ne_nil

end Tree

/-- No array of the store is empty. -/
def Store.Full (s : Store) : Prop := ∀ c < s.cells.size, (s.elements c).entries ≠ []

/-- No array in a content is empty. -/
inductive Content.Full : Content → Prop where
  | leaf {x : Content} {v : Value} (h : x.leaf? = some v) : Full x
  | array {items : List (Number × Content)} (hne : items ≠ []) (h : ∀ e ∈ items, Full e.2) :
      Full (.array items)
  | cycle : Full .cycle

namespace Store

variable {s s' : Store} {v w : Value}

theorem Full.alloc (h : s.Full) {es : Elements} (hes : es.entries ≠ []) : (s.alloc es).1.Full := by
  intro c hc
  rw [size_alloc] at hc
  rcases Nat.lt_or_eq_of_le (Nat.le_of_lt_succ hc) with hlt | rfl
  · rw [elements_alloc_of_lt es hlt]
    exact h c hlt
  · rw [elements_alloc_size]
    exact hes

theorem Full.set (h : s.Full) {c : Nat} {i : Number} : (s.set c i v).Full := by
  intro d hd
  rw [size_set] at hd
  by_cases hdc : d = c
  · rw [← hdc, elements_set_self i hd]
    exact Tree.entries_insert_ne_nil
  · rw [elements_set_of_ne i hdc]
    exact h d hd

/-- No array in the content of a value with storage is empty. -/
theorem Full.contentFrom (h : s.Full) (hclosed : s.Closed) {n : Nat} {path : List Nat}
    (hv : v.Stored s) : (s.contentFrom n path v).Full := by
  induction n generalizing path v with
  | zero =>
    cases v with
    | array cell =>
      obtain ⟨c, rfl, -⟩ := hv
      exact .cycle
    | _ => exact .leaf rfl
  | succ n ih =>
    cases v with
    | array cell =>
      obtain ⟨c, rfl, hlt⟩ := hv
      simp only [Store.contentFrom]
      split
      · exact .cycle
      · refine .array (by simpa using h c hlt) ?_
        intro e he
        obtain ⟨e', he', rfl⟩ := List.mem_map.mp he
        exact ih (hclosed c e' he')
    | _ => exact .leaf rfl

/-- What is built from a content without empty arrays is not empty: an array has as many elements
as are built for it. -/
theorem full_build : BuildLaw (fun s x s' _ => x.Full → s.Full → s'.Full)
    (fun s items s' es => (∀ e ∈ items, e.2.Full) → s.Full →
      s'.Full ∧ es.map (·.1) = items.map (·.1)) where
  leaf _ _ h := h
  array _ hitems hx h := by
    cases hx with
    | leaf hleaf => cases hleaf
    | array hne hall =>
      obtain ⟨h', hkeys⟩ := hitems hall h
      refine h'.alloc (Tree.entries_ofList_ne_nil ?_)
      rintro rfl
      exact hne (List.map_eq_nil_iff.mp hkeys.symm)
  nil _ h := ⟨h, rfl⟩
  cons {_ _ _ i x _ rest _} _ _ hx hrest hall h := by
    obtain ⟨hhead, htail⟩ := List.forall_mem_cons.mp hall
    obtain ⟨h', hkeys⟩ := hrest htail (hx hhead h)
    exact ⟨h', by rw [List.map_cons, List.map_cons, hkeys]⟩

/-- No array of a run is empty. -/
theorem full_law : ValueLaw (fun s => s.Closed ∧ s.Full) fun s v => v.Stored s where
  empty := ⟨stored_law.empty, fun c hc => absurd hc (Nat.not_lt_zero c)⟩
  plain hv := stored_law.plain hv
  grow hle hv := stored_law.grow hle hv
  element h he := stored_law.element h.1 he
  alloc h hv hi := by
    obtain ⟨hclosed, hnew⟩ := stored_law.alloc h.1 hv hi
    exact ⟨⟨hclosed, h.2.alloc (Tree.entries_ofList_ne_nil (by simp))⟩, hnew⟩
  set h hv hi := ⟨stored_law.set h.1 hv hi, h.2.set⟩
  clone h hv hw := by
    obtain ⟨hclosed, hnew⟩ := stored_law.clone h.1 hv hw
    exact ⟨⟨hclosed, full_build.build _ hw (h.2.contentFrom h.1 hv) h.2⟩, hnew⟩

/-! ## Well-formed values -/

/-- The values found in a value: itself, and those in the elements of its array. -/
inductive Found (s : Store) : Value → Value → Prop where
  | here (v : Value) : Found s v v
  | inside {c : Nat} {e : Number × Value} {w : Value} (he : e ∈ (s.elements c).entries)
      (h : Found s e.2 w) : Found s (.array (some c)) w

/-- An array with storage and elements, all of which are defined, under indices that are numbers and
ascend. -/
structure SoundArray (s : Store) (cell : Option Nat) (c : Nat) (es : Elements) : Prop where
  cell_eq : cell = some c
  stored : s.get? c = some es
  nonempty : es.entries ≠ []
  defined : ∀ e ∈ es.entries, e.2.isDefined = true
  ascending : Ascending es.entries

end Store

/-- A defined value, and so are all values found in it; the arrays among them are sound. -/
def Value.WellFormed (s : Store) (v : Value) : Prop :=
  ∀ w, s.Found v w → w.isDefined = true ∧
    ∀ cell, w = .array cell → ∃ c es, s.SoundArray cell c es

namespace Store

variable {s : Store} {v w : Value}

/-- A store with arrays that are sound. -/
structure Sound (s : Store) : Prop where
  closed : s.Closed
  full : s.Full
  filled : s.Filled
  ascends : s.Ascends

/-- The laws for storage, elements, defined values and indices together. -/
theorem sound_law : ValueLaw Sound fun s v => v.Stored s ∧ v.isDefined = true := by
  have hstore : Sound = fun s => ((s.Closed ∧ s.Full) ∧ s.Filled) ∧ s.Ascends := by
    funext s
    exact propext ⟨fun h => ⟨⟨⟨h.closed, h.full⟩, h.filled⟩, h.ascends⟩,
      fun h => ⟨h.1.1.1, h.1.1.2, h.1.2, h.2⟩⟩
  have hlaw := (full_law.and defined_law).and ascending_law
  rw [hstore]
  simpa only [and_true] using hlaw

/-- In such a store, a defined value with storage is well formed. -/
theorem Sound.wellFormed (h : s.Sound) (hv : v.Stored s ∧ v.isDefined = true) :
    v.WellFormed s := by
  intro w hw
  induction hw with
  | here v =>
    refine ⟨hv.2, ?_⟩
    rintro cell rfl
    obtain ⟨c, rfl, hlt⟩ := hv.1
    have hes : s.get? c = some (s.elements c) := by
      simp [elements, get?, Array.getElem?_eq_getElem hlt]
    exact ⟨c, _, rfl, hes, h.full c hlt, h.filled c, h.ascends c⟩
  | inside he _ ih => exact ih ⟨h.closed _ _ he, h.filled _ _ he⟩

end Store

namespace Machine

variable {m : Machine}

/-- All values that a state holds or computes are well formed. -/
structure WellFormed (m : Machine) : Prop where
  heap : ∀ a ∈ m.activations, ∀ name v, a.heap.tag? name = some v → v.WellFormed m.store
  params : ∀ a ∈ m.activations, ∀ v ∈ a.params.values, v.WellFormed m.store
  records : ∀ r ∈ m.log, r.value.WellFormed m.store
  computed : ∀ a ∈ m.activations, ∀ (x : Expr) v, x.eval a.heap m.store = .ok v →
    v.WellFormed m.store

theorem HoldsAll.wellFormed
    (h : m.HoldsAll Store.Sound fun s v => v.Stored s ∧ v.isDefined = true) : m.WellFormed := by
  have hall : ∀ a ∈ m.activations,
      a.Holds (fun s v => v.Stored s ∧ v.isDefined = true) m.store := by
    intro a ha
    rcases List.mem_cons.mp ha with rfl | ha
    · exact h.current
    · exact h.callers a ha
  constructor
  case heap =>
    intro a ha name v hv
    obtain ⟨e, he, rfl⟩ := Ordered.mem_of_get? hv
    exact h.store.wellFormed ((hall a ha).heap _ (Heap.mem_values.mpr ⟨e, he, rfl⟩))
  case params => exact fun a ha v hv => h.store.wellFormed ((hall a ha).params v hv)
  case records => exact fun r hr => h.store.wellFormed (h.log r hr)
  case computed =>
    exact fun a ha x v hv => h.store.wellFormed (Store.sound_law.eval h.store (hall a ha) hv)

end Machine

namespace Engine

open Machine

variable {e : Engine}

/-- Between the operations of a session and at every moment of every run, in the frames of all
active calls, variables, pending parameters, records and the values of expressions are defined, and
all arrays found in them are sound. -/
theorem values_wellFormed (he : e.Session) :
    e.machine.WellFormed ∧ ∀ m, e.Reached m → m.WellFormed := by
  have hkept := Store.sound_law.kept_log
  exact ⟨(hkept.session he).wellFormed, fun m hm => (hkept.reached he hm).wellFormed⟩

/-- An engine whose program computes what is no number, stores it in an array of arrays, fails to
use it as an index, prints the array and hands it over. -/
def storingNaN : Engine := (Engine.new {}).load <| .ofStrings
  ["a[2] = 0 / 0", "a[1] = 5", "b[0] = a", "a[a[2]] = 7", "print b", "param b", "f = b[0]"]

/-- The array that was printed is sound, with two elements in the order of their indices. -/
theorem values_wellFormed_storingNaN : ∃ (m : Machine) (r : Record), storingNaN.Reached m ∧
    r ∈ m.log ∧ m.store.text? r.value = some "[0:[1:5 2:NaN]]" ∧ r.value.WellFormed m.store := by
  have hfacts : (storingNaN.exec [] 6).2 = .running ∧
      ∃ r ∈ (storingNaN.exec [] 6).1.machine.log,
        (storingNaN.exec [] 6).1.machine.store.text? r.value = some "[0:[1:5 2:NaN]]" := by
    decide +kernel
  obtain ⟨hrun, r, hr, htext⟩ := hfacts
  have hreached := reached_exec storingNaN [] 6 hrun
  have hsession : storingNaN.Session := .load (.new {}) _
  obtain ⟨-, hall⟩ := values_wellFormed hsession
  exact ⟨_, r, hreached, hr, htext, (hall _ hreached).records r hr⟩

end Engine

end AddressCode
