import AddressCode.Proofs.Calls
import AddressCode.Proofs.Order
import AddressCode.Proofs.Separation
import AddressCode.Proofs.Values

/-!
# AddressCode.Proofs.Copies — pending parameters stay as they were copied

The indices of every array ascend (`Store.ascending_law`), so a copy has the content of what was
copied.  A copy is made in a stretch of new cells and uses all of them; while it waits for a call,
nobody else can reach these cells, and they stay as they are (`Machine.copied_kept`).  So a pending
parameter is what `Store.build` made of its content, up to where in the store it was made.
-/

namespace AddressCode

/-! ## Indices ascend -/

/-- Only the keys matter. -/
theorem Ascending.of_keys {α β : Type} {es : List (Number × α)} {es' : List (Number × β)}
    (h : Ascending es) (hkeys : es'.map (·.1) = es.map (·.1)) : Ascending es' := by
  have hnum : ∀ k ∈ es.map (·.1), k.isNaN = false := by
    intro k hk
    obtain ⟨e, he, rfl⟩ := List.mem_map.mp hk
    exact h.numbers e he
  have hord : (es.map (·.1)).Pairwise fun k k' => k.lt k' = true := List.pairwise_map.mpr h.ordered
  rw [← hkeys] at hnum hord
  exact ⟨fun e he => hnum e.1 (List.mem_map_of_mem he), List.pairwise_map.mp hord⟩

/-- The indices of all arrays in a content ascend. -/
inductive Content.Ascends : Content → Prop where
  | leaf {x : Content} {v : Value} (h : x.leaf? = some v) : Ascends x
  | array {items : List (Number × Content)} (h : Ascending items)
      (hitems : ∀ e ∈ items, Ascends e.2) : Ascends (.array items)
  | cycle : Ascends .cycle

theorem Content.Ascends.items {items : List (Number × Content)}
    (h : (Content.array items).Ascends) :
    Ascending items ∧ ∀ e ∈ items, e.2.Ascends := by
  cases h with
  | leaf h => cases h
  | array h hitems => exact ⟨h, hitems⟩

namespace Store

variable {s s' t : Store} {v w : Value} {x : Content} {c : Nat}

/-- The indices of all arrays ascend. -/
def Ascends (s : Store) : Prop := ∀ c, Ascending (s.elements c).entries

theorem ascending_nil {α : Type} : Ascending ([] : List (Number × α)) := ⟨by simp, .nil⟩

theorem Ascends.alloc (h : s.Ascends) {es : Elements} (hes : Ascending es.entries) :
    (s.alloc es).1.Ascends := by
  intro c
  rcases Nat.lt_trichotomy c s.cells.size with hlt | rfl | hgt
  · rw [elements_alloc_of_lt es hlt]
    exact h c
  · rw [elements_alloc_size]
    exact hes
  · have hnone : (s.alloc es).1.cells.size ≤ c := by
      rw [size_alloc]
      exact hgt
    rw [elements_of_le hnone]
    exact ascending_nil

/-- What is written out of a value whose arrays have ascending indices. -/
theorem ascends_contentFrom (h : ∀ c, s.Reach v c → Ascending (s.elements c).entries) {n : Nat}
    {path : List Nat} : (s.contentFrom n path v).Ascends := by
  induction n generalizing path v with
  | zero =>
    cases v with
    | array cell =>
      cases cell with
      | none => exact .leaf rfl
      | some c => exact .cycle
    | _ => exact .leaf rfl
  | succ n ih =>
    cases v with
    | array cell =>
      cases cell with
      | none => exact .leaf rfl
      | some c =>
        simp only [Store.contentFrom]
        split
        · exact .cycle
        · refine .array ((h c (.here c)).of_keys (by simp)) ?_
          intro e he
          obtain ⟨e', he', rfl⟩ := List.mem_map.mp he
          exact ih fun d hd => h d (.inside he' hd)
    | _ => exact .leaf rfl

theorem Ascends.contentFrom (h : s.Ascends) {n : Nat} {path : List Nat} :
    (s.contentFrom n path v).Ascends :=
  ascends_contentFrom fun c _ => h c

/-- Elements are built under the indices of their contents. -/
theorem keys_buildItems {items : List (Number × Content)} {es : List (Number × Value)}
    (h : s.buildItems items = some (s', es)) : es.map (·.1) = items.map (·.1) := by
  have law : BuildLaw (fun _ _ _ _ => True)
      (fun _ items _ es => es.map (·.1) = items.map (·.1)) := by
    refine ⟨fun _ => trivial, fun _ _ => trivial, rfl, ?_⟩
    intro _ _ _ i _ _ rest es _ _ _ hrest
    rw [List.map_cons, List.map_cons, hrest]
  exact law.buildItems items h

theorem Ascends.build (hx : x.Ascends) (h : s.Ascends) (hb : s.build x = some (s', v)) :
    s'.Ascends := by
  have law : BuildLaw (fun s x s' _ => x.Ascends → s.Ascends → s'.Ascends)
      (fun s items s' _ => (∀ e ∈ items, e.2.Ascends) → s.Ascends → s'.Ascends) := by
    refine ⟨fun _ _ h => h, ?_, fun _ h => h, ?_⟩
    · intro s s' items es hes hitems hx h
      refine (hitems hx.items.2 h).alloc ?_
      have hasc : Ascending es := hx.items.1.of_keys (keys_buildItems hes)
      rw [Tree.entries_ofList hasc]
      exact hasc
    · intro _ _ _ i x _ rest _ _ _ hx hrest hall h
      exact hrest (fun e he => hall e (by simp [he])) (hx (hall (i, x) (by simp)) h)
  exact law.build x hb hx h

/-- The indices of all arrays ascend at every moment of every session. -/
theorem ascending_law : ValueLaw Ascends fun _ _ => True where
  empty c := by
    rw [elements_empty]
    exact ascending_nil
  plain _ := trivial
  grow _ _ := trivial
  element _ _ := trivial
  alloc {_ i v} h _ hi := by
    refine ⟨h.alloc ?_, trivial⟩
    have hasc : Ascending [(i, v)] := ⟨by simpa using hi, List.pairwise_singleton _ _⟩
    rw [Tree.entries_ofList hasc]
    exact hasc
  set {s c i v} h _ hi := by
    intro d
    by_cases hd : d = c
    · rcases Nat.lt_or_ge d s.cells.size with hlt | hge
      · rw [← hd, elements_set_self i hlt]
        exact Tree.ascending_insert hi (h d)
      · rw [elements_of_le (by rw [size_set]; exact hge)]
        exact ascending_nil
    · rw [elements_set_of_ne i hd]
      exact h d
  clone h _ hw := ⟨Ascends.build h.contentFrom h hw, trivial⟩

/-! ## What a copy is made of -/

/-- The cells that have come between two stores are the same in `t`. -/
def Keeps (s s' t : Store) : Prop :=
  ∀ c, s.cells.size ≤ c → c < s'.cells.size → t.elements c = s'.elements c

/-- What is kept of a later store is kept of an earlier one. -/
theorem Keeps.of_changes {s₁ s₂ : Store} (h : Keeps s s₂ t) (hch : Changes s₁ s₂ ∅) :
    Keeps s s₁ t := by
  intro c hlo hhi
  rw [h c hlo (Nat.lt_of_lt_of_le hhi hch.size_le)]
  exact hch.elements_eq c hhi (by simp)

theorem Keeps.mono {s₁ s₂ : Store} (h : Keeps s s₂ t) (hle : s.cells.size ≤ s₁.cells.size) :
    Keeps s₁ s₂ t :=
  fun c hlo hhi => h c (Nat.le_trans hle hlo) hhi

theorem changes_alloc (s : Store) (es : Elements) : Changes s (s.alloc es).1 ∅ := by
  refine ⟨by rw [size_alloc]; exact Nat.le_succ _, ?_⟩
  intro c hc _
  exact elements_alloc_of_lt es hc

/-- Where a new array is kept, its elements are. -/
theorem Keeps.elements_alloc {es : Elements} (h : Keeps s (s'.alloc es).1 t)
    (hle : s.cells.size ≤ s'.cells.size) : t.elements s'.cells.size = es := by
  rw [h _ hle (by rw [size_alloc]; exact Nat.lt_succ_self _), elements_alloc_size]

theorem contentFrom_of_leaf {n : Nat} {path : List Nat} (h : x.leaf? = some v) :
    t.contentFrom n path v = x := by
  cases x <;> cases h <;> cases n <;> rfl

/-- What is built from a content has this content, as long as its cells are kept.  The depth to
which it is written out has only to be that of the new cells, and none of them is on the way. -/
theorem content_law : BuildLaw
    (fun s x s' v => x.Ascends → ∀ {t : Store} {n : Nat} {path : List Nat}, Keeps s s' t →
      (∀ d ∈ path, d < s.cells.size ∨ s'.cells.size ≤ d) →
      s'.cells.size < n + s.cells.size → t.contentFrom n path v = x)
    (fun s items s' es => (∀ e ∈ items, e.2.Ascends) → ∀ {t : Store} {n : Nat} {path : List Nat},
      Keeps s s' t → (∀ d ∈ path, d < s.cells.size ∨ s'.cells.size ≤ d) →
      s'.cells.size < n + s.cells.size →
      es.map (fun e => (e.1, t.contentFrom n path e.2)) = items) where
  leaf h _ _ _ _ _ _ _ := contentFrom_of_leaf h
  array {s s' items es} hes hitems hx t n path hkeep hpath hn := by
    have hle := (Fresh.buildItems items hes).changes.size_le
    rw [size_alloc] at hpath hn
    obtain ⟨n, rfl⟩ : ∃ n', n = n' + 1 := ⟨n - 1, by omega⟩
    have hnew : s'.cells.size ∉ path := by
      intro hmem
      rcases hpath _ hmem with h | h <;> omega
    have hasc : Ascending es := hx.items.1.of_keys (keys_buildItems hes)
    have hcell : t.elements s'.cells.size = .ofList es := hkeep.elements_alloc hle
    show t.contentFrom (n + 1) path (.array (some s'.cells.size)) = _
    simp only [Store.contentFrom, hnew, if_false, hcell, Tree.entries_ofList hasc]
    congr 1
    refine hitems hx.items.2 (hkeep.of_changes (changes_alloc s' _)) ?_ (by omega)
    intro d hd
    rcases List.mem_cons.mp hd with rfl | hd
    · exact Or.inr (Nat.le_refl _)
    · rcases hpath d hd with h | h
      · exact Or.inl h
      · exact Or.inr (Nat.le_of_succ_le h)
  nil _ _ _ _ _ _ _ := rfl
  cons {s s₁ s₂ i x v rest es} hx hrest ihx ihrest hall t n path hkeep hpath hn := by
    have hch := (Fresh.buildItems rest hrest).changes
    have hle₁ := (Fresh.build x hx).changes.size_le
    have hle₂ := hch.size_le
    have hhead : t.contentFrom n path v = x := by
      refine ihx (hall (i, x) (by simp)) (hkeep.of_changes hch) ?_ (by omega)
      intro d hd
      rcases hpath d hd with h | h
      · exact Or.inl h
      · exact Or.inr (Nat.le_trans hle₂ h)
    have htail := @ihrest (fun e he => hall e (by simp [he])) t n path (hkeep.mono hle₁)
      (fun d hd => (hpath d hd).imp_left fun h => Nat.lt_of_lt_of_le h hle₁) (by omega)
    rw [List.map_cons, htail, hhead]

/-- What is built from a content reaches all cells that were made for it. -/
theorem reach_law : BuildLaw
    (fun s x s' v => x.Ascends → ∀ {t : Store} {c : Nat}, Keeps s s' t → s.cells.size ≤ c →
      c < s'.cells.size → t.Reach v c)
    (fun s items s' es => (∀ e ∈ items, e.2.Ascends) → ∀ {t : Store} {c : Nat}, Keeps s s' t →
      s.cells.size ≤ c → c < s'.cells.size → ∃ e ∈ es, t.Reach e.2 c) where
  leaf _ _ _ _ _ hlo hhi := absurd hhi (Nat.not_lt_of_le hlo)
  array {s s' items es} hes hitems hx t c hkeep hlo hhi := by
    have hle := (Fresh.buildItems items hes).changes.size_le
    have hasc : Ascending es := hx.items.1.of_keys (keys_buildItems hes)
    rw [size_alloc] at hhi
    rcases Nat.lt_or_eq_of_le (Nat.le_of_lt_succ hhi) with hlt | rfl
    · obtain ⟨e, he, hreach⟩ :=
        hitems hx.items.2 (hkeep.of_changes (changes_alloc s' _)) hlo hlt
      refine .inside ?_ hreach
      rw [hkeep.elements_alloc hle, Tree.entries_ofList hasc]
      exact he
    · exact .here _
  nil _ _ _ _ hlo hhi := absurd hhi (Nat.not_lt_of_le hlo)
  cons {s s₁ s₂ i x v rest es} hx hrest ihx ihrest hall t c hkeep hlo hhi := by
    have hle := (Fresh.build x hx).changes.size_le
    rcases Nat.lt_or_ge c s₁.cells.size with hlt | hge
    · have hreach := ihx (hall (i, x) (by simp))
        (hkeep.of_changes (Fresh.buildItems rest hrest).changes) hlo hlt
      exact ⟨(i, v), by simp, hreach⟩
    · obtain ⟨e, he, hreach⟩ :=
        ihrest (fun e he => hall e (by simp [he])) (hkeep.mono hle) hge hhi
      exact ⟨e, by simp [he], hreach⟩

/-- The value `v` was built from the content `x`, when the store grew from `s₀` to `s₁`, and the
cells that it got are as they were. -/
structure Copy (s : Store) (v : Value) (s₀ s₁ : Store) (x : Content) : Prop where
  built : s₀.build x = some (s₁, v)
  ascends : x.Ascends
  size_le : s₁.cells.size ≤ s.cells.size
  kept : Keeps s₀ s₁ s

/-- The value is a copy that nobody has written to. -/
def Copied (s : Store) (v : Value) : Prop := ∃ s₀ s₁ x, s.Copy v s₀ s₁ x

section Copy

variable {s₀ s₁ : Store}

/-- A copy has the content that it was built from. -/
theorem Copy.content (h : s.Copy v s₀ s₁ x) : s.content v = x :=
  content_law.build x h.built h.ascends h.kept (by simp) (by have := h.size_le; omega)

/-- A copy holds all cells that were made for it. -/
theorem Copy.reach (h : s.Copy v s₀ s₁ x) (hlo : s₀.cells.size ≤ c) (hhi : c < s₁.cells.size) :
    s.Reach v c :=
  reach_law.build x h.built h.ascends h.kept hlo hhi

/-- A copy stays one as long as its cells stay as they are. -/
theorem Copy.update (h : s.Copy v s₀ s₁ x) (hle : s.cells.size ≤ s'.cells.size)
    (hsame : ∀ c ∈ s.footprint [v], s'.elements c = s.elements c) : s'.Copy v s₀ s₁ x := by
  refine ⟨h.built, h.ascends, Nat.le_trans h.size_le hle, ?_⟩
  intro c hlo hhi
  rw [hsame c ⟨v, by simp, h.reach hlo hhi⟩]
  exact h.kept c hlo hhi

theorem Copied.update (h : s.Copied v) (hle : s.cells.size ≤ s'.cells.size)
    (hsame : ∀ c ∈ s.footprint [v], s'.elements c = s.elements c) : s'.Copied v := by
  obtain ⟨s₀, s₁, x, h⟩ := h
  exact ⟨s₀, s₁, x, h.update hle hsame⟩

/-- It keeps its content. -/
theorem Copied.content_update (h : s.Copied v) (hle : s.cells.size ≤ s'.cells.size)
    (hsame : ∀ c ∈ s.footprint [v], s'.elements c = s.elements c) : s'.content v = s.content v := by
  obtain ⟨s₀, s₁, x, h⟩ := h
  rw [(h.update hle hsame).content, h.content]

theorem copied_of_clone (h : s.Ascends) (hw : s.clone? v = some (s', w)) : s'.Copied w :=
  ⟨s, s', s.content v, hw, h.contentFrom, Nat.le_refl _, fun _ _ _ => rfl⟩

end Copy

end Store

/-! ## Pending parameters -/

namespace Machine

variable {cfg : Config} {m m' : Machine} {a : Activation} {v : Value}

/-- A step leaves the cells of every pending parameter as they are. -/
theorem Separated.elements_param (h : m.Separated) (hs : m.step cfg = .next m')
    (ha : a ∈ m.activations) (hv : v ∈ a.params.values) :
    ∀ c ∈ m.store.footprint [v], m'.store.elements c = m.store.elements c := by
  intro c hc
  rcases List.mem_cons.mp ha with rfl | hcaller
  · -- the running activation writes only to what its variables hold
    have hregion : [v] ∈ m.regions :=
      List.mem_flatMap_of_mem ha (by simp [Activation.regions, hv])
    apply (h.changes hs).elements_eq c (h.exist [v] hregion c hc)
    exact Set.disjoint_left.mp (h.isolated.params_heap m.current ha v hv) hc
  · refine h.elements_caller hs hcaller ?_
    exact Activation.mem_footprint.mpr ⟨[v], by simp [Activation.regions, hv], hc⟩

/-- A line leaves the pending parameters as they are, or adds a copy to them. -/
theorem params_of_does {limit : Nat} {s s' : Store} {a' : Activation} {l : Line} {sig : Signal}
    (hd : a.Does limit s l (.signal a' s' sig)) (hv : v ∈ a'.params.values) :
    v ∈ a.params.values ∨ ∃ w, s.clone? w = some (s', v) := by
  cases hd with
  | @param _ w _ _ _ _ hp =>
    obtain ⟨⟨s₁, u⟩, hu, heq⟩ := Option.map_eq_some_iff.mp hp
    cases heq
    rcases List.mem_append.mp hv with hv | hv
    · exact Or.inl hv
    · rw [List.mem_singleton] at hv
      rw [hv]
      exact Or.inr ⟨w, hu⟩
  | _ => exact Or.inl hv

/-- Every pending parameter is a copy that nobody has written to. -/
structure Copied (m : Machine) : Prop where
  separated : m.Separated
  ascends : m.Holds Store.Ascends fun _ _ => True
  params : ∀ a ∈ m.activations, ∀ v ∈ a.params.values, m.store.Copied v

/-- What waits for the next call of the running activation was there before, or is a new copy. -/
theorem Copied.current_step (h : m.Copied) (hs : m.step cfg = .next m')
    (hold : ∀ a ∈ m.activations, ∀ v ∈ a.params.values, m'.store.Copied v) :
    ∀ v ∈ m'.current.params.values, m'.store.Copied v := by
  have hcurrent := hold m.current List.mem_cons_self
  have hcaller : ∀ {c : Activation} {rest : List Activation}, m.callers = c :: rest →
      ∀ v ∈ c.params.values, m'.store.Copied v :=
    fun hc => hold _ (List.mem_cons_of_mem _ (by simp [hc]))
  cases takes_of_step hs with
  | fallOff _ hc | ret _ _ hc =>
    rw [Activation.resume_params]
    exact hcaller hc
  | @sinkFault _ _ c _ _ _ _ hc =>
    have hc' : ∀ v ∈ c.params.values, m.store.Copied v := hcaller hc
    exact hc'
  | jump | fault | print => exact hcurrent
  | record =>
    unfold Activation.record
    split <;> exact hcurrent
  | quiet _ he =>
    intro v hv
    rcases params_of_does (does_of_effect he) hv with hv | ⟨w, hw⟩
    · exact hcurrent v hv
    · exact Store.copied_of_clone h.ascends.store hw
  | enter hl he =>
    obtain ⟨p, home, result, henter⟩ := enters_of_effect hl he
    rw [henter.state]
    intro v hv
    cases hv

theorem Copied.step (h : m.Copied) (hs : m.step cfg = .next m') : m'.Copied := by
  have hle := (h.separated.changes hs).size_le
  have hold : ∀ a ∈ m.activations, ∀ v ∈ a.params.values, m'.store.Copied v :=
    fun a ha v hv => (h.params a ha v hv).update hle (h.separated.elements_param hs ha hv)
  refine ⟨h.separated.step hs, Store.ascending_law.step h.ascends hs, ?_⟩
  intro a ha
  rcases List.mem_cons.mp ha with rfl | ha
  · exact h.current_step hs hold
  · -- a caller waits with what is left of its parameters
    refine waiting_of_step (P := fun a => ∀ v ∈ a.params.values, m'.store.Copied v) hs
      (fun c hc => hold c (List.mem_cons_of_mem _ hc)) ?_ a ha
    intro p home result _ v hv
    exact hold m.current List.mem_cons_self v (List.mem_of_mem_drop hv)

/-- Pending parameters are as they were copied, at every moment of every session. -/
theorem copied_kept : Engine.Kept Copied where
  initial k := by
    refine ⟨separated_kept.initial k, Store.ascending_law.kept.initial k, ?_⟩
    intro a ha v hv
    rw [List.mem_singleton.mp ha] at hv
    cases hv
  launch {m} inputs p h := by
    refine ⟨h.separated.launch inputs p, Store.ascending_law.kept.launch inputs p h.ascends, ?_⟩
    intro a ha
    rcases List.mem_cons.mp ha with rfl | ha
    · exact h.params m.current List.mem_cons_self
    · exact h.params a (List.mem_cons_of_mem _ ha)
  step h hs := h.step hs
  stop {_ m m'} h hstop := by
    refine ⟨h.separated.stop hstop, Store.ascending_law.kept.stop h.ascends hstop, ?_⟩
    obtain ⟨hcur, hcallers, hstore⟩ := hstop.spec
    intro a ha
    unfold activations at ha
    rw [hcallers, hcur, List.mem_singleton] at ha
    rw [hstore, ha]
    exact h.params m.bottom m.bottom_mem

end Machine

end AddressCode
