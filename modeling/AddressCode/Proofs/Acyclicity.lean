import AddressCode.Proofs.Arguments
import AddressCode.Proofs.WellFormedValues

/-!
# AddressCode.Proofs.Acyclicity — how an array comes to contain itself

An array may be an element of another one, and so it may come to be found inside of itself
(`Store.OnCycle`).  Such an array has neither a text nor a copy.

* Assigning a variable, handing over a parameter and calling a procedure close no cycle: they write
  no element of an array there is, and a new array holds older ones only (`Store.acyclic_alloc`), or
  copies (`Store.acyclic_of_clone`).
* Writing an element adds one edge.  What is found afterwards was found before, or through the new
  element (`Store.reach_set_cases`).  So the write closes a cycle if and only if the array that is
  written to is found in the new element (`Store.acyclic_set`, `Store.onCycle_set`).
* A value without cycles is written out in full, since no path through it meets a cell again
  (`Store.finite_contentFrom`).

`cycle_iff_reach` puts this together for the steps of a run.
-/

namespace AddressCode

/-! ## Cycles -/

/-- The array in a cell is found in one of its elements. -/
def Store.OnCycle (s : Store) (c : Nat) : Prop := ∃ e ∈ (s.elements c).entries, s.Reach e.2 c

/-- No array found in a value is found inside of itself. -/
def Value.Acyclic (s : Store) (v : Value) : Prop := ∀ c, s.Reach v c → ¬ s.OnCycle c

namespace Store

variable {s s' : Store} {v w : Value} {c d k : Nat} {i : Number}

theorem Reach.trans (h : s.Reach v c) (h' : s.Reach (.array (some c)) d) : s.Reach v d := by
  induction h with
  | here => exact h'
  | inside he _ ih => exact .inside he (ih h')

/-- Whether there are cycles in a value depends on nothing but the elements of its arrays. -/
theorem acyclic_congr (heq : ∀ c, s.Reach v c → s'.elements c = s.elements c)
    (h : v.Acyclic s) : v.Acyclic s' := by
  rintro c hc ⟨e, he, hcycle⟩
  have hold := reach_of_reach heq hc
  rw [heq c hold] at he
  refine h c hold ⟨e, he, reach_of_reach (fun k hk => ?_) hcycle⟩
  exact heq k (hold.trans (.inside he hk))

theorem acyclic_changes (hch : s.Changes s' ∅) (hclosed : s.Closed) (hv : v.Stored s)
    (h : v.Acyclic s) : v.Acyclic s' :=
  acyclic_congr (fun c hc => hch.elements_eq c (reach_lt hclosed hv hc) (Set.notMem_empty c)) h

/-! ## New arrays -/

/-- A new array that holds an older value is on no cycle. -/
theorem acyclic_alloc (hclosed : s.Closed) (hv : v.Stored s) (h : v.Acyclic s) :
    (s.alloc (.ofList [(i, v)])).2.Acyclic (s.alloc (.ofList [(i, v)])).1 := by
  have hlt : ∀ c, s.Reach v c → c < s.cells.size := fun c hc => reach_lt hclosed hv hc
  have heq : ∀ c, s.Reach v c → (s.alloc (.ofList [(i, v)])).1.elements c = s.elements c :=
    fun c hc => elements_alloc_of_lt _ (hlt c hc)
  have hone : ∀ e ∈ (Tree.ofList [(i, v)] : Elements).entries, e.2 = v := by
    intro e he
    rw [List.mem_singleton.mp (Tree.mem_entries_ofList he)]
  intro c hc
  rcases reach_alloc (fun e he c hc => hlt c (hone e he ▸ hc)) hc with rfl | ⟨e, he, hold⟩
  · rintro ⟨e, he, hcycle⟩
    rw [elements_alloc_size] at he
    rw [hone e he] at hcycle
    exact Nat.lt_irrefl _ (hlt _ (reach_of_reach heq hcycle))
  · rw [hone e he] at hold
    exact acyclic_congr heq h c ((reach_congr heq).mpr hold)

/-- The arrays that a store has got hold arrays of smaller numbers only. -/
def Descends (s s' : Store) : Prop :=
  ∀ c, s.cells.size ≤ c → c < s'.cells.size → ∀ e ∈ (s'.elements c).entries,
    ∀ d, e.2 = .array (some d) → s.cells.size ≤ d ∧ d < c

/-- Of what is built, the elements of an array come before it. -/
theorem descends_law :
    BuildLaw (fun s _ s' _ => Descends s s') (fun s _ s' _ => Descends s s') where
  leaf _ c hle hlt := absurd hlt (Nat.not_lt.mpr hle)
  array {s s' items es} hes hitems := by
    intro c hle hlt e he d hd
    rw [size_alloc] at hlt
    rcases Nat.lt_or_eq_of_le (Nat.le_of_lt_succ hlt) with hlt | rfl
    · rw [elements_alloc_of_lt _ hlt] at he
      exact hitems c hle hlt e he d hd
    · rw [elements_alloc_size] at he
      have hmem : e.2 ∈ es.map (·.2) := List.mem_map_of_mem (Tree.mem_entries_ofList he)
      exact (Fresh.buildItems items hes).footprint_subset ⟨e.2, hmem, hd ▸ .here d⟩
  nil c hle hlt := absurd hlt (Nat.not_lt.mpr hle)
  cons {s s₁ s₂ i x v rest es} hv hes hx hrest := by
    have hfirst := (Fresh.build x hv).changes.size_le
    have hkeep := (Fresh.buildItems rest hes).changes.elements_eq
    intro c hle hlt e he d hd
    rcases Nat.lt_or_ge c s₁.cells.size with hold | hnew
    · rw [hkeep c hold (Set.notMem_empty c)] at he
      exact hx c hle hold e he d hd
    · obtain ⟨hd₁, hd₂⟩ := hrest c hnew hlt e he d hd
      exact ⟨Nat.le_trans hfirst hd₁, hd₂⟩

theorem Descends.le (h : Descends s s') (hle : s.cells.size ≤ d) (hlt : d < s'.cells.size)
    (hr : s'.Reach (.array (some d)) k) : k ≤ d := by
  induction d using Nat.strong_induction_on with
  | _ d ih =>
    obtain ⟨_, ⟨⟩, rfl | ⟨e, he, hk⟩⟩ := reach_iff_array.mp hr
    · exact Nat.le_refl k
    · obtain ⟨b, hb, -⟩ := reach_iff_array.mp hk
      obtain ⟨hb₁, hb₂⟩ := h d hle hlt e he b hb
      rw [hb] at hk
      exact Nat.le_of_lt (Nat.lt_of_le_of_lt (ih b hb₂ hb₁ (Nat.lt_trans hb₂ hlt) hk) hb₂)

/-- A copy is on no cycle. -/
theorem acyclic_of_clone (h : s.clone? v = some (s', w)) : w.Acyclic s' := by
  have hdesc := descends_law.build _ h
  rintro c hc ⟨e, he, hcycle⟩
  obtain ⟨hle, hlt⟩ := (Fresh.clone h).footprint_subset ⟨w, List.mem_singleton_self w, hc⟩
  obtain ⟨d, hd, -⟩ := reach_iff_array.mp hcycle
  obtain ⟨hd₁, hd₂⟩ := hdesc c hle hlt e he d hd
  rw [hd] at hcycle
  exact Nat.lt_irrefl c (Nat.lt_of_le_of_lt (hdesc.le hd₁ (Nat.lt_trans hd₂ hlt) hcycle) hd₂)

/-! ## Writing an element -/

/-- What is found after an element was written was found before, or it is found in the element and
the array that was written to was found. -/
theorem reach_set_cases (h : (s.set c i w).Reach v d) :
    s.Reach v d ∨ s.Reach v c ∧ s.Reach w d := by
  induction h with
  | here k => exact Or.inl (.here k)
  | @inside k d e he _ ih =>
    have hold : e ∈ (s.elements k).entries →
        s.Reach (.array (some k)) d ∨ s.Reach (.array (some k)) c ∧ s.Reach w d := by
      intro he
      rcases ih with ih | ⟨hc, hd⟩
      · exact Or.inl (.inside he ih)
      · exact Or.inr ⟨.inside he hc, hd⟩
    by_cases hk : k = c
    · subst hk
      rcases mem_elements_set he with heq | he
      · rw [heq] at ih
        exact Or.inr ⟨.here k, ih.elim id And.right⟩
      · exact hold he
    · rw [elements_set_of_ne i hk] at he
      exact hold he

/-- The way to the array that is written to stays. -/
theorem reach_set_of_reach (h : s.Reach v c) : (s.set c i w).Reach v c := by
  induction h with
  | here => exact .here _
  | @inside k c e he _ ih =>
    by_cases hk : k = c
    · exact hk ▸ .here k
    · exact .inside (by rwa [elements_set_of_ne i hk]) ih

/-- An array comes to be found in itself if a value it is found in is written to it. -/
theorem onCycle_set (hlt : c < s.cells.size) (h : s.Reach v c) : (s.set c i v).OnCycle c := by
  refine ⟨(i, v), ?_, reach_set_of_reach h⟩
  rw [elements_set_self i hlt]
  exact Tree.mem_insert_self

/-- Other writes close no cycle. -/
theorem acyclic_set (h : ¬ s.Reach v c) (hv : v.Acyclic s) (hw : w.Acyclic s) :
    w.Acyclic (s.set c i v) := by
  rintro k hk ⟨e, he, hcycle⟩
  -- wherever the array is found, it was on no cycle before
  have hold : ¬ s.OnCycle k := by
    rcases reach_set_cases hk with hk | ⟨-, hk⟩
    · exact hw k hk
    · exact hv k hk
  by_cases hkc : k = c
  · subst hkc
    rcases mem_elements_set he with heq | he
    · rw [heq] at hcycle
      exact h ((reach_set_cases hcycle).elim id And.left)
    · rcases reach_set_cases hcycle with hcycle | ⟨-, hv⟩
      · exact hold ⟨e, he, hcycle⟩
      · exact h hv
  · rw [elements_set_of_ne i hkc] at he
    rcases reach_set_cases hcycle with hcycle | ⟨hc, hk⟩
    · exact hold ⟨e, he, hcycle⟩
    · exact h (hk.trans (.inside he hc))

end Store

/-! ## Texts and copies -/

/-- There is no cycle in a content. -/
inductive Content.Finite : Content → Prop where
  | leaf {x : Content} {v : Value} (h : x.leaf? = some v) : Finite x
  | array {items : List (Number × Content)} (h : ∀ e ∈ items, Finite e.2) : Finite (.array items)

namespace Content

variable {x : Content}

theorem itemTexts?_isSome {items : List (Number × Content)}
    (h : ∀ e ∈ items, e.2.text?.isSome = true) : (itemTexts? items).isSome = true := by
  induction items with
  | nil => rfl
  | cons e items ih =>
    obtain ⟨i, x⟩ := e
    obtain ⟨hx, hrest⟩ := List.forall_mem_cons.mp h
    obtain ⟨t, ht⟩ := Option.isSome_iff_exists.mp hx
    obtain ⟨ts, hts⟩ := Option.isSome_iff_exists.mp (ih hrest)
    simp only at ht
    simp only [itemTexts?, ht, hts, Option.isSome_some]

theorem Finite.text (h : x.Finite) : x.text?.isSome = true := by
  induction h with
  | @leaf x _ hleaf => cases x <;> first | rfl | cases hleaf
  | array _ ih =>
    rw [text?, Option.isSome_map]
    exact itemTexts?_isSome ih

theorem buildItems_isSome {items : List (Number × Content)}
    (h : ∀ e ∈ items, ∀ s : Store, (s.build e.2).isSome = true) (s : Store) :
    (s.buildItems items).isSome = true := by
  induction items generalizing s with
  | nil => rfl
  | cons e items ih =>
    obtain ⟨i, x⟩ := e
    obtain ⟨hx, hrest⟩ := List.forall_mem_cons.mp h
    obtain ⟨⟨s₁, v⟩, hv⟩ := Option.isSome_iff_exists.mp (hx s)
    obtain ⟨⟨s₂, es⟩, hes⟩ := Option.isSome_iff_exists.mp (ih hrest s₁)
    simp only at hv
    simp only [Store.buildItems, hv, hes, Option.isSome_some]

theorem Finite.build (h : x.Finite) (s : Store) : (s.build x).isSome = true := by
  induction h generalizing s with
  | @leaf x _ hleaf => cases x <;> first | rfl | cases hleaf
  | @array items _ ih =>
    obtain ⟨⟨s', es⟩, hes⟩ := Option.isSome_iff_exists.mp (buildItems_isSome ih s)
    rw [Store.build, hes]
    rfl

end Content

namespace Store

variable {s : Store} {v : Value}

/-- A path that leads to a value comes to no cell of the value again. -/
theorem finite_contentFrom (hv : ∀ c, s.Reach v c → c < s.cells.size) (h : v.Acyclic s) {n : Nat}
    {path : List Nat} (hnodup : path.Nodup) (hlt : ∀ c ∈ path, c < s.cells.size)
    (hn : s.cells.size < n + path.length)
    (hpath : ∀ p ∈ path, ∀ c, s.Reach v c → ∃ e ∈ (s.elements p).entries, s.Reach e.2 c) :
    (s.contentFrom n path v).Finite := by
  induction n generalizing path v with
  | zero =>
    have hle := length_path_le hnodup hlt
    omega
  | succ n ih =>
    rcases v with _ | _ | _ | _ | ⟨_ | c⟩
    any_goals exact .leaf rfl
    have hnew : c ∉ path := fun hmem => h c (.here c) (hpath c hmem c (.here c))
    rw [contentFrom, if_neg hnew]
    refine .array ?_
    intro item hitem
    obtain ⟨e, he, rfl⟩ := List.mem_map.mp hitem
    refine ih (fun k hk => hv k (.inside he hk)) (fun k hk => h k (.inside he hk))
      (List.nodup_cons.mpr ⟨hnew, hnodup⟩) (List.forall_mem_cons.mpr ⟨hv c (.here c), hlt⟩)
      (by rw [List.length_cons]; omega) ?_
    refine List.forall_mem_cons.mpr ⟨fun k hk => ⟨e, he, hk⟩, fun p hp k hk => ?_⟩
    exact hpath p hp k (.inside he hk)

/-- What can be written out and copied. -/
def Writable (s : Store) (v : Value) : Prop :=
  (s.text? v).isSome = true ∧ (s.clone? v).isSome = true

/-- A value without cycles has a text and a copy, and so has every value found in it. -/
theorem writable_of_acyclic {w : Value} (hclosed : s.Closed) (hv : v.Stored s) (h : v.Acyclic s)
    (hw : s.Found v w) : s.Writable w := by
  induction hw with
  | here v =>
    have hfinite : (s.content v).Finite :=
      finite_contentFrom (fun c hc => reach_lt hclosed hv hc) h List.nodup_nil nofun (by simp) nofun
    exact ⟨hfinite.text, hfinite.build s⟩
  | inside he _ ih => exact ih (hclosed _ _ he) fun k hk => h k (.inside he hk)

end Store

/-! ## Lines -/

namespace Activation

variable {limit : Nat} {a a' : Activation} {s s' : Store} {l : Line} {sig : Signal} {v : Value}

/-- An expression finds no cycle that the variables do not hold. -/
theorem acyclic_eval (h : a.Holds (fun s v => v.Acyclic s) s) {x : Expr}
    (hv : x.eval a.heap s = .ok v) : v.Acyclic s := by
  intro c hc
  obtain ⟨w, hw, hwc⟩ := Store.reach_eval hv hc
  exact h.heap w hw c hwc

/-- What a line returns is the value of an expression, unless it is undefined. -/
theorem Does.eval_of_ret (hd : a.Does limit s l (.signal a' s' (.ret v)))
    (hdef : v.isDefined = true) : ∃ x : Expr, x.eval a.heap s = .ok v := by
  cases hd with
  | leave => cases hdef
  | ret _ hv => exact ⟨_, hv⟩

/-- A line closes no cycle, unless it assigns an element. -/
theorem Does.acyclic (hd : a.Does limit s l (.signal a' s' sig)) (hclosed : s.Closed)
    (hstored : a.Holds (fun s v => v.Stored s) s) (h : a.Holds (fun s v => v.Acyclic s) s) :
    (s.Changes s' ∅ ∧ a'.Holds (fun s v => v.Acyclic s) s') ∨
      ∃ name index x w h, l.core? = some (.assign (.element name index) x) ∧
        x.eval a.heap s = .ok w ∧ (Target.element name index).assign a.heap s w = .ok (h, s') := by
  cases hd with
  | define => exact Or.inl ⟨.refl s ∅, h.heap, h.params⟩
  | param _ _ hp =>
    obtain ⟨⟨s₁, w⟩, hw, heq⟩ := Option.map_eq_some_iff.mp hp
    cases heq
    have hch := (Store.Fresh.clone hw).changes
    refine Or.inl ⟨hch, fun v hv => ?_, fun v hv => ?_⟩
    · exact Store.acyclic_changes hch hclosed (hstored.heap v hv) (h.heap v hv)
    · rcases List.mem_append.mp hv with hv | hv
      · exact Store.acyclic_changes hch hclosed (hstored.params v hv) (h.params v hv)
      · rw [List.mem_singleton.mp hv]
        exact Store.acyclic_of_clone hw
  | @assign target x w heap _ hl hv ht =>
    have hw := acyclic_eval h hv
    cases target with
    | element name index => exact Or.inr ⟨name, index, x, w, heap, hl, hv, ht⟩
    | «variable» depth name =>
      left
      cases depth with
      | zero =>
        cases ht
        exact ⟨.refl s ∅, ValueLaw.holds_setVar h hw⟩
      | succ depth =>
        simp only [Target.assign] at ht
        split at ht
        · cases ht
        · split at ht
          · cases ht
            exact ⟨.refl s ∅, ValueLaw.holds_setVar h hw⟩
          · cases ht
  | _ => exact Or.inl ⟨.refl s ∅, h⟩

end Activation

/-! ## Steps -/

namespace Machine

variable {cfg : Config} {m m' : Machine} {name : String} {v : Value}

/-- No array found in a variable, a pending parameter or a record is found inside of itself. -/
def Acyclic (m : Machine) : Prop := m.HoldsAll (fun _ => True) fun s v => v.Acyclic s

/-- The step of `m` carries out an assignment of the value `v` to an element of the variable `name`,
and the run goes on in `m'`. -/
structure SetsElement (cfg : Config) (m : Machine) (name : String) (v : Value) (m' : Machine) :
    Prop where
  step : m.step cfg = .next m'
  assigns : ∃ index x h s, m.instr? = some (.assign (.element name index) x) ∧
    x.eval m.current.heap m.store = .ok v ∧
    (Target.element name index).assign m.current.heap m.store v = .ok (h, s)

/-- What is known of a line that goes on with the next one: it assigns an element, or it closes no
cycle. -/
theorem Acyclic.quiet (h : m.Acyclic) (hstored : m.HoldsAll Store.Closed fun s v => v.Stored s)
    {l : Line} {a : Activation} {s : Store} (hl : m.At l)
    (he : m.effect cfg l = .signal a s .next) :
    (m.store.Changes s ∅ ∧ a.Holds (fun s v => v.Acyclic s) s) ∨
      ∃ name v, m.SetsElement cfg name v { m with current := a.advance, store := s } := by
  rcases (does_of_effect he).acyclic hstored.store hstored.current h.current with
    hkeep | ⟨name, index, x, v, heap, hcore, hv, ht⟩
  · exact Or.inl hkeep
  · cases hinstr : m.instr? with
    | none =>
      -- a condition in front of the assignment is false
      obtain ⟨_, heff, -⟩ := effect_of_instr?_none cfg hl hinstr
      rw [he] at heff
      obtain ⟨rfl, rfl, -⟩ := Effect.signal.inj heff
      exact Or.inl ⟨.refl _ ∅, h.current⟩
    | some ins =>
      obtain ⟨l', hl', hcore', -⟩ := at_of_instr? hinstr
      obtain rfl : l = l' := Option.some.inj (hl.line.symm.trans hl'.line)
      obtain rfl := Option.some.inj (hcore'.symm.trans hcore)
      refine Or.inr ⟨name, v, ?_, index, x, heap, s, hinstr, hv, ht⟩
      rw [step_at cfg hl, he]
      rfl

/-- A record that is printed holds no cycle. -/
theorem Acyclic.log_state (h : m.Acyclic) (cfg : Config) :
    ∀ r ∈ (m.step cfg).state.log, r.value.Acyclic m.store := by
  intro r hr
  rcases mem_log_state hr with hr | ⟨x, hv⟩
  · exact h.log r hr
  · exact Activation.acyclic_eval h.current hv

/-- Every step that assigns no element keeps a state acyclic. -/
theorem Acyclic.step (h : m.Acyclic) (hstored : m.HoldsAll Store.Closed fun s v => v.Stored s)
    (hs : m.step cfg = .next m') (hno : ∀ name v, ¬ m.SetsElement cfg name v m') :
    m'.Acyclic := by
  have hcaller : ∀ {c rest}, m.callers = c :: rest →
      c.Holds (fun s v => v.Acyclic s) m.store ∧
        ∀ a ∈ rest, a.Holds (fun s v => v.Acyclic s) m.store := by
    intro c rest hc
    exact ⟨h.callers c (by simp [hc]), fun a ha => h.callers a (by simp [hc, ha])⟩
  have hlog := h.log_state cfg
  rw [hs] at hlog
  cases takes_of_step hs with
  | @fallOff c _ _ hc =>
    have hback : (resume c m.current.result none).Holds (fun s v => v.Acyclic s) m.store :=
      ValueLaw.holds_resume (hcaller hc).1 (by simp)
    exact ⟨⟨trivial, hback, (hcaller hc).2⟩, h.log⟩
  | record =>
    refine ⟨⟨trivial, ?_, h.callers⟩, h.log⟩
    unfold Activation.record
    split <;> exact ⟨h.current.heap, h.current.params⟩
  | quiet hl he =>
    rcases h.quiet hstored hl he with ⟨hch, ha⟩ | ⟨name, v, hset⟩
    · have hkeep : ∀ {v : Value}, v.Stored m.store → v.Acyclic m.store → v.Acyclic _ :=
        fun hv => Store.acyclic_changes hch hstored.store hv
      refine ⟨⟨trivial, ⟨ha.heap, ha.params⟩, fun c hc => ?_⟩, fun r hr => ?_⟩
      · have hold := hstored.callers c hc
        exact ⟨fun v hv => hkeep (hold.heap v hv) ((h.callers c hc).heap v hv),
          fun v hv => hkeep (hold.params v hv) ((h.callers c hc).params v hv)⟩
      · exact hkeep (hstored.log r hr) (h.log r hr)
    · exact absurd hset (hno name v)
  | jump => exact ⟨⟨trivial, ⟨h.current.heap, h.current.params⟩, h.callers⟩, h.log⟩
  | enter _ he =>
    obtain ⟨ha, hcallee⟩ := ValueLaw.holds_enter h.current (does_of_effect he)
    exact ⟨⟨trivial, hcallee, List.forall_mem_cons.mpr ⟨ha, h.callers⟩⟩, h.log⟩
  | @ret _ v _ _ _ he hc =>
    refine ⟨⟨trivial, ValueLaw.holds_resume (hcaller hc).1 ?_, (hcaller hc).2⟩, h.log⟩
    rintro w ⟨⟩ hdef
    obtain ⟨x, hv⟩ := (does_of_effect he).eval_of_ret hdef
    exact Activation.acyclic_eval h.current hv
  | fault => exact ⟨⟨trivial, ⟨h.current.heap, h.current.params⟩, h.callers⟩, h.log⟩
  | print => exact ⟨⟨trivial, ⟨h.current.heap, h.current.params⟩, h.callers⟩, hlog⟩
  | sinkFault _ _ _ hc =>
    exact ⟨⟨trivial, ⟨(hcaller hc).1.heap, (hcaller hc).1.params⟩, (hcaller hc).2⟩, hlog⟩

/-- What an assignment of an element does: it makes a new array, or it writes to the one that the
variable holds. -/
theorem SetsElement.cases (h : m.SetsElement cfg name v m') :
    (∃ x : Expr, x.eval m.current.heap m.store = .ok v) ∧ m'.callers = m.callers ∧
      m'.log = m.log ∧ m'.current.params = m.current.params ∧
      ∃ i, (m.current.heap.lookup? name = none ∧
          m'.store = (m.store.alloc (.ofList [(i, v)])).1 ∧
          m'.current.heap = m.current.heap.set name (m.store.alloc (.ofList [(i, v)])).2) ∨
        ∃ c, m.current.heap.lookup? name = some (.array (some c)) ∧
          m'.store = m.store.set c i v ∧ m'.current.heap = m.current.heap := by
  obtain ⟨hs, index, x, heap, s, hinstr, hv, ht⟩ := h
  obtain ⟨l, hl, -, heff⟩ := at_of_instr? hinstr
  have he : m.effect cfg l = .signal (m.current.withHeap heap) s .next := by
    rw [heff]
    simp only [Activation.execute_assign, hv, ht]
  rw [step_at cfg hl, he] at hs
  obtain rfl := Step.next.inj hs
  refine ⟨⟨x, hv⟩, rfl, rfl, rfl, ?_⟩
  obtain ⟨i, -, hcases⟩ := Target.assign_element_eq_ok_iff.mp ht
  refine ⟨i, hcases.imp ?_ ?_⟩
  · rintro ⟨hnone, rfl, rfl⟩
    exact ⟨hnone, rfl, rfl⟩
  · rintro ⟨c, hc, rfl, rfl⟩
    exact ⟨c, hc, rfl, rfl⟩

/-- An assignment of an element keeps a state acyclic if and only if the array that the variable
held, if there was one, is not found in the new element. -/
theorem Acyclic.setsElement_iff (h : m.Acyclic)
    (hstored : m.HoldsAll Store.Closed fun s v => v.Stored s) (hset : m.SetsElement cfg name v m') :
    m'.Acyclic ↔
      ¬ ∃ c, m.current.heap.lookup? name = some (.array (some c)) ∧ m.store.Reach v c := by
  obtain ⟨⟨x, hx⟩, hcallers, hlog, hparams, i, hcases⟩ := hset.cases
  have hv : v.Acyclic m.store := Activation.acyclic_eval h.current hx
  have hvstored : v.Stored m.store := Store.stored_law.eval hstored.store hstored.current hx
  -- a state without cycles in its values, old and new
  have hall : (∀ {w : Value}, w.Stored m.store → w.Acyclic m.store → w.Acyclic m'.store) →
      (∀ w ∈ m'.current.heap.values, w ∈ m.current.heap.values ∨ w.Acyclic m'.store) →
      m'.Acyclic := by
    intro hkeep hheap
    refine ⟨⟨trivial, ⟨fun w hw => ?_, fun w hw => ?_⟩, fun a ha => ?_⟩, fun r hr => ?_⟩
    · rcases hheap w hw with hw | hw
      · exact hkeep (hstored.current.heap w hw) (h.current.heap w hw)
      · exact hw
    · rw [hparams] at hw
      exact hkeep (hstored.current.params w hw) (h.current.params w hw)
    · rw [hcallers] at ha
      have hold := hstored.callers a ha
      exact ⟨fun w hw => hkeep (hold.heap w hw) ((h.callers a ha).heap w hw),
        fun w hw => hkeep (hold.params w hw) ((h.callers a ha).params w hw)⟩
    · rw [hlog] at hr
      exact hkeep (hstored.log r hr) (h.log r hr)
  rcases hcases with ⟨hnone, hstore, hheap⟩ | ⟨c, hc, hstore, hheap⟩
  · refine ⟨fun _ ⟨c, hc, _⟩ => ?_, fun _ => hall ?_ ?_⟩
    · rw [hnone] at hc
      cases hc
    · intro w hw hacyc
      rw [hstore]
      refine Store.acyclic_changes ⟨by simp [Store.alloc], fun c hc _ => ?_⟩ hstored.store hw hacyc
      exact Store.elements_alloc_of_lt _ hc
    · intro w hw
      rw [hheap] at hw
      rcases Heap.mem_values_set hw with rfl | hw
      · right
        rw [hstore]
        exact Store.acyclic_alloc hstored.store hvstored hv
      · exact Or.inl hw
  · have hmem := Heap.mem_values_of_lookup hc
    constructor
    · rintro hacyc ⟨_, hc', hreach⟩
      obtain rfl := Option.some.inj (Value.array.inj (Option.some.inj (hc.symm.trans hc')))
      have hlt := Store.reach_lt hstored.store (hstored.current.heap _ hmem) (.here c)
      have hcurrent := hacyc.current.heap (.array (some c)) (by rwa [hheap]) c (.here c)
      rw [hstore] at hcurrent
      exact hcurrent (Store.onCycle_set hlt hreach)
    · intro hnot
      refine hall (fun _ hacyc => ?_) fun w hw => Or.inl (by rwa [hheap] at hw)
      rw [hstore]
      exact Store.acyclic_set (fun hreach => hnot ⟨c, hc, hreach⟩) hv hacyc

/-- The end of a run closes no cycle. -/
theorem Acyclic.stop (h : m.Acyclic) (hstop : Stops cfg m m') : m'.Acyclic := by
  obtain ⟨hcurrent, hcallers, hstore⟩ := hstop.spec
  have hbottom : m.bottom.Holds (fun s v => v.Acyclic s) m.store := by
    rcases List.mem_cons.mp m.bottom_mem with heq | hmem
    · rw [heq]
      exact h.current
    · exact h.callers _ hmem
  have hlog : ∀ r ∈ m'.log, r.value.Acyclic m.store := by
    have hstate := h.log_state cfg
    rcases hstop with ⟨r, hs⟩ | ⟨message, hs⟩ <;> rwa [hs] at hstate
  rw [← hstore] at hbottom hlog
  exact ⟨⟨trivial, hcurrent ▸ hbottom, by simp [hcallers]⟩, hlog⟩

/-- Steps all of whose assignments of elements lead to acyclic states. -/
def StepsAcyclic (cfg : Config) : Machine → Machine → Prop :=
  Relation.ReflTransGen fun m m' =>
    m.step cfg = .next m' ∧ ∀ name v, m.SetsElement cfg name v m' → m'.Acyclic

/-- Such steps keep a state acyclic. -/
theorem StepsAcyclic.acyclic (hsteps : StepsAcyclic cfg m m') (h : m.Acyclic)
    (hstored : m.HoldsAll Store.Closed fun s v => v.Stored s) : m'.Acyclic := by
  have hboth : m'.Acyclic ∧ m'.HoldsAll Store.Closed fun s v => v.Stored s := by
    induction hsteps with
    | refl => exact ⟨h, hstored⟩
    | @tail m₁ m₂ _ hstep ih =>
      obtain ⟨hs, hset⟩ := hstep
      obtain ⟨hacyc, hstored⟩ := ih
      refine ⟨?_, Store.stored_law.kept_log.step hstored hs⟩
      by_cases hassigns : ∃ name v, m₁.SetsElement cfg name v m₂
      · obtain ⟨name, v, hassigns⟩ := hassigns
        exact hset name v hassigns
      · exact hacyc.step hstored hs fun name v hassign => hassigns ⟨name, v, hassign⟩
  exact hboth.1

/-! ## Copies without an end -/

/-- A line has no end only where it hands over a value that has no copy.  The induction follows the
conditions in front of the instruction. -/
theorem clone_of_overflow {limit : Nat} {a : Activation} {s : Store} {ins : Instr}
    (he : a.execute limit s ins = .overflow) :
    ∃ (x : Expr) (v : Value), x.eval a.heap s = .ok v ∧ s.clone? v = none := by
  induction ins with
  | ifThen cond action ih =>
    simp only [Activation.execute] at he
    split at he
    · cases he
    · split at he
      · exact ih he
      · cases he
  | param x =>
    simp only [Activation.execute] at he
    split at he
    · cases he
    · rename_i v hv
      split at he
      · rename_i hnone
        exact ⟨x, v, hv, Option.map_eq_none_iff.mp hnone⟩
      · cases he
  | call proc count result =>
    simp only [Activation.execute, Activation.call_eq] at he
    repeat' split at he
    all_goals cases he
  | ret x =>
    cases x with
    | none => cases he
    | some x =>
      simp only [Activation.execute] at he
      split at he <;> cases he
  | assign target x =>
    simp only [Activation.execute_assign] at he
    repeat' split at he
    all_goals cases he
  | print | expression | goto =>
    simp only [Activation.execute] at he
    split at he <;> cases he
  | noop | beginFunc | endFunc => cases he

end Machine

namespace Engine

open Machine

variable {e : Engine} {m : Machine}

/-- From an acyclic state that is reached, steps lead to acyclic states only, as long as every
assignment of an element among them does, and so does the end of the run.  An assignment of an
element leads to an acyclic state if and only if the array that was held by the variable before is
not found in the value that is assigned, and is not that value.  In an acyclic state, everything
found in a variable, a parameter or a record and every value of an expression can be written out and
copied; so the next step does not abort the run. -/
theorem cycle_iff_reach (he : e.Session) (hm : e.Reached m) (hacyc : m.Acyclic) :
    (∀ m', StepsAcyclic e.config m m' →
      m'.Acyclic ∧ ∀ m'', Stops e.config m' m'' → m''.Acyclic) ∧
      (∀ name v m', m.SetsElement e.config name v m' → (m'.Acyclic ↔
        ¬ ∃ c, m.current.heap.lookup? name = some (.array (some c)) ∧ m.store.Reach v c)) ∧
      (m.HoldsAll (fun _ => True) fun s v => ∀ w, s.Found v w → s.Writable w) ∧
      (∀ a ∈ m.activations, ∀ (x : Expr) v, x.eval a.heap m.store = .ok v → m.store.Writable v) ∧
      ∀ m', m.step e.config ≠ .aborted m' := by
  have hstored := Store.stored_law.kept_log.reached he hm
  have hwritable : ∀ {v w : Value}, v.Stored m.store → v.Acyclic m.store → m.store.Found v w →
      m.store.Writable w :=
    fun hv hacyc hw => Store.writable_of_acyclic hstored.store hv hacyc hw
  have hactive : ∀ a ∈ m.activations, a.Holds (fun s v => v.Stored s) m.store ∧
      a.Holds (fun s v => v.Acyclic s) m.store :=
    List.forall_mem_cons.mpr ⟨⟨hstored.current, hacyc.current⟩,
      fun a ha => ⟨hstored.callers a ha, hacyc.callers a ha⟩⟩
  have heval : ∀ a ∈ m.activations, ∀ (x : Expr) v, x.eval a.heap m.store = .ok v →
      m.store.Writable v := by
    intro a ha x v hv
    obtain ⟨hold, hacyc⟩ := hactive a ha
    exact hwritable (Store.stored_law.eval hstored.store hold hv)
      (Activation.acyclic_eval hacyc hv) (.here v)
  have hholds : ∀ a ∈ m.activations,
      a.Holds (fun s v => ∀ w, s.Found v w → s.Writable w) m.store := by
    intro a ha
    obtain ⟨hold, hacyc⟩ := hactive a ha
    exact ⟨fun v hv w hw => hwritable (hold.heap v hv) (hacyc.heap v hv) hw,
      fun v hv w hw => hwritable (hold.params v hv) (hacyc.params v hv) hw⟩
  refine ⟨?_, fun name v m' hset => hacyc.setsElement_iff hstored hset, ?_, heval, ?_⟩
  · intro m' hsteps
    have hacyc' := hsteps.acyclic hacyc hstored
    exact ⟨hacyc', fun m'' hstop => hacyc'.stop hstop⟩
  · refine ⟨⟨trivial, hholds _ List.mem_cons_self, ?_⟩, ?_⟩
    · exact fun a ha => hholds a (List.mem_cons_of_mem _ ha)
    · exact fun r hr w hw => hwritable (hstored.log r hr) (hacyc.log r hr) hw
  · intro m' hs
    cases takes_of_step hs with
    | @overflow l hl hover =>
      unfold effect Activation.effect at hover
      split at hover
      · cases hover
      · obtain ⟨x, v, hv, hnone⟩ := clone_of_overflow hover
        have hcopy := (heval m.current List.mem_cons_self x v hv).2
        rw [hnone] at hcopy
        cases hcopy

/-- An engine whose program writes an array to an element of itself. -/
def closingCycle : Engine := (Engine.new {}).load <| .ofStrings ["a[0] = 1", "a[1] = a", "print a"]

/-- The state after `n` steps of its program. -/
def closingCycleAt (n : Nat) : Machine := (closingCycle.exec [] n).1.machine

theorem reached_closingCycleAt {n : Nat} (h : (closingCycle.exec [] n).2 = .running) :
    closingCycle.Reached (closingCycleAt n) := by
  unfold closingCycleAt
  exact reached_exec closingCycle [] n h

theorem step_closingCycleAt {n : Nat} (h : (closingCycle.exec [] (n + 1)).2 = .running) :
    (closingCycleAt n).step closingCycle.config = .next (closingCycleAt (n + 1)) := by
  unfold closingCycleAt
  exact step_of_exec h

/-- The first assignment closes no cycle and the second one does, after which the array has neither
a text nor a copy. -/
theorem cycle_iff_reach_closing : (closingCycleAt 1).Acyclic ∧ ¬ (closingCycleAt 2).Acyclic ∧
    ∀ v ∈ (closingCycleAt 2).current.heap.values, ¬ (closingCycleAt 2).store.Writable v := by
  have hrun : (closingCycle.exec [] 2).2 = .running ∧ (closingCycle.exec [] 1).2 = .running := by
    decide +kernel
  have hplain : ∀ es ∈ (closingCycleAt 1).store.cells, ∀ e ∈ es.entries, e.2.kind ≠ .array := by
    decide +kernel
  have hfacts : (closingCycleAt 1).current.heap.lookup? "a" = some (.array (some 0)) ∧
      (closingCycleAt 1).instr? = some (.assign (.element "a" (.atomic (.literal .one (some "1"))))
        (.atomic (.variable "a"))) ∧
      (Target.element "a" (.atomic (.literal .one (some "1")))).assign
          (closingCycleAt 1).current.heap (closingCycleAt 1).store (.array (some 0)) =
        .ok ((closingCycleAt 2).current.heap, (closingCycleAt 2).store) := by
    decide +kernel
  have htexts : ∀ v ∈ (closingCycleAt 2).current.heap.values,
      ((closingCycleAt 2).store.text? v).isSome = false := by
    decide +kernel
  obtain ⟨hlookup, hinstr, ht⟩ := hfacts
  -- no array is an element of another one yet
  have hvalues : ∀ v : Value, v.Acyclic (closingCycleAt 1).store := by
    rintro v c - ⟨e, he, hcycle⟩
    obtain ⟨d, hd, -⟩ := Store.reach_iff_array.mp hcycle
    unfold Store.elements at he
    cases hes : (closingCycleAt 1).store.get? c with
    | none =>
      rw [hes] at he
      cases he
    | some es =>
      rw [hes] at he
      exact hplain es (Array.mem_of_getElem? hes) e he (by rw [hd]; rfl)
  have hacyc : (closingCycleAt 1).Acyclic :=
    ⟨⟨trivial, ⟨fun v _ => hvalues v, fun v _ => hvalues v⟩,
      fun a _ => ⟨fun v _ => hvalues v, fun v _ => hvalues v⟩⟩, fun r _ => hvalues r.value⟩
  have hstep : (closingCycleAt 1).step closingCycle.config = .next (closingCycleAt 2) :=
    step_closingCycleAt hrun.1
  have hset : (closingCycleAt 1).SetsElement closingCycle.config "a" (.array (some 0))
      (closingCycleAt 2) := by
    have hv : (Expr.atomic (.variable "a")).eval (closingCycleAt 1).current.heap
        (closingCycleAt 1).store = .ok (.array (some 0)) := by
      simp only [Expr.eval, Operand.eval, hlookup]
    exact ⟨hstep, _, _, _, _, hinstr, hv, ht⟩
  have hsession : closingCycle.Session := .load (.new {}) _
  have hreached : closingCycle.Reached (closingCycleAt 1) := reached_closingCycleAt hrun.2
  obtain ⟨-, hiff, -⟩ := cycle_iff_reach hsession hreached hacyc
  refine ⟨hacyc, fun hclosed => ?_, fun v hv hwritable => ?_⟩
  · exact (hiff "a" _ _ hset).mp hclosed ⟨0, hlookup, .here 0⟩
  · have htext := hwritable.1
    rw [htexts v hv] at htext
    cases htext

end Engine

end AddressCode
