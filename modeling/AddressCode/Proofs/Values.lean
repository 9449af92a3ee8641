import AddressCode.Proofs.Reach
import AddressCode.Proofs.Runs

/-!
# AddressCode.Proofs.Values — properties of all values of a run

The value of an expression is a number, a truth value or a pointer, or it was in a variable or in an
array before (`Expr.eval_origin`).  So a property of values holds of everything that a run computes,
if it holds of all that an array or a variable can be given.  `ValueLaw` lists what that comes to
for a property `P` of values and a property `I` of the store of arrays; `ValueLaw.kept` says that
both hold at every moment of every session.
-/

namespace AddressCode

/-- Is a value a number, a truth value or a pointer? -/
def Value.isPlain : Value → Bool
  | .scalar _ | .boolean _ | .pointer _ => true
  | .undefined | .array _ => false

/-! ## Where values come from -/

section Origin

variable {h : Heap} {s : Store} {v : Value} {P : Value → Prop}

/-- A chain of pointers ends at a defined variable. -/
theorem Heap.has_of_followFrom {start name target : String} {depth : Nat}
    (hf : h.followFrom start depth name = .ok target) : h.has target = true := by
  induction depth generalizing name with
  | zero =>
    unfold followFrom at hf
    split at hf
    · rename_i hhas
      cases hf
      exact hhas
    · cases hf
  | succ depth ih =>
    unfold followFrom at hf
    split at hf
    · cases hf
    · split at hf
      · cases hf
      · exact ih hf

/-- An operator between two values gives a number or a truth value. -/
theorem BinaryOp.isPlain_of_applyValues {op : BinaryOp} {text : String} {x y : Value}
    (hv : op.applyValues text x y = .ok v) : v.isPlain = true ∧ v.ref? = none := by
  unfold applyValues at hv
  split at hv
  · cases op <;> cases hv <;> exact ⟨rfl, rfl⟩
  · split at hv <;> cases hv <;> exact ⟨rfl, rfl⟩

/-- What is read through pointers is in a variable. -/
theorem Heap.deref_origin {x : Operand} {depth : Nat} (hheap : ∀ w ∈ h.values, P w)
    (hv : h.deref x depth = .ok v) : P v := by
  unfold deref at hv
  split at hv
  · split at hv
    · split at hv
      · rename_i target htarget
        cases hv
        obtain ⟨w, hw⟩ := Option.isSome_iff_exists.mp (has_of_followFrom htarget)
        rw [hw]
        exact hheap w (mem_values_of_lookup hw)
      · cases hv
    · cases hv
  · cases hv

theorem Operand.eval_origin {x : Operand}
    (hplain : ∀ w : Value, w.isPlain = true → (∀ name, w.ref? = some name → h.has name = true) →
      P w)
    (hheap : ∀ w ∈ h.values, P w)
    (helem : ∀ c, .array (some c) ∈ h.values → ∀ e ∈ (s.elements c).entries, P e.2)
    (hv : x.eval h s = .ok v) : P v := by
  rcases x with _ | ⟨y, lexeme⟩ | name | ⟨name, index⟩
  · cases hv
  · cases hv
    exact hplain _ rfl nofun
  · simp only [Operand.eval] at hv
    split at hv
    · rename_i w hw
      cases hv
      exact hheap _ (Heap.mem_values_of_lookup hw)
    · cases hv
  · simp only [Operand.eval] at hv
    split at hv
    · rename_i cell hcell
      split at hv
      · cases hv
      · split at hv
        · cases hv
        · -- an element that is found is an entry of its cell
          unfold Store.element at hv
          split at hv
          · cases hv
          · rename_i es hes
            obtain ⟨c, rfl, hc⟩ := Option.bind_eq_some_iff.mp hes
            split at hv
            · rename_i w hw
              cases hv
              obtain ⟨e, he, rfl⟩ := Tree.mem_of_get? hw
              have hel : s.elements c = es := by simp [Store.elements, hc]
              exact helem c (Heap.mem_values_of_lookup hcell) e (hel ▸ he)
            · cases hv
    · cases hv

/-- The value of an expression is plain, or it is in a variable or in an array of a variable.  A
pointer that is new names a defined variable. -/
theorem Expr.eval_origin {x : Expr}
    (hplain : ∀ w : Value, w.isPlain = true → (∀ name, w.ref? = some name → h.has name = true) →
      P w)
    (hheap : ∀ w ∈ h.values, P w)
    (helem : ∀ c, .array (some c) ∈ h.values → ∀ e ∈ (s.elements c).entries, P e.2)
    (hv : x.eval h s = .ok v) : P v := by
  rcases x with x | ⟨op, x⟩ | ⟨op, x, y⟩
  · simp only [Expr.eval] at hv
    exact Operand.eval_origin hplain hheap helem hv
  · simp only [Expr.eval] at hv
    split at hv
    · cases hv
    · split at hv
      · split at hv
        · cases hv
        · unfold Value.negate at hv
          split at hv
          · cases hv
            exact hplain _ rfl (by simp [Value.ref?])
          · cases hv
      · exact Heap.deref_origin hheap hv
      · unfold Heap.addressOf at hv
        split at hv
        · split at hv
          · rename_i hhas
            cases hv
            refine hplain _ rfl ?_
            rintro _ ⟨⟩
            exact hhas
          · cases hv
        · cases hv
      · cases hv
  · simp only [Expr.eval] at hv
    split at hv
    · cases hv
    · split at hv
      · cases hv
      · split at hv
        · cases hv
        · obtain ⟨hv, href⟩ := BinaryOp.isPlain_of_applyValues hv
          exact hplain v hv (by simp [href])

/-- An index is a number. -/
theorem Expr.not_isNaN_of_evalIndex {x : Expr} {i : Number} (hi : x.evalIndex h s = .ok i) :
    i.isNaN = false := by
  unfold evalIndex at hi
  split at hi
  · cases hi
  · unfold Value.asIndex at hi
    split at hi
    · cases hi
    · split at hi
      · cases hi
      · rename_i hnan
        cases hi
        exact Bool.eq_false_of_not_eq_true hnan

end Origin

/-! ## Properties of values and arrays -/

/-- What makes a property `I` of the store and a property `P` of values in it last. -/
structure ValueLaw (I : Store → Prop) (P : Store → Value → Prop) : Prop where
  empty : I .empty
  plain : ∀ {s : Store} {v : Value}, v.isPlain = true → P s v
  /-- a value keeps its property when the store grows -/
  grow : ∀ {s s' : Store} {v : Value}, s.cells.size ≤ s'.cells.size → P s v → P s' v
  element : ∀ {s : Store} {c : Nat} {e : Number × Value}, I s → e ∈ (s.elements c).entries → P s e.2
  /-- the first element of a new array -/
  alloc : ∀ {s : Store} {i : Number} {v : Value}, I s → P s v → i.isNaN = false →
    I (s.alloc (.ofList [(i, v)])).1 ∧
      P (s.alloc (.ofList [(i, v)])).1 (s.alloc (.ofList [(i, v)])).2
  /-- an element of an array -/
  set : ∀ {s : Store} {c : Nat} {i : Number} {v : Value}, I s → P s v → i.isNaN = false →
    I (s.set c i v)
  clone : ∀ {s s' : Store} {v w : Value}, I s → P s v → s.clone? v = some (s', w) → I s' ∧ P s' w

/-- All variables and pending parameters of an activation have a property. -/
structure Activation.Holds (P : Store → Value → Prop) (s : Store) (a : Activation) : Prop where
  heap : ∀ v ∈ a.heap.values, P s v
  params : ∀ v ∈ a.params.values, P s v

/-- The store has a property, and so have all variables and pending parameters. -/
structure Machine.Holds (I : Store → Prop) (P : Store → Value → Prop) (m : Machine) : Prop where
  store : I m.store
  current : m.current.Holds P m.store
  callers : ∀ a ∈ m.callers, a.Holds P m.store

namespace ValueLaw

variable {I : Store → Prop} {P : Store → Value → Prop} {s s' : Store} {a a' : Activation}

theorem eval (law : ValueLaw I P) (hI : I s) (ha : a.Holds P s) {x : Expr} {v : Value}
    (hv : x.eval a.heap s = .ok v) : P s v :=
  Expr.eval_origin (fun _ hw _ => law.plain hw) ha.heap (fun _ _ _ he => law.element hI he) hv

theorem holds_grow (law : ValueLaw I P) (hle : s.cells.size ≤ s'.cells.size) (ha : a.Holds P s) :
    a.Holds P s' :=
  ⟨fun v hv => law.grow hle (ha.heap v hv), fun v hv => law.grow hle (ha.params v hv)⟩

/-- A variable may be set to a value with the property. -/
theorem holds_setVar {name : String} {v : Value} (ha : a.Holds P s) (hv : P s v) :
    (a.withHeap (a.heap.set name v)).Holds P s := by
  refine ⟨?_, ha.params⟩
  intro w hw
  rcases Heap.mem_values_set hw with rfl | hw
  · exact hv
  · exact ha.heap w hw

/-- An assignment keeps both properties. -/
theorem assign (law : ValueLaw I P) (hI : I s) (ha : a.Holds P s) {t : Target} {v : Value}
    {h : Heap} (hv : P s v) (ht : t.assign a.heap s v = .ok (h, s')) :
    I s' ∧ (a.withHeap h).Holds P s' ∧ s.cells.size ≤ s'.cells.size := by
  unfold Target.assign at ht
  split at ht
  · cases ht
    exact ⟨hI, holds_setVar ha hv, Nat.le_refl _⟩
  · split at ht
    · cases ht
    · split at ht
      · cases ht
        exact ⟨hI, holds_setVar ha hv, Nat.le_refl _⟩
      · cases ht
  · split at ht
    · cases ht
    · rename_i i hi
      have hnum := Expr.not_isNaN_of_evalIndex hi
      split at ht
      · -- the variable becomes an array in a new cell
        cases ht
        obtain ⟨hI', hnew⟩ := law.alloc hI hv hnum
        have hle : s.cells.size ≤ (s.alloc (.ofList [(i, v)])).1.cells.size := by
          simp [Store.alloc]
        exact ⟨hI', holds_setVar (law.holds_grow hle ha) hnew, hle⟩
      · rename_i cell hcell
        cases ht
        have hle : s.cells.size ≤ (s.set cell i v).cells.size := by simp [Store.set]
        have ha' := law.holds_grow hle ha
        exact ⟨law.set hI hv hnum, ⟨ha'.heap, ha'.params⟩, hle⟩
      · cases ht

/-- A line keeps both properties. -/
theorem does (law : ValueLaw I P) (hI : I s) (ha : a.Holds P s) {limit : Nat} {l : Line}
    {sig : Signal} (hd : a.Does limit s l (.signal a' s' sig)) :
    I s' ∧ a'.Holds P s' ∧ s.cells.size ≤ s'.cells.size := by
  cases hd with
  | define => exact ⟨hI, ⟨ha.heap, ha.params⟩, Nat.le_refl _⟩
  | param _ hv hp =>
    obtain ⟨⟨s₁, w⟩, hw, heq⟩ := Option.map_eq_some_iff.mp hp
    cases heq
    have hle := (Store.Fresh.clone hw).changes.size_le
    obtain ⟨hI', hcopy⟩ := law.clone hI (law.eval hI ha hv) hw
    have ha' := law.holds_grow hle ha
    refine ⟨hI', ⟨ha'.heap, ?_⟩, hle⟩
    intro u hu
    rcases List.mem_append.mp hu with hu | hu
    · exact ha'.params u hu
    · rw [List.mem_singleton] at hu
      rw [hu]
      exact hcopy
  | assign _ hv ht => exact law.assign hI ha (law.eval hI ha hv) ht
  | _ => exact ⟨hI, ha, Nat.le_refl _⟩

/-- The callee begins with the parameters that its caller gives away. -/
theorem holds_enter {callee : Activation} {limit : Nat} {l : Line} (ha : a.Holds P s)
    (hd : a.Does limit s l (.enter a' callee)) : a'.Holds P s ∧ callee.Holds P s := by
  cases hd with
  | call _ _ _ ht =>
    unfold Params.take? at ht
    split at ht
    · cases ht
      refine ⟨⟨ha.heap, fun v hv => ha.params v (List.mem_of_mem_drop hv)⟩, ?_, by
        simp [Activation.ofCall, Params.empty]⟩
      intro v hv
      rcases Heap.mem_values_bind hv with hv | hv
      · exact ha.params v (List.mem_of_mem_take hv)
      · simp [Heap.values, Heap.empty, Ordered.empty, Ordered.values] at hv
    · cases ht

/-- What a line returns has the property, unless it is undefined. -/
theorem returned (law : ValueLaw I P) (hI : I s) (ha : a.Holds P s) {limit : Nat} {l : Line}
    {v : Value} (hd : a.Does limit s l (.signal a' s' (.ret v))) (hdef : v.isDefined = true) :
    P s v := by
  cases hd with
  | leave => cases hdef
  | ret _ hv => exact law.eval hI ha hv

/-- The caller takes what is returned, unless it is undefined. -/
theorem holds_resume {result : String} {v : Option Value} (ha : a.Holds P s)
    (hv : ∀ w ∈ v, w.isDefined = true → P s w) : (Machine.resume a result v).Holds P s := by
  unfold Machine.resume
  split
  · rename_i w hw
    obtain ⟨hmem, hdef⟩ := Option.filter_eq_some_iff.mp hw
    have hset : (a.withHeap (a.heap.set result w)).Holds P s := holds_setVar ha (hv w hmem hdef)
    exact ⟨hset.heap, hset.params⟩
  · exact ⟨ha.heap, ha.params⟩

variable {cfg : Config} {m m' : Machine}

/-- Every step keeps both properties. -/
theorem step (law : ValueLaw I P) (h : m.Holds I P) (hs : m.step cfg = .next m') :
    m'.Holds I P := by
  have hcaller : ∀ {c rest}, m.callers = c :: rest →
      c.Holds P m.store ∧ ∀ a ∈ rest, a.Holds P m.store := by
    intro c rest hc
    exact ⟨h.callers c (by simp [hc]), fun a ha => h.callers a (by simp [hc, ha])⟩
  cases Machine.takes_of_step hs with
  | @fallOff c _ _ hc =>
    have hback : (Machine.resume c m.current.result none).Holds P m.store :=
      holds_resume (hcaller hc).1 (by simp)
    exact ⟨h.store, hback, (hcaller hc).2⟩
  | @record l r =>
    refine ⟨h.store, ?_, h.callers⟩
    unfold Activation.record
    split <;> exact ⟨h.current.heap, h.current.params⟩
  | quiet _ he =>
    obtain ⟨hI, ha, hle⟩ := law.does h.store h.current (Machine.does_of_effect he)
    exact ⟨hI, ⟨ha.heap, ha.params⟩, fun c hc => law.holds_grow hle (h.callers c hc)⟩
  | jump => exact ⟨h.store, ⟨h.current.heap, h.current.params⟩, h.callers⟩
  | enter _ he =>
    obtain ⟨ha, hcallee⟩ := holds_enter h.current (Machine.does_of_effect he)
    refine ⟨h.store, hcallee, ?_⟩
    intro c hc
    rcases List.mem_cons.mp hc with rfl | hc
    · exact ha
    · exact h.callers c hc
  | @ret _ v _ _ _ he hc =>
    refine ⟨h.store, holds_resume (hcaller hc).1 ?_, (hcaller hc).2⟩
    intro w hw hdef
    cases hw
    exact law.returned h.store h.current (Machine.does_of_effect he) hdef
  | fault | print => exact ⟨h.store, ⟨h.current.heap, h.current.params⟩, h.callers⟩
  | sinkFault _ _ _ hc =>
    exact ⟨h.store, ⟨(hcaller hc).1.heap, (hcaller hc).1.params⟩, (hcaller hc).2⟩

/-- Both properties hold at every moment of every session. -/
theorem kept (law : ValueLaw I P) : Engine.Kept (Machine.Holds I P) where
  initial k := by
    refine ⟨law.empty, ⟨?_, ?_⟩, ?_⟩
    · intro v hv
      cases hv
    · intro v hv
      cases hv
    · intro a ha
      cases ha
  launch inputs p h := by
    refine ⟨h.store, ⟨?_, h.current.params⟩, h.callers⟩
    -- inputs are numbers
    intro v hv
    rcases Heap.mem_values_bind hv with hv | hv
    · obtain ⟨x, -, rfl⟩ := List.mem_map.mp hv
      exact law.plain rfl
    · exact h.current.heap v hv
  step h hs := law.step h hs
  stop {_ m _} h hstop := by
    obtain ⟨hcur, hcallers, hstore⟩ := hstop.spec
    have hbottom : m.bottom.Holds P m.store := by
      rcases List.mem_cons.mp m.bottom_mem with heq | hmem
      · rw [heq]
        exact h.current
      · exact h.callers _ hmem
    refine ⟨?_, ?_, ?_⟩
    · rw [hstore]
      exact h.store
    · rw [hstore, hcur]
      exact hbottom
    · rw [hcallers]
      intro a ha
      cases ha

end ValueLaw

end AddressCode
