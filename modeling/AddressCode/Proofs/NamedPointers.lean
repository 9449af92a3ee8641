import AddressCode.Proofs.Arguments
import AddressCode.Proofs.PointerAccess
import AddressCode.Proofs.WellFormedValues

/-!
# AddressCode.Proofs.NamedPointers — pointers of a frame do not dangle

A pointer is the name of a variable, and it is followed in the heap of the frame that follows it.
It may be copied into variables, arrays and parameters, and be overwritten through other pointers.

* A pointer is made only to a variable that is defined, and a variable that is defined stays so:
  assignments and results of calls are values that are defined (`Machine.frame_keeps_variables`).
* So what a line computes points into the heap of its frame, if all values of the frame do
  (`Activation.Named.eval`), and so does everything that the line writes
  (`Activation.Does.pointers`).
* Pointers from elsewhere come with arguments and with results of calls only.  A frame that got none
  (`Machine.GetsNoPointer`) is `Activation.Named` in each of its states: while it waits, nobody else
  writes to its arrays (`Machine.FrameMoves.named`).

In such a frame no instruction meets a dangling reference, and a chain of pointers fails only where
a variable on the way is undefined or no pointer (`pointers_do_not_dangle`).
-/

namespace AddressCode

/-! ## Pointers found in a value -/

/-- Every pointer found in a value names a variable that is defined. -/
def Value.PointsInto (h : Heap) (s : Store) (v : Value) : Prop :=
  ∀ name, s.Found v (.pointer name) → h.has name = true

/-- No pointer is found in a value. -/
def Value.PointerFree (s : Store) (v : Value) : Prop := ∀ name, ¬ s.Found v (.pointer name)

/-- A pointer to a variable is found in a content. -/
inductive Content.Mentions (name : String) : Content → Prop where
  | pointer : Mentions name (.pointer name)
  | item {items : List (Number × Content)} {e : Number × Content} (he : e ∈ items)
      (h : Mentions name e.2) : Mentions name (.array items)

namespace Store

variable {s s' t : Store} {u v w : Value} {c : Nat} {i : Number} {name : String}

/-- What is found in a value depends on nothing but the elements of its arrays. -/
theorem found_of_found (heq : ∀ c, s.Reach v c → s'.elements c = s.elements c)
    (h : s'.Found v w) : s.Found v w := by
  induction h with
  | here v => exact .here v
  | @inside c e w he _ ih =>
    rw [heq c (.here c)] at he
    exact .inside he (ih fun d hd => heq d (.inside he hd))

/-- A pointer that is found after an element was written was found before, or is found in the
element. -/
theorem found_set (h : (s.set c i u).Found v (.pointer name)) :
    s.Found v (.pointer name) ∨ s.Found u (.pointer name) := by
  generalize hw : Value.pointer name = w at h
  induction h with
  | here v => exact Or.inl (.here v)
  | inside he _ ih =>
    rcases mem_elements_set he with heq | he
    · rw [heq] at ih
      exact Or.inr ((ih hw).elim id id)
    · exact (ih hw).imp_left (.inside he)

/-- What is written out of a value mentions the pointers found in it. -/
theorem found_of_mentions {n : Nat} {path : List Nat}
    (h : (s.contentFrom n path v).Mentions name) : s.Found v (.pointer name) := by
  induction n generalizing path v with
  | zero =>
    rcases v with _ | _ | _ | _ | ⟨_ | c⟩ <;> cases h
    exact .here _
  | succ n ih =>
    rcases v with _ | _ | _ | _ | ⟨_ | c⟩
    case array.some =>
      simp only [contentFrom] at h
      split at h
      · cases h
      · cases h with
        | item he hin =>
          obtain ⟨e, hmem, rfl⟩ := List.mem_map.mp he
          exact .inside hmem (ih hin)
    all_goals cases h
    exact .here _

/-- What is built from a content holds no pointer that the content does not mention. -/
theorem mentions_law : BuildLaw
    (fun s x s' v => ∀ {t : Store} {name : String}, Keeps s s' t →
      t.Found v (.pointer name) → x.Mentions name)
    (fun s items s' es => ∀ {t : Store} {name : String} {e : Number × Value}, Keeps s s' t →
      e ∈ es → t.Found e.2 (.pointer name) → ∃ item ∈ items, item.2.Mentions name) where
  leaf {_ x _} hx _ _ _ hf := by
    cases x <;> cases hx <;> cases hf
    exact .pointer
  array {s s' items es} hes hitems t name hkeep hf := by
    have hcell := hkeep.elements_alloc (Fresh.buildItems items hes).changes.size_le
    cases hf with
    | inside he hf =>
      rw [hcell] at he
      obtain ⟨item, hitem, hin⟩ :=
        hitems (hkeep.of_changes (changes_alloc s' _)) (Tree.mem_entries_ofList he) hf
      exact .item hitem hin
  nil _ he := by cases he
  cons {s s₁ s₂ i x v rest es} hx hrest ihx ihrest t name e hkeep he hf := by
    rcases List.mem_cons.mp he with rfl | he
    · have hkeep₁ := hkeep.of_changes (Fresh.buildItems rest hrest).changes
      exact ⟨(i, x), List.mem_cons_self, ihx hkeep₁ hf⟩
    · obtain ⟨item, hitem, hin⟩ := ihrest (hkeep.mono (Fresh.build x hx).changes.size_le) he hf
      exact ⟨item, List.mem_cons_of_mem _ hitem, hin⟩

/-- The pointers found in a copy are found in the value. -/
theorem found_of_clone (h : s.clone? v = some (s', w)) (hf : s'.Found w (.pointer name)) :
    s.Found v (.pointer name) :=
  found_of_mentions (mentions_law.build _ h (fun _ _ _ => rfl) hf)

end Store

namespace Value.PointsInto

variable {h h' : Heap} {s s' : Store} {u v w : Value}

theorem mono (hv : v.PointsInto h s) (hle : ∀ name, h.has name = true → h'.has name = true) :
    v.PointsInto h' s :=
  fun name hf => hle name (hv name hf)

theorem congr (hv : v.PointsInto h s) (heq : ∀ c, s.Reach v c → s'.elements c = s.elements c) :
    v.PointsInto h s' :=
  fun name hf => hv name (Store.found_of_found heq hf)

theorem set (hv : v.PointsInto h s) (hu : u.PointsInto h s) (c : Nat) (i : Number) :
    v.PointsInto h (s.set c i u) :=
  fun name hf => (Store.found_set hf).elim (hv name) (hu name)

/-- The copy of a value points to what the value points to. -/
theorem clone (hv : v.PointsInto h s) (hw : s.clone? v = some (s', w)) : w.PointsInto h s' :=
  fun name hf => hv name (Store.found_of_clone hw hf)

/-- A new array points to what its element points to. -/
theorem alloc (hv : v.PointsInto h s) (hlt : ∀ c, s.Reach v c → c < s.cells.size) (i : Number) :
    (s.alloc (.ofList [(i, v)])).2.PointsInto h (s.alloc (.ofList [(i, v)])).1 := by
  intro name hf
  cases hf with
  | @inside _ e _ he hf =>
    rw [Store.elements_alloc_size] at he
    rw [List.mem_singleton.mp (Tree.mem_entries_ofList he)] at hf
    exact hv name (Store.found_of_found (fun c hc => Store.elements_alloc_of_lt _ (hlt c hc)) hf)

end Value.PointsInto

/-! ## Variables that are set -/

namespace Heap

variable {h : Heap} {v : Value} {t name : String}

/-- A variable stays defined when one is set to a value that is defined. -/
theorem has_set (hv : v.isDefined = true) (hname : h.has name = true) :
    (h.set t v).has name = true := by
  by_cases ht : t = ""
  · rwa [set, if_pos ht]
  · by_cases heq : name = t
    · rw [heq, has_iff]
      exact ⟨v, lookup?_set_self h ht hv⟩
    · rwa [has, lookup?_set_of_ne h v heq]

theorem has_bindFrom {vs : List Value} {i : Nat} (hvs : ∀ v ∈ vs, v.isDefined = true)
    (hname : h.has name = true) : (h.bindFrom i vs).has name = true := by
  induction vs generalizing h i with
  | nil => exact hname
  | cons v vs ih =>
    obtain ⟨hv, hvs⟩ := List.forall_mem_cons.mp hvs
    exact ih hvs (has_set hv hname)

end Heap

namespace Activation

variable {a a' : Activation} {s s' : Store} {v : Value}

/-- Every pointer found in the variables and the pending parameters names a variable of the
activation that is defined. -/
def Named (s : Store) (a : Activation) : Prop := a.Holds (fun s v => v.PointsInto a.heap s) s

namespace Named

theorem congr (h : a.Named s) (heq : ∀ v, v ∈ a.heap.values ∨ v ∈ a.params.values →
    ∀ c, s.Reach v c → s'.elements c = s.elements c) : a.Named s' :=
  ⟨fun v hv => (h.heap v hv).congr (heq v (Or.inl hv)),
    fun v hv => (h.params v hv).congr (heq v (Or.inr hv))⟩

/-- An expression points into the heap: a pointer that is new is to a variable that is defined. -/
theorem eval (h : a.Named s) {x : Expr} (hv : x.eval a.heap s = .ok v) :
    v.PointsInto a.heap s := by
  refine Expr.eval_origin ?_ h.heap ?_ hv
  · intro w hw hnew name hf
    cases hf with
    | here => exact hnew name rfl
    | inside => cases hw
  · exact fun c hc e he name hf => h.heap _ hc name (.inside he hf)

theorem setVar (h : a.Named s) (hdef : v.isDefined = true) (hv : v.PointsInto a.heap s)
    (t : String) : (a.withHeap (a.heap.set t v)).Named s := by
  have hmono : ∀ name, a.heap.has name = true → (a.heap.set t v).has name = true :=
    fun name hname => Heap.has_set hdef hname
  have hold : a.Holds (fun s w => w.PointsInto (a.heap.set t v) s) s :=
    ⟨fun w hw => (h.heap w hw).mono hmono, fun w hw => (h.params w hw).mono hmono⟩
  exact ValueLaw.holds_setVar hold (hv.mono hmono)

/-- No pointer dangles. -/
theorem not_dangles (h : a.Named s) : ¬ a.heap.Dangles := by
  rintro ⟨name, next, hp, hnot⟩
  have hhas := h.heap _ (Heap.mem_values_of_lookup hp) next (.here _)
  rw [hhas] at hnot
  cases hnot

end Named

/-- An assignment of a value leaves all variables defined, and all values pointing into the heap. -/
theorem assign_pointers {t : Target} {h : Heap} (hdef : v.isDefined = true)
    (hexist : ∀ w, w ∈ a.heap.values ∨ w ∈ a.params.values ∨ w = v →
      ∀ c, s.Reach w c → c < s.cells.size)
    (ht : t.assign a.heap s v = .ok (h, s')) :
    (∀ name, a.heap.has name = true → h.has name = true) ∧
      (v.PointsInto a.heap s → a.Named s → (a.withHeap h).Named s') := by
  rcases t with ⟨depth, name⟩ | ⟨name, index⟩
  · -- a variable is set, directly or through pointers
    have hset : ∀ t, (∀ name, a.heap.has name = true → (a.heap.set t v).has name = true) ∧
        (v.PointsInto a.heap s → a.Named s → (a.withHeap (a.heap.set t v)).Named s) :=
      fun t => ⟨fun _ hname => Heap.has_set hdef hname, fun hv h => h.setVar hdef hv t⟩
    cases depth with
    | zero =>
      cases ht
      exact hset name
    | succ depth =>
      simp only [Target.assign] at ht
      split at ht
      · cases ht
      · split at ht
        · cases ht
          exact hset _
        · cases ht
  · obtain ⟨i, -, ⟨-, rfl, rfl⟩ | ⟨c, -, rfl, rfl⟩⟩ := Target.assign_element_eq_ok_iff.mp ht
    · refine ⟨fun _ hname => Heap.has_set rfl hname, fun hv h => ?_⟩
      refine (h.congr fun w hw c hc => ?_).setVar rfl ?_ name
      · exact Store.elements_alloc_of_lt _ (hexist w (hw.imp_right Or.inl) c hc)
      · exact hv.alloc (hexist v (Or.inr (Or.inr rfl))) i
    · refine ⟨fun _ hname => hname, fun hv h => ⟨?_, ?_⟩⟩
      · exact fun w hw => (h.heap w hw).set hv c i
      · exact fun w hw => (h.params w hw).set hv c i

/-- A line leaves all variables of its activation defined, and all values pointing into the heap. -/
theorem Does.pointers {limit : Nat} {l : Line} {sig : Signal} (hI : s.Sound)
    (ha : a.Holds (fun s v => v.Stored s ∧ v.isDefined = true) s)
    (hd : a.Does limit s l (.signal a' s' sig)) :
    (∀ name, a.heap.has name = true → a'.heap.has name = true) ∧ (a.Named s → a'.Named s') := by
  have hexist : ∀ w, w ∈ a.heap.values ∨ w ∈ a.params.values →
      ∀ c, s.Reach w c → c < s.cells.size := by
    rintro w (hw | hw) c hc
    · exact Store.reach_lt hI.closed (ha.heap w hw).1 hc
    · exact Store.reach_lt hI.closed (ha.params w hw).1 hc
  cases hd with
  | define => exact ⟨fun _ hname => hname, fun h => ⟨h.heap, h.params⟩⟩
  | param _ hv hp =>
    obtain ⟨⟨s₁, w⟩, hw, heq⟩ := Option.map_eq_some_iff.mp hp
    cases heq
    have hch := (Store.Fresh.clone hw).changes
    refine ⟨fun _ hname => hname, fun h => ?_⟩
    have hold : a.Named _ := h.congr fun u hu c hc =>
      hch.elements_eq c (hexist u hu c hc) (Set.notMem_empty c)
    refine ⟨hold.heap, fun u hu => ?_⟩
    rcases List.mem_append.mp hu with hu | hu
    · exact hold.params u hu
    · rw [List.mem_singleton.mp hu]
      exact (h.eval hv).clone hw
  | @assign t x v h' _ _ hv ht =>
    obtain ⟨hstored, hdef⟩ := Store.sound_law.eval hI ha hv
    have hexist' : ∀ w, w ∈ a.heap.values ∨ w ∈ a.params.values ∨ w = v →
        ∀ c, s.Reach w c → c < s.cells.size := by
      rintro w (hw | hw | rfl)
      · exact hexist w (Or.inl hw)
      · exact hexist w (Or.inr hw)
      · exact fun c hc => Store.reach_lt hI.closed hstored hc
    obtain ⟨hmono, hnamed⟩ := assign_pointers hdef hexist' ht
    exact ⟨hmono, fun h => hnamed (h.eval hv) h⟩
  | _ => exact ⟨fun _ hname => hname, fun h => h⟩

end Activation

/-! ## Frames of a run -/

/-- The activation that has `d` others below it. -/
def frameAt? (d : Nat) : List Activation → Option Activation
  | [] => none
  | a :: below => if below.length = d then some a else frameAt? d below

theorem mem_of_frameAt? {d : Nat} {a : Activation} {as : List Activation}
    (h : frameAt? d as = some a) : a ∈ as ∧ d < as.length := by
  induction as with
  | nil => cases h
  | cons b below ih =>
    rw [frameAt?] at h
    split at h
    · rename_i hlen
      cases h
      exact ⟨List.mem_cons_self, by rw [List.length_cons]; omega⟩
    · obtain ⟨hmem, hlt⟩ := ih h
      exact ⟨List.mem_cons_of_mem b hmem, by rw [List.length_cons]; omega⟩

/-- The bottom of a stack. -/
theorem frameAt?_zero (a : Activation) (below : List Activation) :
    frameAt? 0 (a :: below) = some (below.getLast?.getD a) := by
  induction below generalizing a with
  | nil => rfl
  | cons b below ih =>
    rw [frameAt?, if_neg (by simp), ih, List.getLast?_cons]
    rfl

namespace Machine

variable {cfg : Config} {m m' : Machine} {a a' : Activation} {d : Nat} {ms : List Machine}

/-- The frame that has `d` others below it. -/
def frame? (m : Machine) (d : Nat) : Option Activation := frameAt? d m.activations

theorem frame?_current (m : Machine) : m.frame? m.callers.length = some m.current :=
  if_pos rfl

theorem frame?_of_ne (hd : m.callers.length ≠ d) : m.frame? d = frameAt? d m.callers :=
  if_neg hd

theorem frame?_top (hc : m.callers = []) : m.frame? 0 = some m.current := by
  have hcurrent := frame?_current m
  rwa [hc] at hcurrent

theorem frame?_zero (m : Machine) : m.frame? 0 = some m.bottom :=
  frameAt?_zero m.current m.callers

/-- What a step does to a frame that it leaves on the stack. -/
inductive FrameMoves (cfg : Config) (d : Nat) (m m' : Machine) :
    Activation → Activation → Prop where
  /-- the frame waits for others -/
  | waits {c : Activation} (hc : c ∈ m.callers) : FrameMoves cfg d m m' c c
  /-- it carries out a line -/
  | runs (hc : m'.callers = m.callers) : FrameMoves cfg d m m' m.current m'.current
  /-- it begins to wait for a call -/
  | calls (p : Procedure) (hstore : m'.store = m.store) :
      FrameMoves cfg d m m' m.current (m.current.waiting p)
  /-- a call that it has made comes to its end -/
  | returns {c : Activation} (result : String) (hup : m.callers.length = d + 1)
      (hdown : m'.callers.length = d) (hstore : m'.store = m.store) :
      FrameMoves cfg d m m' c (resume c result (m.returned? cfg))

theorem frame_of_step (hs : m.step cfg = .next m') (ha : m.frame? d = some a)
    (hd : d ≤ m'.callers.length) : ∃ a', m'.frame? d = some a' ∧ FrameMoves cfg d m m' a a' := by
  have hle : d ≤ m.callers.length := Nat.le_of_lt_succ (mem_of_frameAt? ha).2
  -- whoever is not running waits
  have hwaits : m.callers.length ≠ d → frameAt? d m.callers = some a ∧
      FrameMoves cfg d m m' a a := by
    intro hne
    rw [frame?_of_ne hne] at ha
    exact ⟨ha, .waits (mem_of_frameAt? ha).1⟩
  cases shift_of_step hs with
  | stay hc _ =>
    by_cases hcur : m.callers.length = d
    · subst hcur
      rw [frame?_current] at ha
      cases ha
      exact ⟨m'.current, hc ▸ frame?_current m', .runs hc⟩
    · obtain ⟨hframe, hmove⟩ := hwaits hcur
      exact ⟨a, by rwa [frame?_of_ne (hc ▸ hcur), hc], hmove⟩
  | @push p _ _ henter =>
    have hlen : m'.callers.length = m.callers.length + 1 := by
      rw [henter.callers, List.length_cons]
    have hframe : m'.frame? d = frameAt? d (m.current.waiting p :: m.callers) := by
      rw [frame?_of_ne (by omega), henter.callers]
    by_cases hcur : m.callers.length = d
    · subst hcur
      rw [frame?_current] at ha
      cases ha
      exact ⟨_, hframe.trans (if_pos rfl), .calls p (by rw [henter.state])⟩
    · obtain ⟨hold, hmove⟩ := hwaits hcur
      exact ⟨a, (hframe.trans (if_neg hcur)).trans hold, hmove⟩
  | @pop c hc _ =>
    have hlen : m.callers.length = m'.callers.length + 1 := by rw [hc, List.length_cons]
    obtain ⟨hold, hmove⟩ := hwaits (by omega)
    rw [hc, frameAt?] at hold
    by_cases hcur : m'.callers.length = d
    · rw [if_pos hcur] at hold
      cases hold
      obtain ⟨-, hstore, hcurrent⟩ := pop_spec hs hc rfl
      refine ⟨m'.current, hcur ▸ frame?_current m', ?_⟩
      rw [hcurrent]
      exact .returns m.current.result (by omega) hcur hstore
    · rw [if_neg hcur] at hold
      exact ⟨a, by rwa [frame?_of_ne hcur], hmove⟩

/-- A step of the running frame leaves its variables defined, and its values pointing into its
heap. -/
theorem pointers_current (hs : m.step cfg = .next m') (hstay : m'.callers = m.callers)
    (hinv : m.Holds Store.Sound fun s v => v.Stored s ∧ v.isDefined = true) :
    (∀ name, m.current.heap.has name = true → m'.current.heap.has name = true) ∧
      (m.current.Named m.store → m'.current.Named m'.store) := by
  cases takes_of_step hs with
  | fallOff _ hc | ret _ _ hc | sinkFault _ _ _ hc =>
    exact absurd (hc.symm.trans hstay.symm) (List.cons_ne_self _ _)
  | enter => exact absurd hstay (List.cons_ne_self _ _)
  | record =>
    unfold Activation.record
    split <;> exact ⟨fun _ hname => hname, fun h => ⟨h.heap, h.params⟩⟩
  | quiet _ he =>
    obtain ⟨hmono, hnamed⟩ := (does_of_effect he).pointers hinv.store hinv.current
    exact ⟨hmono, fun h => ⟨(hnamed h).heap, (hnamed h).params⟩⟩
  | _ => exact ⟨fun _ hname => hname, fun h => ⟨h.heap, h.params⟩⟩

namespace FrameMoves

/-- A variable of a frame that is defined stays so. -/
theorem keeps_variables (h : FrameMoves cfg d m m' a a') (hs : m.step cfg = .next m')
    (hinv : m.Holds Store.Sound fun s v => v.Stored s ∧ v.isDefined = true) :
    ∀ name, a.heap.has name = true → a'.heap.has name = true := by
  intro name hname
  cases h with
  | waits | calls => exact hname
  | runs hc => exact (pointers_current hs hc hinv).1 name hname
  | returns =>
    rw [Activation.resume_heap]
    split
    · rename_i v hv
      exact Heap.has_set (Option.filter_eq_some_iff.mp hv).2 hname
    · exact hname

/-- The pointers of a frame stay within its heap, unless it gets one from a call. -/
theorem named (h : FrameMoves cfg d m m' a a') (hs : m.step cfg = .next m') (hsep : m.Separated)
    (hinv : m.Holds Store.Sound fun s v => v.Stored s ∧ v.isDefined = true)
    (hback : m.callers.length = d + 1 → m'.callers.length = d →
      ∀ v ∈ m.returned? cfg, v.PointerFree m.store)
    (ha : a.Named m.store) : a'.Named m'.store := by
  cases h with
  | waits hc =>
    refine ha.congr fun v hv c hreach => hsep.elements_caller hs hc ?_
    exact ⟨v, List.mem_append.mpr hv, hreach⟩
  | runs hc => exact (pointers_current hs hc hinv).2 ha
  | calls p hstore =>
    rw [hstore]
    exact ⟨ha.heap, fun v hv => ha.params v (List.mem_of_mem_drop hv)⟩
  | returns result hup hdown hstore =>
    rw [hstore]
    unfold resume
    split
    · rename_i v hv
      obtain ⟨hmem, hdef⟩ := Option.filter_eq_some_iff.mp hv
      have hfree := hback hup hdown v hmem
      have hset := ha.setVar hdef (fun name hf => absurd hf (hfree name)) result
      exact ⟨hset.heap, hset.params⟩
    · exact ⟨ha.heap, ha.params⟩

end FrameMoves

/-- As long as a frame is on the stack, its variables that are defined stay so. -/
theorem frame_keeps_variables (h : StepsAbove cfg d m m')
    (hinv : m.Holds Store.Sound fun s v => v.Stored s ∧ v.isDefined = true)
    (ha : m.frame? d = some a) :
    ∃ a', m'.frame? d = some a' ∧ ∀ name, a.heap.has name = true → a'.heap.has name = true := by
  have hall : (∃ a', m'.frame? d = some a' ∧
      ∀ name, a.heap.has name = true → a'.heap.has name = true) ∧
      m'.Holds Store.Sound fun s v => v.Stored s ∧ v.isDefined = true := by
    induction h with
    | refl => exact ⟨⟨a, ha, fun _ hname => hname⟩, hinv⟩
    | tail _ hstep ih =>
      obtain ⟨⟨a₁, ha₁, hkeep⟩, hinv₁⟩ := ih
      obtain ⟨a₂, ha₂, hmove⟩ := frame_of_step hstep.1 ha₁ hstep.2
      have hkeep₂ := hmove.keeps_variables hstep.1 hinv₁
      exact ⟨⟨a₂, ha₂, fun name hname => hkeep₂ name (hkeep name hname)⟩,
        Store.sound_law.step hinv₁ hstep.1⟩
  exact hall.1

/-! ## Frames that get no pointer -/

/-- The frame that has `d` others below it got no pointer from elsewhere: none was found in the
arguments that it began with, and none in what the calls that it made have returned.  The frame of
the top level lasts from run to run, and its arguments are numbers. -/
inductive GetsNoPointer (cfg : Config) : Machine → Nat → Prop where
  | clean (k : Nat) : GetsNoPointer cfg { Machine.initial with delivered := k } 0
  | launch {m : Machine} (h : GetsNoPointer cfg m 0) (hc : m.callers = []) (inputs : List Number)
      (p : Program) : GetsNoPointer cfg (m.launch inputs p) 0
  | enter {ms : List Machine} {m m' : Machine} (htrace : Trace cfg ms m)
      (hs : m.step cfg = .next m') (hup : m.callers.length < m'.callers.length)
      (hargs : ∀ v ∈ m'.current.heap.values, v.PointerFree m'.store) :
      GetsNoPointer cfg m' m'.callers.length
  | step {m m' : Machine} {d : Nat} (h : GetsNoPointer cfg m d) (hs : m.step cfg = .next m')
      (hd : d ≤ m'.callers.length)
      (hback : m.callers.length = d + 1 → m'.callers.length = d →
        ∀ v ∈ m.returned? cfg, v.PointerFree m.store) : GetsNoPointer cfg m' d
  | stop {m m' : Machine} (h : GetsNoPointer cfg m 0) (hs : Stops cfg m m') : GetsNoPointer cfg m' 0

theorem GetsNoPointer.trace (h : GetsNoPointer cfg m d) : ∃ ms, Trace cfg ms m := by
  induction h with
  | clean k => exact ⟨[], .clean k⟩
  | launch _ hc inputs p ih =>
    obtain ⟨ms, hms⟩ := ih
    exact ⟨ms, .launch hms hc inputs p⟩
  | enter htrace hs => exact ⟨_, .step htrace hs⟩
  | step _ hs _ _ ih =>
    obtain ⟨ms, hms⟩ := ih
    exact ⟨_, .step hms hs⟩
  | stop _ hs ih =>
    obtain ⟨ms, hms⟩ := ih
    exact ⟨_, .stop hms hs⟩

/-- The frame at the top of a state in which a program is launched. -/
theorem named_launch (h : m.current.Named m.store) (inputs : List Number) (p : Program) :
    (m.launch inputs p).current.Named (m.launch inputs p).store := by
  have hmono : ∀ name, m.current.heap.has name = true →
      (m.current.heap.bind (inputs.map .scalar)).has name = true := by
    intro name hname
    refine Heap.has_bindFrom ?_ hname
    rintro v hv
    obtain ⟨x, -, rfl⟩ := List.mem_map.mp hv
    rfl
  refine ⟨fun v hv => ?_, fun v hv => (h.params v hv).mono hmono⟩
  rcases Heap.mem_values_bind hv with hv | hv
  · obtain ⟨x, -, rfl⟩ := List.mem_map.mp hv
    intro name hf
    cases hf
  · exact (h.heap v hv).mono hmono

/-- A frame that gets no pointer holds pointers to its own variables only.  The induction follows
the frame from its beginning. -/
theorem GetsNoPointer.named (h : GetsNoPointer cfg m d) :
    ∃ a, m.frame? d = some a ∧ a.Named m.store := by
  induction h with
  | clean k =>
    refine ⟨.root, rfl, fun v hv => ?_, fun v hv => ?_⟩
    · cases hv
    · cases hv
  | @launch m _ hc inputs p ih =>
    obtain ⟨a, ha, hnamed⟩ := ih
    rw [frame?_top hc] at ha
    cases ha
    exact ⟨_, frame?_top (show (m.launch inputs p).callers = [] from hc),
      named_launch hnamed inputs p⟩
  | @enter _ m m' _ hs hup hargs =>
    obtain ⟨p, home, result, henter⟩ := enters_of_step hs hup
    refine ⟨m'.current, frame?_current m', fun v hv name hf => absurd hf (hargs v hv name), ?_⟩
    intro v hv
    rw [henter.state] at hv
    cases hv
  | @step m m' d h hs hd hback ih =>
    obtain ⟨ms, htrace⟩ := h.trace
    obtain ⟨a, ha, hnamed⟩ := ih
    obtain ⟨a', ha', hmove⟩ := frame_of_step hs ha hd
    have hinv := htrace.kept Store.sound_law.kept
    exact ⟨a', ha', hmove.named hs (htrace.kept separated_kept) hinv hback hnamed⟩
  | @stop m m' _ hs ih =>
    obtain ⟨a, ha, hnamed⟩ := ih
    obtain ⟨hcurrent, hcallers, hstore⟩ := hs.spec
    rw [frame?_zero] at ha
    cases ha
    exact ⟨m.bottom, hcurrent ▸ frame?_top hcallers, by rwa [hstore]⟩

end Machine

/-! ## Chains of pointers -/

theorem error_iff_not_ok {ε α : Type} {r : Except ε α} :
    (∃ c, r = .error c) ↔ ¬ ∃ v, r = .ok v := by
  cases r <;> simp

namespace Heap

variable {h : Heap} {s : Store} {p t op : String} {d : Nat} {names : List String}

/-- On the way through `d` pointers from the variable `p`, a variable that is to be dereferenced is
undefined or no pointer. -/
def Broken (h : Heap) (p : String) (d : Nat) : Prop :=
  ∃ names name, h.Leads p names name ∧ names.length < d ∧
    ∀ next, h.lookup? name ≠ some (.pointer next)

/-- There is a way, or it is broken. -/
theorem not_leads_iff_broken :
    (¬ ∃ names t, h.Leads p names t ∧ names.length = d) ↔ h.Broken p d := by
  induction d generalizing p with
  | zero =>
    refine ⟨fun hnot => absurd ⟨[], p, .nil p, rfl⟩ hnot, ?_⟩
    rintro ⟨names, name, -, hlt, -⟩
    exact absurd hlt (Nat.not_lt_zero _)
  | succ d ih =>
    by_cases hp : ∃ next, h.lookup? p = some (.pointer next)
    · obtain ⟨next, hp⟩ := hp
      -- both are settled by the way from the next variable
      have hway : (∃ names t, h.Leads p names t ∧ names.length = d + 1) ↔
          ∃ names t, h.Leads next names t ∧ names.length = d := by
        constructor
        · rintro ⟨_, t, hway, hlen⟩
          cases hway with
          | nil => cases hlen
          | cons hp' hrest =>
            rw [hp] at hp'
            cases hp'
            exact ⟨_, t, hrest, Nat.succ.inj hlen⟩
        · rintro ⟨names, t, hway, hlen⟩
          exact ⟨p :: names, t, .cons hp hway, by rw [List.length_cons, hlen]⟩
      rw [hway, ih]
      constructor
      · rintro ⟨names, name, hway, hlt, hname⟩
        exact ⟨p :: names, name, .cons hp hway, Nat.succ_lt_succ hlt, hname⟩
      · rintro ⟨_, name, hway, hlt, hname⟩
        cases hway with
        | nil => exact absurd hp (hname next)
        | cons hp' hrest =>
          rw [hp] at hp'
          cases hp'
          exact ⟨_, name, hrest, Nat.lt_of_succ_lt_succ hlt, hname⟩
    · simp only [not_exists] at hp
      refine ⟨fun _ => ⟨[], p, .nil p, Nat.succ_pos d, hp⟩, fun _ => ?_⟩
      rintro ⟨_, t, hway, hlen⟩
      cases hway with
      | nil => cases hlen
      | cons hp' => exact hp _ hp'

/-- Where no pointer dangles, a way through pointers ends at a variable that is defined. -/
theorem Leads.has_target (hway : h.Leads p names t) (hpos : names.length ≠ 0)
    (hnot : ¬ h.Dangles) : h.has t = true := by
  induction hway with
  | nil => exact absurd rfl hpos
  | @cons name next target names hp hrest ih =>
    cases names with
    | nil =>
      cases hrest
      exact Bool.eq_true_of_not_eq_false fun hfalse => hnot ⟨name, _, hp, hfalse⟩
    | cons => exact ih (by simp)

/-- Where no pointer dangles, a chain can be followed unless it is broken. -/
theorem follows_iff_not_broken (hop : UnaryOp.ofText? op = some (.deref d)) (hnot : ¬ h.Dangles) :
    (∃ names t, h.Leads p names t ∧ names.length = d ∧ h.has t = true) ↔ ¬ h.Broken p d := by
  rw [← not_leads_iff_broken, not_not]
  refine exists_congr fun names => exists_congr fun t => and_congr_right fun hway => ?_
  refine ⟨And.left, fun hlen => ⟨hlen, hway.has_target ?_ hnot⟩⟩
  rcases depth_of_deref hop with rfl | rfl <;> omega

theorem read_fault_iff (hop : UnaryOp.ofText? op = some (.deref d)) (hnot : ¬ h.Dangles) :
    (∃ c, (Expr.unary op (.variable p)).eval h s = .error c) ↔ h.Broken p d := by
  rw [error_iff_not_ok, read_succeeds_iff hop, follows_iff_not_broken hop hnot, not_not]

theorem write_fault_iff (hop : UnaryOp.ofText? op = some (.deref d)) (hnot : ¬ h.Dangles)
    {v : Value} : (∃ c, (Target.variable d p).assign h s v = .error c) ↔ h.Broken p d := by
  rw [error_iff_not_ok, Prod.exists, write_succeeds_iff hop, follows_iff_not_broken hop hnot,
    not_not]

end Heap

namespace Activation

variable {a : Activation} {s : Store}

/-- An assignment is a fault if its expression is one, or the writing is. -/
theorem execute_assign_eq_fault_iff {limit : Nat} {t : Target} {x : Expr} :
    (∃ c, a.execute limit s (.assign t x) = a.fault s c) ↔
      (∃ c, x.eval a.heap s = .error c) ∨
        ∃ v, x.eval a.heap s = .ok v ∧ ∃ c, t.assign a.heap s v = .error c := by
  rw [execute_assign]
  cases hx : x.eval a.heap s with
  | error c => simp
  | ok v =>
    cases ht : t.assign a.heap s v with
    | error c => simp [ht]
    | ok r => simp [ht, fault]

/-- Where no pointer dangles, no instruction meets a dangling reference. -/
theorem not_dangling_of_execute (hnot : ¬ a.heap.Dangles) {limit : Nat} {ins : Instr}
    {a' : Activation} {s' : Store} {c : Cause}
    (he : a.execute limit s ins = .signal a' s' (.fault c)) (start : String) :
    c ≠ .dangling start := by
  rintro rfl
  rcases origin_of_fault he with hvalue | ⟨hvalue, -⟩
  · exact hnot (hvalue.dangles start rfl)
  · cases hvalue

end Activation

namespace Engine

open Machine

variable {e : Engine}

/-- Every state of a session and every moment of its runs has a trace.  From there on, as long as a
frame is on the stack, its variables that are defined stay so, and the end of a run leaves the frame
at the top level as it is.

In a frame that got no pointer from elsewhere, every pointer found in the variables and the pending
parameters names a variable of the frame that is defined.  So no instruction of the frame meets a
dangling reference.  A read through one or two pointers faults if and only if one of the variables
to be dereferenced is undefined or no pointer, and so does a write, unless its expression faults. -/
theorem pointers_do_not_dangle (he : e.Session) :
    (∃ ms, Trace e.config ms e.machine) ∧ (∀ m, e.Reached m → ∃ ms, Trace e.config ms m) ∧
      ∀ ms m, Trace e.config ms m →
        (∀ d a m', m.frame? d = some a → StepsAbove e.config d m m' →
          ∃ a', m'.frame? d = some a' ∧
            ∀ name, a.heap.has name = true → a'.heap.has name = true) ∧
        (∀ m', Stops e.config m m' → m'.frame? 0 = m.frame? 0) ∧
        ∀ d a, m.frame? d = some a → GetsNoPointer e.config m d →
          (∀ v, v ∈ a.heap.values ∨ v ∈ a.params.values → v.PointsInto a.heap m.store) ∧
          (∀ limit ins a' s' c start, a.execute limit m.store ins = .signal a' s' (.fault c) →
            c ≠ .dangling start) ∧
          ∀ op n p, UnaryOp.ofText? op = some (.deref n) →
            ((∃ c, (Expr.unary op (.variable p)).eval a.heap m.store = .error c) ↔
              a.heap.Broken p n) ∧
            ∀ limit x, (∃ c, a.execute limit m.store (.assign (.variable n p) x) =
                a.fault m.store c) ↔
              (∃ c, x.eval a.heap m.store = .error c) ∨ a.heap.Broken p n := by
  refine ⟨he.trace, fun m hm => hm.trace he, fun ms m htrace => ⟨?_, ?_, ?_⟩⟩
  · intro d a m' ha hsteps
    exact frame_keeps_variables hsteps (htrace.kept Store.sound_law.kept) ha
  · intro m' hstop
    obtain ⟨hcurrent, hcallers, -⟩ := hstop.spec
    rw [frame?_top hcallers, frame?_zero, hcurrent]
  · intro d a ha hfree
    obtain ⟨a', ha', hnamed⟩ := hfree.named
    obtain rfl := Option.some.inj (ha.symm.trans ha')
    have hnot := hnamed.not_dangles
    refine ⟨?_, fun limit ins a' s' c start hexec => ?_, ?_⟩
    · rintro v (hv | hv)
      · exact hnamed.heap v hv
      · exact hnamed.params v hv
    · exact Activation.not_dangling_of_execute hnot hexec start
    · intro op n p hop
      refine ⟨Heap.read_fault_iff hop hnot, fun limit x => ?_⟩
      rw [Activation.execute_assign_eq_fault_iff]
      -- whether the write faults does not depend on the value
      simp only [Heap.write_fault_iff hop hnot]
      cases x.eval a.heap m.store with
      | error c => simp
      | ok v => simp

/-- An engine whose program calls a procedure with a number, which is read there through a
pointer. -/
def pointingToArgument : Engine := (Engine.new {}).load <| .ofStrings
  ["BeginFunc f, 1", "q = &p0", "r = *q", "EndFunc", "param 5", "call f, 1"]

/-- The state after `n` steps of its program. -/
def pointingAt (n : Nat) : Machine := (pointingToArgument.exec [] n).1.machine

theorem reached_pointingAt {n : Nat} (h : (pointingToArgument.exec [] n).2 = .running) :
    pointingToArgument.Reached (pointingAt n) := by
  unfold pointingAt
  exact reached_exec pointingToArgument [] n h

theorem step_pointingAt {n : Nat} (h : (pointingToArgument.exec [] (n + 1)).2 = .running) :
    (pointingAt n).step pointingToArgument.config = .next (pointingAt (n + 1)) := by
  unfold pointingAt
  exact step_of_exec h

/-- The frame of the call got no pointer, and the read through the one that it made succeeds. -/
theorem pointers_do_not_dangle_pointingToArgument : ∃ m a, pointingToArgument.Reached m ∧
    m.frame? 1 = some a ∧ GetsNoPointer pointingToArgument.config m 1 ∧
    a.heap.lookup? "q" = some (.pointer "p0") ∧
    ¬ ∃ c, (Expr.unary "*" (.variable "q")).eval a.heap m.store = .error c := by
  have hrun : (pointingToArgument.exec [] 5).2 = .running ∧
      (pointingToArgument.exec [] 6).2 = .running ∧
      (pointingToArgument.exec [] 7).2 = .running := by
    decide +kernel
  have hfacts : (pointingAt 5).callers.length = 0 ∧ (pointingAt 6).callers.length = 1 ∧
      (pointingAt 7).callers.length = 1 ∧
      (∀ v ∈ (pointingAt 6).current.heap.values, v.kind = .scalar) ∧
      (pointingAt 7).current.heap.lookup? "q" = some (.pointer "p0") := by
    decide +kernel
  have hm := reached_pointingAt hrun.1
  have hm₂ := reached_pointingAt hrun.2.2
  have hs := step_pointingAt hrun.2.1
  have hs₁ := step_pointingAt hrun.2.2
  generalize pointingAt 5 = m at *
  generalize pointingAt 6 = m₁ at *
  generalize pointingAt 7 = m₂ at *
  obtain ⟨hlen, hlen₁, hlen₂, hargs, hq⟩ := hfacts
  have hsession : pointingToArgument.Session := .load (.new {}) _
  obtain ⟨-, htraces, hall⟩ := pointers_do_not_dangle hsession
  obtain ⟨ms, htrace⟩ := htraces m hm
  obtain ⟨ms₂, htrace₂⟩ := htraces m₂ hm₂
  -- the argument is a number, and the frame has made no call
  have hfree : ∀ v ∈ m₁.current.heap.values, v.PointerFree m₁.store := by
    intro v hv name hf
    have hkind := hargs v hv
    cases v <;> cases hkind
    cases hf
  have hbegin := GetsNoPointer.enter htrace hs (by omega) hfree
  have hframe : GetsNoPointer pointingToArgument.config m₂ 1 :=
    (hlen₁ ▸ hbegin).step hs₁ (by omega) fun hup => by omega
  have hcurrent : m₂.frame? 1 = some m₂.current := hlen₂ ▸ frame?_current m₂
  obtain ⟨-, -, hframes⟩ := hall ms₂ m₂ htrace₂
  obtain ⟨hpoints, -, hchains⟩ := hframes 1 m₂.current hcurrent hframe
  obtain ⟨hread, -⟩ := hchains "*" 1 "q" rfl
  refine ⟨m₂, m₂.current, hm₂, hcurrent, hframe, hq, fun hfault => ?_⟩
  -- only `q` is dereferenced, and it is a pointer
  obtain ⟨names, name, hway, hlt, hname⟩ := hread.mp hfault
  obtain rfl := List.eq_nil_of_length_eq_zero (Nat.lt_one_iff.mp hlt)
  cases hway
  exact hname "p0" hq

end Engine

end AddressCode
