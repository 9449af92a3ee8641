import AddressCode.Proofs.Renaming
import AddressCode.Proofs.Separation

/-!
# AddressCode.Proofs.OutputLog — what becomes of the records that were printed

The log has the records that the receiver of output got, in the same order (`log_of_steps`).  A
record holds the value that was printed and not a copy of it, and its text is made when somebody
asks for it.  So a later text is the one that the receiver saw as long as no element of an array
found in the value is written (`text_or_overwritten`).  Up to such a write the values and the
fingerprint of a log are those of what was printed (`log_kept_until_overwritten`), and no further
(`log_not_kept_overwriting`).
-/

namespace AddressCode

/-- The record that an event reports, with the text that the receiver of output saw. -/
def Event.printed? : Event → Option (Record × Option String)
  | .printed r t => some (r, t)
  | .faulted _ => none

/-- The fingerprint of records with the texts that were seen, unless one of them had no text. -/
def Log.fingerprintOfSeen? (seen : List (Record × Option String)) : Option String :=
  let texts := seen.mapM fun (d : Record × Option String) =>
    d.2.map (recordText d.1.value.kind d.1.line d.1.proc)
  (texts.map fun rs => "\x7bRecords:[" ++ ",".intercalate rs ++ "]\x7d").map fingerprintOf

/-! ## Texts -/

namespace Store

variable {s s' : Store} {v : Value}

/-- What is written out of a value depends on nothing but the elements of the cells found in it. -/
theorem contentFrom_congr {n : Nat} {path : List Nat}
    (heq : ∀ c, s.Reach v c → s'.elements c = s.elements c) :
    s'.contentFrom n path v = s.contentFrom n path v := by
  induction n generalizing path v with
  | zero => rcases v with _ | _ | _ | _ | ⟨_ | c⟩ <;> rfl
  | succ n ih =>
    rcases v with _ | _ | _ | _ | ⟨_ | c⟩
    any_goals rfl
    simp only [contentFrom, heq c (.here c)]
    split
    · rfl
    · congr 1
      refine List.map_congr_left ?_
      intro e he
      have hin : s'.contentFrom n (c :: path) e.2 = s.contentFrom n (c :: path) e.2 :=
        ih fun d hd => heq d (.inside he hd)
      rw [hin]

theorem text?_congr (heq : ∀ c, s.Reach v c → s'.elements c = s.elements c) :
    s'.text? v = s.text? v := by
  -- both contents are written out to a depth that is enough for either store
  let n := max s.cells.size s'.cells.size + 1
  have hs : s.contentFrom n [] v = s.content v :=
    contentFrom_of_le List.nodup_nil (by simp) (by simp) (by simp only [n]; omega)
  have hs' : s'.contentFrom n [] v = s'.content v :=
    contentFrom_of_le List.nodup_nil (by simp) (by simp) (by simp only [n]; omega)
  unfold text?
  rw [← hs, ← hs', contentFrom_congr heq]

end Store

/-! ## Writing elements -/

namespace Activation

variable {limit : Nat} {a a' : Activation} {s s' : Store} {l : Line} {sig : Signal}

/-- The line `l` is an assignment to an element of a variable that holds the array in cell `c`, and
`s'` is the store with that element. -/
def WritesTo (a : Activation) (s : Store) (l : Line) (c : Nat) (s' : Store) : Prop :=
  ∃ name index x i v, l.core? = some (.assign (.element name index) x) ∧
    a.heap.lookup? name = some (.array (some c)) ∧ s' = s.set c i v

/-- A line makes new cells, or writes an element of a cell there is. -/
theorem Does.store (hd : a.Does limit s l (.signal a' s' sig)) :
    s.Changes s' ∅ ∨ ∃ c, a.WritesTo s l c s' := by
  cases hd with
  | param _ _ hp =>
    obtain ⟨⟨s₁, w⟩, hw, heq⟩ := Option.map_eq_some_iff.mp hp
    cases heq
    exact Or.inl (Store.Fresh.clone hw).changes
  | @assign target x v h _ hl _ ht =>
    unfold Target.assign at ht
    split at ht
    · cases ht
      exact Or.inl (.refl s ∅)
    · split at ht
      · cases ht
      · split at ht
        · cases ht
          exact Or.inl (.refl s ∅)
        · cases ht
    · rename_i name index
      split at ht
      · cases ht
      · rename_i i _
        split at ht
        · -- the variable becomes an array in a new cell
          cases ht
          exact Or.inl ⟨by simp, fun c hc _ => Store.elements_alloc_of_lt _ hc⟩
        · rename_i c hc
          cases ht
          exact Or.inr ⟨c, name, index, x, i, v, hl, hc, rfl⟩
        · cases ht
  | _ => exact Or.inl (.refl s ∅)

end Activation

namespace Machine

variable {cfg : Config} {m m₀ m₁ m' : Machine} {c : Nat} {v : Value}

/-- The step of `m` carries out a line that writes an element of the array in cell `c`, and the run
goes on in `m'`. -/
def Writes (cfg : Config) (m : Machine) (c : Nat) (m' : Machine) : Prop :=
  m.step cfg = .next m' ∧ ∃ l, m.At l ∧ m.current.WritesTo m.store l c m'.store

/-- A step keeps the elements of a cell there is, unless its line writes one of them. -/
theorem elements_step (hs : m.step cfg = .next m') :
    m.store.cells.size ≤ m'.store.cells.size ∧ ∀ c < m.store.cells.size,
      m'.store.elements c = m.store.elements c ∨ m.Writes cfg c m' := by
  cases takes_of_step hs with
  | quiet hl he =>
    rcases (does_of_effect he).store with hch | ⟨d, hw⟩
    · exact ⟨hch.size_le, fun c hc => Or.inl (hch.elements_eq c hc (Set.notMem_empty c))⟩
    · have hset := hw
      obtain ⟨_, _, _, i, w, -, -, rfl⟩ := hset
      refine ⟨by simp [Store.set], ?_⟩
      intro c _
      by_cases hcd : c = d
      · subst hcd
        exact Or.inr ⟨hs, _, hl, hw⟩
      · exact Or.inl (Store.elements_set_of_ne i hcd)
  | _ => exact ⟨Nat.le_refl _, fun _ _ => Or.inl rfl⟩

/-- Between the moments `m` and `m'` of a run an element is written of an array that is found in
`v` at the first of them. -/
def Overwritten (cfg : Config) (m m' : Machine) (v : Value) : Prop :=
  ∃ c m₁ m₂, m.store.Reach v c ∧ Steps cfg m m₁ ∧ m₁.Writes cfg c m₂ ∧ Steps cfg m₂ m'

theorem Overwritten.tail (h : m.Overwritten cfg m₁ v) (hs : m₁.step cfg = .next m') :
    m.Overwritten cfg m' v := by
  obtain ⟨c, w, w', hreach, hbefore, hwrites, hafter⟩ := h
  exact ⟨c, w, w', hreach, hbefore, hwrites, hafter.tail hs⟩

/-- The arrays found in a value keep their elements until one of them is overwritten. -/
theorem elements_or_overwritten (hv : ∀ c, m.store.Reach v c → c < m.store.cells.size)
    (h : Steps cfg m m') :
    m.Overwritten cfg m' v ∨ m.store.cells.size ≤ m'.store.cells.size ∧
      ∀ c, m.store.Reach v c → m'.store.elements c = m.store.elements c := by
  induction h with
  | refl => exact Or.inr ⟨Nat.le_refl _, fun _ _ => rfl⟩
  | @tail m₁ m₂ hsteps hs ih =>
    rcases ih with hover | ⟨hsize, hkeep⟩
    · exact Or.inl (hover.tail hs)
    · obtain ⟨hgrow, hstep⟩ := elements_step hs
      by_cases hwrites : ∃ c, m.store.Reach v c ∧ m₁.Writes cfg c m₂
      · obtain ⟨c, hreach, hw⟩ := hwrites
        exact Or.inl ⟨c, m₁, m₂, hreach, hsteps, hw, .refl⟩
      · refine Or.inr ⟨Nat.le_trans hsize hgrow, ?_⟩
        intro c hreach
        rcases hstep c (Nat.lt_of_lt_of_le (hv c hreach) hsize) with heq | hw
        · exact heq.trans (hkeep c hreach)
        · exact absurd ⟨c, hreach, hw⟩ hwrites

/-- So a value keeps its text until an array found in it is overwritten. -/
theorem text_or_overwritten (hv : ∀ c, m.store.Reach v c → c < m.store.cells.size)
    (h : Steps cfg m m') :
    m'.store.text? v = m.store.text? v ∨ m.Overwritten cfg m' v := by
  rcases elements_or_overwritten hv h with hover | ⟨-, hkeep⟩
  · exact Or.inr hover
  · exact Or.inl (Store.text?_congr hkeep)

/-! ## Records -/

/-- The running line prints the record `r`, whose value has the text `t`. -/
def Prints (cfg : Config) (m : Machine) (r : Record) (t : Option String) : Prop :=
  ∃ l v, m.At l ∧ m.effect cfg l = .signal m.current m.store (.print v (m.current.pc + 1)) ∧
    r = ⟨v, m.current.pc + 1, m.current.name⟩ ∧ t = m.store.text? v

/-- The records that the receiver of output got since the run began, with the texts it saw. -/
def seen (m : Machine) : List (Record × Option String) := m.events.toList.filterMap Event.printed?

/-- The arrays in a record that is printed exist. -/
theorem Prints.exist {r : Record} {t : Option String} (h : m.Prints cfg r t)
    (hsep : m.Separated) : ∀ c, m.store.Reach r.value c → c < m.store.cells.size := by
  obtain ⟨l, v, -, he, rfl, -⟩ := h
  intro c hc
  exact hsep.exist_heap c (Activation.Does.reach_value (Or.inl ⟨_, does_of_effect he⟩) hc)

/-- A step prints nothing, or it adds one record to the log and to what was seen. -/
theorem log_step (cfg : Config) (m : Machine) :
    ((m.step cfg).state.log = m.log ∧ (m.step cfg).state.seen = m.seen) ∨
      ∃ r t, m.Prints cfg r t ∧ (m.step cfg).state.log = m.log.push r ∧
        (m.step cfg).state.seen = m.seen ++ [(r, t)] ∧ (m.step cfg).state.store = m.store := by
  have htakes := takes_step cfg m
  generalize m.step cfg = o at htakes
  cases htakes with
  | fallOff | finish | record | quiet | jump | enter | ret | finishWith | overflow =>
    exact Or.inl ⟨rfl, rfl⟩
  | fault | halt =>
    refine Or.inl ⟨rfl, ?_⟩
    simp [seen, Step.state, advance, deliver, unwind, Event.printed?]
  | print hl he | sinkFault hl he | sinkHalt hl he | escape hl he =>
    refine Or.inr ⟨_, _, ⟨_, _, hl, he, rfl, rfl⟩, rfl, ?_, rfl⟩
    simp [seen, Step.state, advance, deliver, unwind, printed, backTo, Event.printed?]

/-- A line that adds to the log prints a record. -/
theorem prints_of_log (h : m.log.size < (m.step cfg).state.log.size) :
    ∃ r t, m.Prints cfg r t := by
  rcases log_step cfg m with ⟨hlog, -⟩ | ⟨r, t, hprints, -⟩
  · rw [hlog] at h
    omega
  · exact ⟨r, t, hprints⟩

/-- The state `m'` is found at the moment `m` of a run, or right after it if the run ends then. -/
def Finds (cfg : Config) (m m' : Machine) : Prop := m' = m ∨ Stops cfg m m'

theorem Finds.here (cfg : Config) (m : Machine) : Finds cfg m m := Or.inl rfl

/-- What is found at a moment of a run is its state, or the one its step leads to. -/
theorem Finds.cases (h : Finds cfg m m') :
    m' = m ∨ m' = (m.step cfg).state ∧ m'.store = m.store := by
  rcases h with rfl | hstop
  · exact Or.inl rfl
  · obtain ⟨-, -, hstore⟩ := hstop.spec
    rcases hstop with ⟨r, hs⟩ | ⟨message, hs⟩
    · exact Or.inr ⟨by rw [hs]; rfl, hstore⟩
    · exact Or.inr ⟨by rw [hs]; rfl, hstore⟩

/-- The records that were seen are added to the log as they come. -/
theorem log_state (cfg : Config) {log : List Record} (h : m.log.toList = log ++ m.seen.map (·.1)) :
    (m.step cfg).state.log.toList = log ++ (m.step cfg).state.seen.map (·.1) := by
  rcases log_step cfg m with ⟨hlog, hseen⟩ | ⟨r, t, -, hlog, hseen, -⟩
  · rw [hlog, hseen]
    exact h
  · rw [hlog, hseen]
    simp [h]

theorem log_of_steps (hm : Steps cfg m₀ m) (hseen : m₀.seen = []) :
    m.log.toList = m₀.log.toList ++ m.seen.map (·.1) := by
  refine hm.invariant (P := fun m => m.log.toList = m₀.log.toList ++ m.seen.map (·.1)) ?_ ?_
  · intro m₁ m₂ h hs
    have hnext := log_state cfg h
    rw [hs] at hnext
    exact hnext
  · simp [hseen]

/-- A record that was seen was printed at a moment of the run. -/
theorem prints_of_mem_seen (hm : Steps cfg m₀ m) (hseen : m₀.seen = [])
    {d : Record × Option String} (hd : d ∈ m.seen) :
    ∃ m₁, Steps cfg m₀ m₁ ∧ m₁.Prints cfg d.1 d.2 ∧ Steps cfg m₁ m := by
  induction hm with
  | refl => simp [hseen] at hd
  | @tail m₁ m₂ hsteps hs ih =>
    have hlog := log_step cfg m₁
    rw [hs] at hlog
    simp only [Step.state] at hlog
    have hold : d ∈ m₁.seen →
        ∃ w, Steps cfg m₀ w ∧ w.Prints cfg d.1 d.2 ∧ Steps cfg w m₂ := by
      intro hmem
      obtain ⟨w, hw, hprints, hafter⟩ := ih hmem
      exact ⟨w, hw, hprints, hafter.tail hs⟩
    rcases hlog with ⟨-, heq⟩ | ⟨r, t, hprints, -, heq, -⟩
    · exact hold (heq ▸ hd)
    · rw [heq, List.mem_append] at hd
      rcases hd with hd | hd
      · exact hold hd
      · obtain rfl : d = (r, t) := List.mem_singleton.mp hd
        exact ⟨m₁, hsteps, hprints, .single hs⟩

/-- What is asked of the records is asked of what was seen. -/
theorem mapM_seen {α : Type} {seen : List (Record × Option String)} {f : Record → Option α}
    {g : Record × Option String → Option α} (h : ∀ d ∈ seen, f d.1 = g d) :
    (seen.map (·.1)).mapM f = seen.mapM g := by
  induction seen with
  | nil => rfl
  | cons d seen ih =>
    have hhead : f d.1 = g d := h d List.mem_cons_self
    have htail : (seen.map (·.1)).mapM f = seen.mapM g :=
      ih fun x hx => h x (List.mem_cons_of_mem d hx)
    simp [List.mapM_cons, hhead, htail]

/-- The values and the fingerprint of a log whose texts are the ones that were seen. -/
theorem texts_of_seen {s : Store} {log : Log} {seen : List (Record × Option String)}
    (hlog : log.toList = seen.map (·.1)) (htexts : ∀ d ∈ seen, s.text? d.1.value = d.2) :
    log.texts? s = seen.mapM (·.2) ∧ log.fingerprint? s = Log.fingerprintOfSeen? seen := by
  constructor
  · unfold Log.texts?
    rw [hlog]
    exact mapM_seen htexts
  · unfold Log.fingerprint? Log.preimage? Log.fingerprintOfSeen?
    have hrecords : (seen.map (·.1)).mapM (fun r =>
          (s.text? r.value).map (Log.recordText r.value.kind r.line r.proc)) =
        seen.mapM fun d => d.2.map (Log.recordText d.1.value.kind d.1.line d.1.proc) := by
      refine mapM_seen fun d hd => ?_
      rw [htexts d hd]
    rw [hlog, hrecords]

/-! ## The log of a run -/

/-- At every moment of a run and at its end the log has the records that the receiver of output got
since the run began, in their order and after those that were there.  A record has the text that
the receiver saw, unless between the print and that moment an element was written of an array that
was found in the value when it was printed.  If all have their texts, the values and the fingerprint
of the log are those of what the receiver saw. -/
theorem log_kept_until_overwritten {e : Engine} (he : e.Session) (hstart : e.Starts m₀)
    (hm : Steps e.config m₀ m) (hfinds : Finds e.config m m') :
    m'.log.toList = m₀.log.toList ++ m'.seen.map (·.1) ∧
      (∀ d ∈ m'.seen, m'.store.text? d.1.value = d.2 ∨
        ∃ m₁, Steps e.config m₀ m₁ ∧ m₁.Prints e.config d.1 d.2 ∧
          m₁.Overwritten e.config m d.1.value) ∧
      (m₀.log = #[] → (∀ d ∈ m'.seen, m'.store.text? d.1.value = d.2) →
        m'.log.texts? m'.store = m'.seen.mapM (·.2) ∧
          m'.log.fingerprint? m'.store = Log.fingerprintOfSeen? m'.seen) := by
  have hseen : m₀.seen = [] := by cases hstart <;> rfl
  have hlog : m'.log.toList = m₀.log.toList ++ m'.seen.map (·.1) := by
    rcases hfinds.cases with rfl | ⟨rfl, -⟩
    · exact log_of_steps hm hseen
    · exact log_state e.config (log_of_steps hm hseen)
  -- a record seen by `m` was printed at a moment from which the run has gone on to `m`
  have hold : ∀ d ∈ m.seen, m.store.text? d.1.value = d.2 ∨
      ∃ m₁, Steps e.config m₀ m₁ ∧ m₁.Prints e.config d.1 d.2 ∧
        m₁.Overwritten e.config m d.1.value := by
    intro d hd
    obtain ⟨m₁, hbefore, hprints, hafter⟩ := prints_of_mem_seen hm hseen hd
    have hsep : m₁.Separated := separated_kept.reached he ⟨m₀, hstart, hbefore⟩
    rcases text_or_overwritten (hprints.exist hsep) hafter with htext | hover
    · refine Or.inl (htext.trans ?_)
      obtain ⟨_, _, _, _, hr, ht⟩ := hprints
      rw [hr, ht]
    · exact Or.inr ⟨m₁, hbefore, hprints, hover⟩
  refine ⟨hlog, ?_, ?_⟩
  · rcases hfinds.cases with rfl | ⟨hstate, hstore⟩
    · exact hold
    · intro d hd
      rw [hstore]
      rw [hstate] at hd
      rcases log_step e.config m with ⟨-, heq⟩ | ⟨r, t, hprints, -, heq, -⟩
      · exact hold d (heq ▸ hd)
      · rw [heq, List.mem_append] at hd
        rcases hd with hd | hd
        · exact hold d hd
        · -- the last record has just been printed
          obtain rfl : d = (r, t) := List.mem_singleton.mp hd
          obtain ⟨_, _, _, _, hr, ht⟩ := hprints
          exact Or.inl (by rw [hr, ht])
  · intro hempty htexts
    rw [hempty] at hlog
    exact texts_of_seen hlog htexts

/-- An engine whose program prints an array and then writes to it. -/
def writingAfterPrint : Engine :=
  (Engine.new {}).load <| .ofStrings ["a[0] = 1", "print a", "a[0] = 2"]

/-- The state after `n` steps of its program. -/
def writingAfterPrintAt (n : Nat) : Machine := (writingAfterPrint.exec [] n).1.machine

/-- The text of the record changes, and it does so because its array was overwritten. -/
theorem log_kept_until_overwritten_writing : ∃ (r : Record) (m₁ : Machine),
    m₁.Prints writingAfterPrint.config r (some "[0:1]") ∧
      (writingAfterPrintAt 3).store.text? r.value = some "[0:2]" ∧
      m₁.Overwritten writingAfterPrint.config (writingAfterPrintAt 3) r.value := by
  have hfacts : (writingAfterPrint.exec [] 3).2 = .running ∧
      (writingAfterPrintAt 3).seen.map (fun d =>
        (d.2, (writingAfterPrintAt 3).store.text? d.1.value)) = [(some "[0:1]", some "[0:2]")] := by
    decide +kernel
  obtain ⟨hrun, hseen⟩ := hfacts
  obtain ⟨⟨r, t⟩, hone, hd⟩ := List.map_eq_singleton_iff.mp hseen
  obtain ⟨rfl, hnow⟩ : t = some "[0:1]" ∧
      (writingAfterPrintAt 3).store.text? r.value = some "[0:2]" := Prod.mk.inj hd
  have hsession : writingAfterPrint.Session := .load (.new {}) _
  have hreached : writingAfterPrint.Reached (writingAfterPrintAt 3) :=
    Engine.reached_exec writingAfterPrint [] 3 hrun
  obtain ⟨m₀, hstart, hsteps⟩ := hreached
  obtain ⟨-, htexts, -⟩ :=
    log_kept_until_overwritten hsession hstart hsteps (.here _ (writingAfterPrintAt 3))
  have hmem : (r, some "[0:1]") ∈ (writingAfterPrintAt 3).seen := by
    rw [hone]
    exact List.mem_singleton_self _
  rcases htexts _ hmem with hkept | ⟨m₁, -, hprints, hover⟩
  · have heq : some "[0:2]" = some "[0:1]" := hnow.symm.trans hkept
    simp at heq
  · exact ⟨r, m₁, hprints, hnow, hover⟩

/-- At the end of that run the log has another text than the receiver of output saw, and it is this
text that enters the fingerprint. -/
theorem log_not_kept_overwriting :
    (writingAfterPrint.exec [] 4).2 = .finished ⟨.boolean true, false, none⟩ ∧
      (writingAfterPrintAt 4).seen.map (·.2) = [some "[0:1]"] ∧
      (writingAfterPrintAt 4).log.texts? (writingAfterPrintAt 4).store = some ["[0:2]"] ∧
      (writingAfterPrintAt 4).log.preimage? (writingAfterPrintAt 4).store =
        some ("\x7bRecords:[" ++ Log.recordText .array 2 rootName "[0:2]" ++ "]\x7d") := by
  decide +kernel

end Machine

end AddressCode
