import AddressCode.Proofs.Isolation
import AddressCode.Proofs.Twins

/-!
# AddressCode.Proofs.Noninterference — a callee cannot see its caller

A call runs on top of its caller and of whoever waits below.  `Machine.callRun` is what can be seen
of it from outside in a number of steps: the records with their texts, the faults, and how it ends,
if it does.  It says what the run delivers that the call is a part of, and which step of the run
ends the call in which way (`callRun_eq_none_iff`, `callEnds_iff`).

Two calls of one procedure are related by `Machine.Twins`: the activations from the callee on are
twins, and what is below does not matter.  They take the same steps (`Twins.callStep`), from the
first line on, if they were called with parameters of equal content.  So nothing that the callers
have besides can be seen (`callee_cannot_see_caller`).
-/

namespace AddressCode

/-! ## What is seen of a call -/

/-- What an event says, with the text of its value instead of the value. -/
inductive Sighting where
  | printed (kind : Value.Kind) (text : Option String) (line : Int) (proc : String)
  | faulted (fault : Fault)
deriving Repr, DecidableEq

/-- What an event says. -/
def Event.sighting : Event → Sighting
  | .printed r text => .printed r.value.kind text r.line r.proc
  | .faulted f => .faulted f

/-- How a call ends. -/
inductive CallEnd where
  /-- with a value, written out, or without one -/
  | ended (value : Option Content)
  /-- with the whole run, because of a fault -/
  | halted (fault : Option Fault)
  /-- because the receiver of output failed, and nobody in the call takes the failure -/
  | brokenOff
  /-- a copy has no end -/
  | aborted

/-- What is seen of a call in some steps, and how it has ended if it has. -/
structure CallRun where
  seen : List Sighting
  ending : Option CallEnd

namespace Machine

/-- Does the running line print, and does the receiver of output fail? -/
def breaks (cfg : Config) (m : Machine) : Bool :=
  match m.current.program[m.current.pc]?, m.current.recording with
  | some l, none =>
    match m.effect cfg l with
    | .signal _ _ (.print _ _) => cfg.sinkFails (m.delivered + 1)
    | _ => false
  | _, _ => false

/-- What the events of `m'` say that are not yet among those of `m`. -/
def sightings (m m' : Machine) : List Sighting :=
  (m'.events.toList.drop m.events.size).map Event.sighting

/-- One step of a call on top of `d` activations.  If the receiver fails in the callee itself, the
fault is one of the caller, and only the record belongs to the call. -/
def callStep (cfg : Config) (d : Nat) (m : Machine) : List Sighting × (Machine ⊕ CallEnd) :=
  match m.step cfg with
  | .next m' =>
    if d ≤ m'.callers.length then (m.sightings m', .inl m')
    else if m.breaks cfg then ((m.sightings m').take 1, .inr .brokenOff)
    else (m.sightings m', .inr (.ended ((m.returned? cfg).map m.store.content)))
  | .done m' r =>
    if m.callers.length = d ∧ m.breaks cfg then ((m.sightings m').take 1, .inr .brokenOff)
    else (m.sightings m', .inr (.halted r.fault))
  | .escaped m' _ => (m.sightings m', .inr .brokenOff)
  | .aborted m' => (m.sightings m', .inr .aborted)

/-- What is seen of a call on top of `d` activations in up to `n` steps. -/
def callRun (cfg : Config) (d : Nat) : Nat → Machine → CallRun
  | 0, _ => ⟨[], none⟩
  | n + 1, m =>
    match m.callStep cfg d with
    | (seen, .inl m') =>
      let r := callRun cfg d n m'
      ⟨seen ++ r.seen, r.ending⟩
    | (seen, .inr ending) => ⟨seen, some ending⟩

/-- What a record says. -/
def recordSighting (m : Machine) (v : Value) (line : Int) : Sighting :=
  .printed v.kind (m.store.text? v) line m.current.name

section Sightings

variable {m m' : Machine}

theorem sightings_of_silent (h : m'.events = m.events) : m.sightings m' = [] := by
  simp [sightings, h]

theorem sightings_of_fault {f : Fault} (h : m'.events = m.events.push (.faulted f)) :
    m.sightings m' = [.faulted f] := by
  simp [sightings, h, Event.sighting]

theorem sightings_of_print {v : Value} {line : Int} (h : m'.events = (m.printed v line).events) :
    m.sightings m' = [m.recordSighting v line] := by
  simp [sightings, h, printed, Event.sighting, recordSighting]

/-- A record, and the fault of the one who takes the failure of the receiver. -/
theorem sightings_of_print_fault {v : Value} {line : Int} {f : Fault}
    (h : m'.events = (m.printed v line).events.push (.faulted f)) :
    m.sightings m' = [m.recordSighting v line, .faulted f] := by
  simp [sightings, h, printed, Event.sighting, recordSighting]

end Sightings

/-! ## A call as part of a run -/

section Inside

variable {cfg : Config} {m m₁ m₂ : Machine} {d n : Nat}

theorem sightings_trans (h₁ : m.events.toList <+: m₁.events.toList)
    (h₂ : m₁.events.toList <+: m₂.events.toList) :
    m.sightings m₂ = m.sightings m₁ ++ m₁.sightings m₂ := by
  obtain ⟨xs, hxs⟩ := h₁
  obtain ⟨ys, hys⟩ := h₂
  have hsize : m₁.events.size = m.events.size + xs.length := by
    rw [← Array.length_toList, ← hxs, List.length_append, Array.length_toList]
  simp [sightings, ← hys, ← hxs, hsize, List.drop_append]

/-- A step of a call that has not ended. -/
theorem step_of_callStep {seen : List Sighting} (h : m.callStep cfg d = (seen, .inl m₁)) :
    m.step cfg = .next m₁ ∧ d ≤ m₁.callers.length ∧ seen = m.sightings m₁ := by
  unfold callStep at h
  split at h
  · rename_i m' hs
    split at h
    · rename_i hd
      cases h
      exact ⟨hs, hd, rfl⟩
    · split at h <;> cases h
  · split at h <;> cases h
  · cases h
  · cases h

/-- After `n` steps of a run the call on top of `d` activations has not ended, and `seen` is what
the run has delivered since. -/
structure InCall (cfg : Config) (d n : Nat) (m : Machine) (seen : List Sighting) : Prop where
  running : (m.run cfg n).2 = .running
  above : ∀ i < n, d ≤ (m.run cfg (i + 1)).1.callers.length
  seen : seen = m.sightings (m.run cfg n).1

/-- How a step ends the call on top of `d` activations, and what is seen of the step. -/
inductive EndsCall (cfg : Config) (d : Nat) (m : Machine) : List Sighting → CallEnd → Prop where
  | ended {m' : Machine} (hs : m.step cfg = .next m') (hback : m'.callers.length < d)
      (hno : m.breaks cfg = false) :
      EndsCall cfg d m (m.sightings m') (.ended ((m.returned? cfg).map m.store.content))
  /-- a fault in the call, or the failure of the receiver in a call that it has made -/
  | halted {m' : Machine} {r : Result} (hs : m.step cfg = .done m' r)
      (hno : ¬ (m.callers.length = d ∧ m.breaks cfg = true)) :
      EndsCall cfg d m (m.sightings m') (.halted r.fault)
  /-- the caller takes the failure of the receiver and goes on; its fault is not one of the call -/
  | taken {m' : Machine} (hs : m.step cfg = .next m') (hback : m'.callers.length < d)
      (hbreaks : m.breaks cfg = true) : EndsCall cfg d m ((m.sightings m').take 1) .brokenOff
  /-- the caller takes the failure of the receiver and is halted by it -/
  | takenLast {m' : Machine} {r : Result} (hs : m.step cfg = .done m' r)
      (hcallee : m.callers.length = d) (hbreaks : m.breaks cfg = true) :
      EndsCall cfg d m ((m.sightings m').take 1) .brokenOff
  | escaped {m' : Machine} {message : String} (hs : m.step cfg = .escaped m' message) :
      EndsCall cfg d m (m.sightings m') .brokenOff
  | aborted {m' : Machine} (hs : m.step cfg = .aborted m') :
      EndsCall cfg d m (m.sightings m') .aborted

/-- The step after `n` steps of a run ends the call on top of `d` activations. -/
def CallEnds (cfg : Config) (d n : Nat) (m : Machine) (seen : List Sighting) (ending : CallEnd) :
    Prop :=
  ∃ before last, InCall cfg d n m before ∧ EndsCall cfg d (m.run cfg n).1 last ending ∧
    seen = before ++ last

theorem endsCall_of_callStep {seen : List Sighting} {ending : CallEnd}
    (h : m.callStep cfg d = (seen, .inr ending)) : EndsCall cfg d m seen ending := by
  unfold callStep at h
  split at h
  · rename_i m' hs
    split at h
    · cases h
    · rename_i hd
      split at h
      · rename_i hbreaks
        cases h
        exact .taken hs (Nat.lt_of_not_le hd) hbreaks
      · rename_i hbreaks
        cases h
        exact .ended hs (Nat.lt_of_not_le hd) (Bool.eq_false_iff.mpr hbreaks)
  · rename_i m' r hs
    split at h
    · rename_i hboth
      cases h
      exact .takenLast hs hboth.1 hboth.2
    · rename_i hno
      cases h
      exact .halted hs hno
  · rename_i hs
    cases h
    exact .escaped hs
  · rename_i hs
    cases h
    exact .aborted hs

theorem EndsCall.callStep {seen : List Sighting} {ending : CallEnd}
    (h : EndsCall cfg d m seen ending) : m.callStep cfg d = (seen, .inr ending) := by
  cases h with
  | ended hs hback hno => simp [Machine.callStep, hs, Nat.not_le_of_lt hback, hno]
  | halted hs hno => simp [Machine.callStep, hs, hno]
  | taken hs hback hbreaks => simp [Machine.callStep, hs, Nat.not_le_of_lt hback, hbreaks]
  | takenLast hs hcallee hbreaks => simp [Machine.callStep, hs, hcallee, hbreaks]
  | escaped hs => simp [Machine.callStep, hs]
  | aborted hs => simp [Machine.callStep, hs]

/-- A step that stays inside of the call. -/
theorem callStep_next (hs : m.step cfg = .next m₁) (hd : d ≤ m₁.callers.length) :
    m.callStep cfg d = (m.sightings m₁, .inl m₁) := by
  simp [callStep, hs, hd]

/-- The first step of a call that goes on for `n` steps more. -/
theorem inCall_succ_iff {seen : List Sighting} : InCall cfg d (n + 1) m seen ↔
    ∃ m₁ rest, m.callStep cfg d = (m.sightings m₁, .inl m₁) ∧ InCall cfg d n m₁ rest ∧
      seen = m.sightings m₁ ++ rest := by
  constructor
  · rintro ⟨hrun, habove, rfl⟩
    cases hs : m.step cfg with
    | next m₁ =>
      have hsucc : ∀ i, m.run cfg (i + 1) = m₁.run cfg i := fun i => by rw [run, hs]
      rw [hsucc] at hrun ⊢
      have hstart : Steps cfg m m₁ := .single hs
      have hrest : Steps cfg m₁ (m₁.run cfg n).1 := steps_of_run (Prod.ext rfl hrun)
      refine ⟨m₁, _, callStep_next hs ?_, ⟨hrun, fun i hi => ?_, rfl⟩,
        sightings_trans hstart.events hrest.events⟩
      · have hfirst := habove 0 (Nat.succ_pos n)
        rwa [hsucc] at hfirst
      · rw [← hsucc]
        exact habove (i + 1) (Nat.succ_lt_succ hi)
    | done m₁ r => simp [run, hs] at hrun
    | escaped m₁ message => simp [run, hs] at hrun
    | aborted m₁ => simp [run, hs] at hrun
  · rintro ⟨m₁, rest, hstep, ⟨hrun, habove, rfl⟩, rfl⟩
    obtain ⟨hs, hd, -⟩ := step_of_callStep hstep
    have hsucc : ∀ i, m.run cfg (i + 1) = m₁.run cfg i := fun i => by rw [run, hs]
    have hstart : Steps cfg m m₁ := .single hs
    have hrest : Steps cfg m₁ (m₁.run cfg n).1 := steps_of_run (Prod.ext rfl hrun)
    refine ⟨by rw [hsucc]; exact hrun, fun i hi => ?_, ?_⟩
    · rw [hsucc]
      cases i with
      | zero => exact hd
      | succ i => exact habove i (Nat.lt_of_succ_lt_succ hi)
    · rw [hsucc, sightings_trans hstart.events hrest.events]

/-- What is seen of a call that has not ended is what the run has delivered. -/
theorem callRun_eq_none_iff {seen : List Sighting} :
    m.callRun cfg d n = ⟨seen, none⟩ ↔ InCall cfg d n m seen := by
  induction n generalizing m seen with
  | zero =>
    constructor
    · rintro ⟨⟩
      exact ⟨rfl, fun i hi => absurd hi (Nat.not_lt_zero i), (sightings_of_silent rfl).symm⟩
    · rintro ⟨-, -, rfl⟩
      rw [callRun, run, sightings_of_silent rfl]
  | succ n ih =>
    rw [inCall_succ_iff, callRun]
    constructor
    · intro h
      split at h
      · rename_i before m₁ hstep
        obtain ⟨-, -, rfl⟩ := step_of_callStep hstep
        obtain ⟨hseen, hend⟩ := CallRun.mk.inj h
        have hrest : m₁.callRun cfg d n = ⟨(m₁.callRun cfg d n).seen, none⟩ := by rw [← hend]
        exact ⟨m₁, _, hstep, ih.mp hrest, hseen.symm⟩
      · cases h
    · rintro ⟨m₁, rest, hstep, hrest, rfl⟩
      rw [hstep]
      simp only [ih.mpr hrest]

theorem callEnds_zero_iff {seen : List Sighting} {ending : CallEnd} :
    CallEnds cfg d 0 m seen ending ↔ EndsCall cfg d m seen ending := by
  have hnone : m.sightings m = [] := sightings_of_silent rfl
  constructor
  · rintro ⟨_, last, ⟨-, -, rfl⟩, hend, rfl⟩
    rwa [run, hnone, List.nil_append]
  · intro h
    exact ⟨[], seen, ⟨rfl, fun i hi => absurd hi (Nat.not_lt_zero i), hnone.symm⟩, h, rfl⟩

/-- A call ends one step later than seen from its next state. -/
theorem callEnds_succ_iff {seen : List Sighting} {ending : CallEnd} :
    CallEnds cfg d (n + 1) m seen ending ↔
      ∃ m₁ rest, m.callStep cfg d = (m.sightings m₁, .inl m₁) ∧ CallEnds cfg d n m₁ rest ending ∧
        seen = m.sightings m₁ ++ rest := by
  have hlater : ∀ {m₁}, m.callStep cfg d = (m.sightings m₁, .inl m₁) →
      (m.run cfg (n + 1)).1 = (m₁.run cfg n).1 := by
    intro m₁ hstep
    rw [run, (step_of_callStep hstep).1]
  unfold CallEnds
  simp only [inCall_succ_iff]
  constructor
  · rintro ⟨_, last, ⟨m₁, before, hstep, hin, rfl⟩, hend, rfl⟩
    rw [hlater hstep] at hend
    exact ⟨m₁, _, hstep, ⟨before, last, hin, hend, rfl⟩, List.append_assoc _ _ _⟩
  · rintro ⟨m₁, _, hstep, ⟨before, last, hin, hend, rfl⟩, rfl⟩
    rw [← hlater hstep] at hend
    exact ⟨_, last, ⟨m₁, before, hstep, hin, rfl⟩, hend, (List.append_assoc _ _ _).symm⟩

/-- A call of which an end is seen has ended at a step of the run, in this way. -/
theorem callRun_eq_some_iff {seen : List Sighting} {ending : CallEnd} :
    m.callRun cfg d n = ⟨seen, some ending⟩ ↔ ∃ k < n, CallEnds cfg d k m seen ending := by
  induction n generalizing m seen with
  | zero =>
    constructor
    · rintro ⟨⟩
    · rintro ⟨k, hk, -⟩
      exact absurd hk (Nat.not_lt_zero k)
  | succ n ih =>
    rw [callRun]
    constructor
    · intro h
      split at h
      · rename_i before m₁ hstep
        obtain ⟨-, -, rfl⟩ := step_of_callStep hstep
        obtain ⟨hseen, hend⟩ := CallRun.mk.inj h
        have hrest : m₁.callRun cfg d n = ⟨(m₁.callRun cfg d n).seen, some ending⟩ := by
          rw [← hend]
        obtain ⟨k, hk, hends⟩ := ih.mp hrest
        exact ⟨k + 1, Nat.succ_lt_succ hk, callEnds_succ_iff.mpr ⟨m₁, _, hstep, hends, hseen.symm⟩⟩
      · rename_i last ending' hstep
        cases h
        exact ⟨0, Nat.succ_pos n, callEnds_zero_iff.mpr (endsCall_of_callStep hstep)⟩
    · rintro ⟨k, hk, hends⟩
      cases k with
      | zero => rw [(callEnds_zero_iff.mp hends).callStep]
      | succ k =>
        obtain ⟨m₁, rest, hstep, hrest, rfl⟩ := callEnds_succ_iff.mp hends
        rw [hstep]
        simp only [ih.mpr ⟨k, Nat.lt_of_succ_lt_succ hk, hrest⟩]

/-- What is seen of a call in any number of steps says which steps end it, and how. -/
theorem callEnds_iff {seen : List Sighting} {ending : CallEnd} :
    CallEnds cfg d n m seen ending ↔
      (m.callRun cfg d n).ending = none ∧ m.callRun cfg d (n + 1) = ⟨seen, some ending⟩ := by
  constructor
  · intro h
    refine ⟨?_, callRun_eq_some_iff.mpr ⟨n, Nat.lt_succ_self n, h⟩⟩
    obtain ⟨before, last, hin, -⟩ := h
    rw [callRun_eq_none_iff.mpr hin]
  · rintro ⟨hnone, hsome⟩
    obtain ⟨k, hk, hends⟩ := callRun_eq_some_iff.mp hsome
    -- it has not ended earlier
    rcases Nat.lt_or_eq_of_le (Nat.le_of_lt_succ hk) with hlt | rfl
    · rw [callRun_eq_some_iff.mpr ⟨k, hlt, hends⟩] at hnone
      cases hnone
    · exact hends

end Inside

/-! ## Two calls of one procedure -/

/-- Two stacks that are twins down to the callee at the bottom, with `base` and `base'` below. -/
inductive StackTwin (ρ : Nat → Nat) (D : Set Nat) (base base' : List Activation) :
    List Activation → List Activation → Prop where
  /-- the callee itself is running; the variables for its result need not be the same -/
  | callee {a b : Activation} (h : a.Twin ρ D b) : StackTwin ρ D base base' (a :: base) (b :: base')
  | inner {a b : Activation} {as bs : List Activation} (h : a.Twin ρ D b)
      (hresult : b.result = a.result) (hrest : StackTwin ρ D base base' as bs) :
      StackTwin ρ D base base' (a :: as) (b :: bs)

section StackTwin

variable {ρ ρ' : Nat → Nat} {D D' : Set Nat} {base base' as bs : List Activation}
  {a b a' b' : Activation} {s t s' t' : Store}

theorem StackTwin.grow (h : StackTwin ρ D base base' as bs)
    (hg : Store.Grows ρ D s t ρ' D' s' t') : StackTwin ρ' D' base base' as bs := by
  induction h with
  | callee h => exact .callee (h.grow hg)
  | inner h hresult _ ih => exact .inner (h.grow hg) hresult ih

theorem StackTwin.head (h : StackTwin ρ D base base' (a :: as) (b :: bs)) : a.Twin ρ D b := by
  cases h with
  | callee h => exact h
  | inner h => exact h

theorem StackTwin.exists_cons (h : StackTwin ρ D base base' as bs) :
    ∃ x xs y ys, as = x :: xs ∧ bs = y :: ys := by
  cases h <;> exact ⟨_, _, _, _, rfl, rfl⟩

/-- The running activations may be replaced by other twins. -/
theorem StackTwin.replace (h : StackTwin ρ D base base' (a :: as) (b :: bs))
    (h' : a'.Twin ρ D b') (ha : a'.result = a.result) (hb : b'.result = b.result) :
    StackTwin ρ D base base' (a' :: as) (b' :: bs) := by
  cases h with
  | callee _ => exact .callee h'
  | inner _ hresult hrest =>
    refine .inner h' ?_ hrest
    rw [ha, hb, hresult]

/-- The stack is at least as high as what is below the callee, and a little more. -/
theorem StackTwin.length_lt (h : StackTwin ρ D base base' as bs) :
    base.length < as.length ∧ base'.length < bs.length := by
  induction h with
  | callee _ => simp
  | inner _ _ _ ih =>
    simp only [List.length_cons]
    omega

end StackTwin

/-- Two runs have the same options, and their receivers will behave in the same way. -/
structure SameOptions (cfg cfg' : Config) (m m' : Machine) : Prop where
  halt : cfg'.halt = cfg.halt
  maxDepth : cfg'.maxDepth = cfg.maxDepth
  strict : cfg'.strict = cfg.strict
  sinkFails : ∀ k, cfg'.sinkFails (m'.delivered + k) = cfg.sinkFails (m.delivered + k)
  sinkMessage : ∀ k, cfg'.sinkMessage (m'.delivered + k) = cfg.sinkMessage (m.delivered + k)

/-- Two calls that cannot be told apart. -/
structure Twins (cfg cfg' : Config) (ρ : Nat → Nat) (D : Set Nat) (base base' : List Activation)
    (m m' : Machine) : Prop where
  options : SameOptions cfg cfg' m m'
  store : m.store.Renames ρ D m'.store
  stack : StackTwin ρ D base base' m.activations m'.activations

/-- Two steps of calls that lead on to calls that cannot be told apart, or end alike. -/
inductive StepTwins (cfg cfg' : Config) (base base' : List Activation) :
    List Sighting × (Machine ⊕ CallEnd) → List Sighting × (Machine ⊕ CallEnd) → Prop where
  | next {ρ : Nat → Nat} {D : Set Nat} {seen : List Sighting} {m m' : Machine}
      (h : Twins cfg cfg' ρ D base base' m m') :
      StepTwins cfg cfg' base base' (seen, .inl m) (seen, .inl m')
  | finish (seen : List Sighting) (ending : CallEnd) :
      StepTwins cfg cfg' base base' (seen, .inr ending) (seen, .inr ending)

section Steps

variable {cfg cfg' : Config} {ρ ρ' : Nat → Nat} {D D' : Set Nat} {base base' : List Activation}
  {m m' m₁ m₁' : Machine} {l : Line}

theorem SameOptions.congr (h : SameOptions cfg cfg' m m') (hm : m₁.delivered = m.delivered)
    (hm' : m₁'.delivered = m'.delivered) : SameOptions cfg cfg' m₁ m₁' := by
  refine ⟨h.halt, h.maxDepth, h.strict, ?_, ?_⟩
  · rw [hm, hm']
    exact h.sinkFails
  · rw [hm, hm']
    exact h.sinkMessage

/-- A record more has been delivered in both. -/
theorem SameOptions.succ (h : SameOptions cfg cfg' m m') (hm : m₁.delivered = m.delivered + 1)
    (hm' : m₁'.delivered = m'.delivered + 1) : SameOptions cfg cfg' m₁ m₁' := by
  refine ⟨h.halt, h.maxDepth, h.strict, ?_, ?_⟩
  · intro k
    rw [hm, hm', Nat.add_assoc, Nat.add_assoc]
    exact h.sinkFails (1 + k)
  · intro k
    rw [hm, hm', Nat.add_assoc, Nat.add_assoc]
    exact h.sinkMessage (1 + k)

/-- A step that gives back to the caller. -/
theorem callStep_back {d : Nat} (hs : m.step cfg = .next m₁) (hd : m₁.callers.length < d)
    (hno : m.breaks cfg = false) (hsilent : m₁.events = m.events) :
    m.callStep cfg d = ([], .inr (.ended ((m.returned? cfg).map m.store.content))) := by
  simp [callStep, hs, Nat.not_le_of_lt hd, hno, sightings_of_silent hsilent]

/-- A step in which the receiver fails, and the caller takes the failure. -/
theorem callStep_breaks {d : Nat} (hs : m.step cfg = .next m₁) (hd : m₁.callers.length < d)
    (hbreaks : m.breaks cfg = true) :
    m.callStep cfg d = ((m.sightings m₁).take 1, .inr .brokenOff) := by
  simp [callStep, hs, Nat.not_le_of_lt hd, hbreaks]

/-- A step that halts the run, other than by a fault of the caller. -/
theorem callStep_done {d : Nat} {r : Result} (hs : m.step cfg = .done m₁ r)
    (hno : m.callers.length = d → m.breaks cfg = false) :
    m.callStep cfg d = (m.sightings m₁, .inr (.halted r.fault)) := by
  have hif : ¬ (m.callers.length = d ∧ m.breaks cfg = true) := by
    rintro ⟨hd, hb⟩
    rw [hno hd] at hb
    cases hb
  simp [callStep, hs, hif]

theorem callStep_escaped {d : Nat} {message : String} (hs : m.step cfg = .escaped m₁ message) :
    m.callStep cfg d = (m.sightings m₁, .inr .brokenOff) := by
  simp [callStep, hs]

/-- Steps that leave those who wait alone, and put twins in the place of the running ones. -/
theorem Twins.stay (h : Twins cfg cfg' ρ D base base' m m') (hs : m.step cfg = .next m₁)
    (hs' : m'.step cfg' = .next m₁')
    (hg : Store.Grows ρ D m.store m'.store ρ' D' m₁.store m₁'.store)
    (hr : m₁.store.Renames ρ' D' m₁'.store) (htwin : m₁.current.Twin ρ' D' m₁'.current)
    (hc : m₁.callers = m.callers) (hc' : m₁'.callers = m'.callers)
    (hres : m₁.current.result = m.current.result)
    (hres' : m₁'.current.result = m'.current.result) (hopt : SameOptions cfg cfg' m₁ m₁')
    (hseen : m.sightings m₁ = m'.sightings m₁') :
    StepTwins cfg cfg' base base' (m.callStep cfg base.length) (m'.callStep cfg' base'.length) := by
  have hlen := h.stack.length_lt
  simp only [activations, List.length_cons] at hlen
  rw [callStep_next hs (by rw [hc]; omega), callStep_next hs' (by rw [hc']; omega), hseen]
  refine .next ⟨hopt, hr, ?_⟩
  unfold activations
  rw [hc, hc']
  exact (h.stack.grow hg).replace htwin hres hres'

/-- The end of an activation: of the callee itself, or of one that it has called. -/
theorem Twins.leave (h : Twins cfg cfg' ρ D base base' m m') (hbase : base ≠ [])
    (hbase' : base' ≠ []) {v : Option Value} (hv : ∀ w ∈ v, w.Within D)
    (hs : m.step cfg = m.leave v) (hs' : m'.step cfg' = m'.leave (v.map (Value.rename ρ)))
    (hret : m.returned? cfg = v) (hret' : m'.returned? cfg' = v.map (Value.rename ρ))
    (hno : m.breaks cfg = false) (hno' : m'.breaks cfg' = false) :
    StepTwins cfg cfg' base base' (m.callStep cfg base.length) (m'.callStep cfg' base'.length) := by
  have hstack : StackTwin ρ D base base' (m.current :: m.callers) (m'.current :: m'.callers) :=
    h.stack
  generalize hc : m.callers = callers at hstack
  generalize hc' : m'.callers = callers' at hstack
  cases hstack with
  | callee _ =>
    obtain ⟨c, rest, rfl⟩ := List.exists_cons_of_ne_nil hbase
    obtain ⟨c', rest', rfl⟩ := List.exists_cons_of_ne_nil hbase'
    have hcontent : (v.map (Value.rename ρ)).map m'.store.content = v.map m.store.content := by
      cases v with
      | none => rfl
      | some v => simp [h.store.content (hv v rfl)]
    simp only [Machine.leave, hc, hc'] at hs hs'
    rw [callStep_back hs (by simp) hno rfl, callStep_back hs' (by simp) hno' rfl, hret, hret',
      hcontent]
    exact .finish _ _
  | @inner _ _ as bs _ hresult hrest =>
    obtain ⟨x, xs, y, ys, rfl, rfl⟩ := hrest.exists_cons
    have hlen := hrest.length_lt
    simp only [List.length_cons] at hlen
    simp only [Machine.leave, hc, hc'] at hs hs'
    rw [callStep_next hs (Nat.le_of_lt_succ hlen.1), callStep_next hs' (Nat.le_of_lt_succ hlen.2),
      sightings_of_silent (by rfl), sightings_of_silent (by rfl)]
    refine .next ⟨h.options.congr rfl rfl, h.store, ?_⟩
    refine hrest.replace ?_ (Activation.continues_resume x _ _).result
      (Activation.continues_resume y _ _).result
    rw [hresult]
    exact hrest.head.resume m.current.result hv

theorem breaks_of_effect (hl : m.At l) {a : Activation} {s : Store} {sig : Signal}
    (he : m.effect cfg l = .signal a s sig) :
    m.breaks cfg =
      match sig with
      | .print _ _ => cfg.sinkFails (m.delivered + 1)
      | _ => false := by
  simp only [breaks, hl.line, hl.quiet, he]
  cases sig <;> rfl

theorem returned?_of_effect (hl : m.At l) {a : Activation} {s : Store} {v : Value}
    (he : m.effect cfg l = .signal a s (.ret v)) : m.returned? cfg = some v := by
  simp [returned?, hl.line, hl.quiet, he]

/-- A failure of the receiver in the callee itself breaks the call off, in any of its ways. -/
theorem callStep_broken {v : Value} {line : Int} (hbase : base ≠ []) (hc : m.callers = base)
    (hl : m.At l) (he : m.effect cfg l = .signal m.current m.store (.print v line))
    (hsink : cfg.sinkFails (m.delivered + 1) = true) :
    m.callStep cfg base.length = ([m.recordSighting v line], .inr .brokenOff) := by
  obtain ⟨c, rest, rfl⟩ := List.exists_cons_of_ne_nil hbase
  have hs := step_of_print_fails hl he hsink hc
  have hbreaks : m.breaks cfg = true := by rw [breaks_of_effect hl he, hsink]
  cases hstrict : cfg.strict with
  | true =>
    rw [hstrict, if_pos rfl] at hs
    rw [callStep_escaped hs, sightings_of_print (by rfl)]
  | false =>
    rw [hstrict] at hs
    cases hhalt : cfg.halt with
    | true =>
      simp only [raise, hhalt, if_true, Bool.false_eq_true, if_false] at hs
      simp only [callStep, hs, hbreaks, hc, and_self, if_true]
      rw [sightings_of_print_fault (by rfl)]
      rfl
    | false =>
      simp only [raise, hhalt, Bool.false_eq_true, if_false] at hs
      rw [callStep_breaks (d := (c :: rest).length) hs (Nat.lt_succ_self rest.length) hbreaks,
        sightings_of_print_fault (by rfl)]
      rfl

/-- A failure of the receiver further up is a fault of a caller that belongs to the call itself. -/
theorem Twins.print_fails (h : Twins cfg cfg' ρ D base base' m m') {v w : Value} {line : Int}
    {x y : Activation} {xs ys : List Activation} (hl : m.At l) (hl' : m'.At l)
    (he : m.effect cfg l = .signal m.current m.store (.print v line))
    (he' : m'.effect cfg' l = .signal m'.current m'.store (.print w line))
    (hsink : cfg.sinkFails (m.delivered + 1) = true)
    (hsink' : cfg'.sinkFails (m'.delivered + 1) = true) (hc : m.callers = x :: xs)
    (hc' : m'.callers = y :: ys) (hrest : StackTwin ρ D base base' (x :: xs) (y :: ys))
    (hrecord : m'.recordSighting w line = m.recordSighting v line) :
    StepTwins cfg cfg' base base' (m.callStep cfg base.length) (m'.callStep cfg' base'.length) := by
  have hlen := hrest.length_lt
  simp only [List.length_cons] at hlen
  have hs := step_of_print_fails hl he hsink hc
  have hs' := step_of_print_fails hl' he' hsink' hc'
  rw [h.options.strict, h.options.sinkMessage 1] at hs'
  have hfault : ∀ c, faultOf ((m'.printed w line).backTo y ys) c =
      faultOf ((m.printed v line).backTo x xs) c := by
    simp [faultOf, backTo, hrest.head.pc, hrest.head.name]
  have hhigh : m.callers.length ≠ base.length := by
    rw [hc, List.length_cons]
    omega
  have hhigh' : m'.callers.length ≠ base'.length := by
    rw [hc', List.length_cons]
    omega
  cases hstrict : cfg.strict with
  | true =>
    rw [hstrict, if_pos rfl] at hs hs'
    rw [callStep_escaped hs, callStep_escaped hs', sightings_of_print (by rfl),
      sightings_of_print (by rfl), hrecord]
    exact .finish _ _
  | false =>
    rw [hstrict] at hs hs'
    cases hhalt : cfg.halt with
    | true =>
      simp only [raise_eq, h.options.halt, hhalt, if_true, Bool.false_eq_true, if_false] at hs hs'
      rw [callStep_done hs fun hd => absurd hd hhigh,
        callStep_done hs' fun hd => absurd hd hhigh', sightings_of_print_fault (by rfl),
        sightings_of_print_fault (by rfl), hrecord]
      rw [hfault]
      exact .finish _ _
    | false =>
      simp only [raise_eq, h.options.halt, hhalt, Bool.false_eq_true, if_false] at hs hs'
      rw [callStep_next hs (Nat.le_of_lt_succ hlen.1),
        callStep_next hs' (Nat.le_of_lt_succ hlen.2), sightings_of_print_fault (by rfl),
        sightings_of_print_fault (by rfl), hrecord]
      rw [hfault]
      refine .next ⟨h.options.succ rfl rfl, h.store, ?_⟩
      exact hrest.replace hrest.head.advance rfl rfl

/-- A record is seen alike in both, whether the receiver fails at it or not. -/
theorem Twins.print (h : Twins cfg cfg' ρ D base base' m m') (hbase : base ≠ [])
    (hbase' : base' ≠ []) {v : Value} {line : Int} (hv : v.Within D) (hl : m.At l) (hl' : m'.At l)
    (he : m.effect cfg l = .signal m.current m.store (.print v line))
    (he' : m'.effect cfg' l = .signal m'.current m'.store (.print (v.rename ρ) line)) :
    StepTwins cfg cfg' base base' (m.callStep cfg base.length) (m'.callStep cfg' base'.length) := by
  have hstack : StackTwin ρ D base base' (m.current :: m.callers) (m'.current :: m'.callers) :=
    h.stack
  have hsame := h.options.sinkFails 1
  have hrecord : m'.recordSighting (v.rename ρ) line = m.recordSighting v line := by
    simp [recordSighting, h.store.text? hv, hstack.head.name]
  cases hsink : cfg.sinkFails (m.delivered + 1) with
  | false =>
    rw [hsink] at hsame
    refine h.stay (step_of_print hl he hsink) (step_of_print hl' he' hsame) (.refl ρ D _ _) h.store
      hstack.head.advance rfl rfl rfl rfl (h.options.succ rfl rfl) ?_
    rw [sightings_of_print (by rfl), sightings_of_print (by rfl), hrecord]
  | true =>
    rw [hsink] at hsame
    generalize hc : m.callers = callers at hstack
    generalize hc' : m'.callers = callers' at hstack
    cases hstack with
    | callee _ =>
      rw [callStep_broken hbase hc hl he hsink, callStep_broken hbase' hc' hl' he' hsame, hrecord]
      exact .finish _ _
    | inner _ _ hrest =>
      obtain ⟨x, xs, y, ys, rfl, rfl⟩ := hrest.exists_cons
      exact h.print_fails hl hl' he he' hsink hsame hc hc' hrest hrecord

/-- A fault is the same in both, and halts both or none. -/
theorem Twins.fault (h : Twins cfg cfg' ρ D base base' m m') {c : Cause} (hl : m.At l)
    (hl' : m'.At l) (he : m.effect cfg l = .signal m.current m.store (.fault c))
    (he' : m'.effect cfg' l = .signal m'.current m'.store (.fault c)) :
    StepTwins cfg cfg' base base' (m.callStep cfg base.length) (m'.callStep cfg' base'.length) := by
  have htwin : m.current.Twin ρ D m'.current := h.stack.head
  have hfault : m'.faultOf c = m.faultOf c := by simp [faultOf, htwin.pc, htwin.name]
  have hs := step_of_fault hl he
  have hs' := step_of_fault hl' he'
  rw [h.options.halt, hfault] at hs'
  cases hhalt : cfg.halt with
  | true =>
    rw [hhalt, if_pos rfl] at hs hs'
    rw [callStep_done hs fun _ => breaks_of_effect hl he,
      callStep_done hs' fun _ => breaks_of_effect hl' he', sightings_of_fault (by rfl),
      sightings_of_fault (by rfl)]
    exact .finish _ _
  | false =>
    simp only [hhalt, Bool.false_eq_true, if_false] at hs hs'
    refine h.stay hs hs' (.refl ρ D _ _) h.store htwin.advance rfl rfl rfl rfl
      (h.options.congr rfl rfl) ?_
    rw [sightings_of_fault (by rfl), sightings_of_fault (by rfl)]

/-- A call is made alike. -/
theorem Twins.enter (h : Twins cfg cfg' ρ D base base' m m') {a b callee callee' : Activation}
    (hl : m.At l) (hl' : m'.At l) (he : m.effect cfg l = .enter a callee)
    (he' : m'.effect cfg' l = .enter b callee') (hwait : a.Twin ρ D b)
    (hcallee : callee.Twin ρ D callee') (hresult : callee'.result = callee.result) :
    StepTwins cfg cfg' base base' (m.callStep cfg base.length) (m'.callStep cfg' base'.length) := by
  have hlen := h.stack.length_lt
  simp only [activations, List.length_cons] at hlen
  have hs : m.step cfg = .next { m with current := callee, callers := a :: m.callers } := by
    rw [step_at cfg hl, he]
  have hs' : m'.step cfg' = .next { m' with current := callee', callers := b :: m'.callers } := by
    rw [step_at cfg' hl', he']
  have ha : a.result = m.current.result := by
    cases does_of_effect he with
    | call => rfl
  have hb : b.result = m'.current.result := by
    cases does_of_effect he' with
    | call => rfl
  rw [callStep_next hs (by simp only [List.length_cons]; omega),
    callStep_next hs' (by simp only [List.length_cons]; omega), sightings_of_silent (by rfl),
    sightings_of_silent (by rfl)]
  refine .next ⟨h.options.congr rfl rfl, h.store, ?_⟩
  exact .inner hcallee hresult (h.stack.replace hwait ha hb)

/-- A line that changes its activation or the store changes twins alike. -/
theorem Twins.quiet (h : Twins cfg cfg' ρ D base base' m m') {a b : Activation} {s t : Store}
    (hl : m.At l) (hl' : m'.At l) (he : m.effect cfg l = .signal a s .next)
    (he' : m'.effect cfg' l = .signal b t .next)
    (hg : Store.Grows ρ D m.store m'.store ρ' D' s t) (hr : s.Renames ρ' D' t)
    (htwin : a.Twin ρ' D' b) :
    StepTwins cfg cfg' base base' (m.callStep cfg base.length) (m'.callStep cfg' base'.length) := by
  have hs : m.step cfg = .next { m with current := a.advance, store := s } := by
    rw [step_at cfg hl, he]
    rfl
  have hs' : m'.step cfg' = .next { m' with current := b.advance, store := t } := by
    rw [step_at cfg' hl', he']
    rfl
  refine h.stay hs hs' hg hr htwin.advance rfl rfl (does_of_effect he).continues.result
    (does_of_effect he').continues.result (h.options.congr rfl rfl) ?_
  rw [sightings_of_silent (by rfl), sightings_of_silent (by rfl)]

theorem Twins.jump (h : Twins cfg cfg' ρ D base base' m m') {position : Nat}
    (hl : m.At l) (hl' : m'.At l)
    (he : m.effect cfg l = .signal m.current m.store (.jump position))
    (he' : m'.effect cfg' l = .signal m'.current m'.store (.jump position)) :
    StepTwins cfg cfg' base base' (m.callStep cfg base.length) (m'.callStep cfg' base'.length) := by
  have htwin : m.current.Twin ρ D m'.current := h.stack.head
  have hs : m.step cfg = .next { m with current := { m.current with pc := position } } := by
    rw [step_at cfg hl, he]
    rfl
  have hs' : m'.step cfg' = .next { m' with current := { m'.current with pc := position } } := by
    rw [step_at cfg' hl', he']
    rfl
  refine h.stay hs hs' (.refl ρ D _ _) h.store (htwin.withPc position) rfl rfl rfl rfl
    (h.options.congr rfl rfl) ?_
  rw [sightings_of_silent (by rfl), sightings_of_silent (by rfl)]

/-- A line that is recorded is recorded in both. -/
theorem Twins.record (h : Twins cfg cfg' ρ D base base' m m') {r : Recording}
    (hp : m.current.program[m.current.pc]? = some l)
    (hp' : m'.current.program[m'.current.pc]? = some l) (hr : m.current.recording = some r)
    (hr' : m'.current.recording = some r) :
    StepTwins cfg cfg' base base' (m.callStep cfg base.length) (m'.callStep cfg' base'.length) := by
  have htwin : m.current.Twin ρ D m'.current := h.stack.head
  have hs : m.step cfg = .next { m with current := (m.current.record r l).advance } := by
    simp only [step, hp, stepLine, hr]
  have hs' : m'.step cfg' = .next { m' with current := (m'.current.record r l).advance } := by
    simp only [step, hp', stepLine, hr']
  refine h.stay hs hs' (.refl ρ D _ _) h.store (htwin.record r l).advance rfl rfl
    (Activation.continues_record m.current r).result
    (Activation.continues_record m'.current r).result (h.options.congr rfl rfl) ?_
  rw [sightings_of_silent (by rfl), sightings_of_silent (by rfl)]

/-- A signal other than to go on leaves both as they are. -/
theorem Twins.of_signal (h : Twins cfg cfg' ρ D base base' m m') {a b : Activation} {s t : Store}
    {sig sig' : Signal} (he : m.effect cfg l = .signal a s sig)
    (he' : m'.effect cfg' l = .signal b t sig') (hsig : sig ≠ .next) (hsig' : sig' ≠ .next)
    (hg : Store.Grows ρ D m.store m'.store ρ' D' s t) (hr : s.Renames ρ' D' t) :
    Twins cfg cfg' ρ' D' base base' m m' ∧ m.effect cfg l = .signal m.current m.store sig ∧
      m'.effect cfg' l = .signal m'.current m'.store sig' := by
  obtain ⟨rfl, rfl⟩ := eq_of_signal he hsig
  obtain ⟨rfl, rfl⟩ := eq_of_signal he' hsig'
  exact ⟨⟨h.options, hr, h.stack.grow hg⟩, he, he'⟩

/-- A line is carried out alike. -/
theorem Twins.line (h : Twins cfg cfg' ρ D base base' m m') (hbase : base ≠ [])
    (hbase' : base' ≠ []) (hl : m.At l) (hl' : m'.At l) :
    StepTwins cfg cfg' base base' (m.callStep cfg base.length) (m'.callStep cfg' base'.length) := by
  have halike : Effect.Alike ρ D m.store m'.store (m.effect cfg l) (m'.effect cfg' l) := by
    unfold effect
    rw [h.options.maxDepth]
    exact Activation.alike_effect h.stack.head h.store l
  generalize he : m.effect cfg l = e at halike
  generalize he' : m'.effect cfg' l = e' at halike
  cases halike with
  | overflow =>
    have hs : m.step cfg = .aborted m := by rw [step_at cfg hl, he]
    have hs' : m'.step cfg' = .aborted m' := by rw [step_at cfg' hl', he']
    simp only [Machine.callStep, hs, hs']
    rw [sightings_of_silent rfl, sightings_of_silent rfl]
    exact .finish _ _
  | enter hwait hcallee hresult => exact h.enter hl hl' he he' hwait hcallee hresult
  | @signal ρ' D' a b s t sig hg hr htwin hsig =>
    cases sig with
    | next => exact h.quiet hl hl' he he' hg hr htwin
    | jump position =>
      obtain ⟨h, he, he'⟩ := h.of_signal he he' (by simp) (by simp [Signal.rename]) hg hr
      exact h.jump hl hl' he he'
    | fault c =>
      obtain ⟨h, he, he'⟩ := h.of_signal he he' (by simp) (by simp [Signal.rename]) hg hr
      exact h.fault hl hl' he he'
    | print v line =>
      obtain ⟨h, he, he'⟩ := h.of_signal he he' (by simp) (by simp [Signal.rename]) hg hr
      exact h.print hbase hbase' hsig hl hl' he he'
    | ret v =>
      obtain ⟨h, he, he'⟩ := h.of_signal he he' (by simp) (by simp [Signal.rename]) hg hr
      refine h.leave hbase hbase' (v := some v) ?_ ?_ ?_ (returned?_of_effect hl he)
        (returned?_of_effect hl' he') (breaks_of_effect hl he) (breaks_of_effect hl' he')
      · rintro w ⟨⟩
        exact hsig
      · rw [step_at cfg hl, he]
        rfl
      · rw [step_at cfg' hl', he']
        rfl

/-- Two calls that cannot be told apart take the same step. -/
theorem Twins.callStep (h : Twins cfg cfg' ρ D base base' m m') (hbase : base ≠ [])
    (hbase' : base' ≠ []) :
    StepTwins cfg cfg' base base' (m.callStep cfg base.length) (m'.callStep cfg' base'.length) := by
  have htwin : m.current.Twin ρ D m'.current := h.stack.head
  have hline : m'.current.program[m'.current.pc]? = m.current.program[m.current.pc]? := by
    rw [htwin.program, htwin.pc]
  cases hp : m.current.program[m.current.pc]? with
  | none =>
    have hp' := hline.trans hp
    refine h.leave hbase hbase' (v := none) (by simp) ?_ ?_ ?_ ?_ ?_ ?_
    · simp [step, hp]
    · simp [step, hp']
    · simp [returned?, hp]
    · simp [returned?, hp']
    · simp [breaks, hp]
    · simp [breaks, hp']
  | some l =>
    cases hr : m.current.recording with
    | some r => exact h.record hp (hline.trans hp) hr (htwin.recording.trans hr)
    | none =>
      exact h.line hbase hbase' ⟨hp, hr⟩ ⟨hline.trans hp, htwin.recording.trans hr⟩

/-- Two calls that cannot be told apart are seen alike in any number of steps. -/
theorem Twins.callRun (h : Twins cfg cfg' ρ D base base' m m') (hbase : base ≠ [])
    (hbase' : base' ≠ []) (n : Nat) :
    m.callRun cfg base.length n = m'.callRun cfg' base'.length n := by
  induction n generalizing m m' ρ D with
  | zero => rfl
  | succ n ih =>
    have hstep := h.callStep hbase hbase'
    simp only [Machine.callRun]
    generalize m.callStep cfg base.length = o at hstep
    generalize m'.callStep cfg' base'.length = o' at hstep
    cases hstep with
    | next h => simp only [ih h]
    | finish => rfl

end Steps

/-! ## Calls with equal arguments -/

section Calls

variable {cfg : Config} {m m₁ m₂ m₁' m₂' : Machine} {p : Procedure} {home home₁ home₂ : List Scope}

/-- The step of `m` calls the procedure `p` with the given home, the call passes all checks, and
`m₁` is in front of its first line. -/
structure Begins (cfg : Config) (m : Machine) (p : Procedure) (home : List Scope) (m₁ : Machine) :
    Prop where
  step : m.step cfg = .next m₁
  deeper : m.callers.length < m₁.callers.length
  calls : ∃ result, m.Calls p home result

theorem Begins.enters (h : m.Begins cfg p home m₁) : ∃ result, m.Enters p home result m₁ := by
  obtain ⟨p', home', result', henter⟩ := enters_of_step h.step h.deeper
  obtain ⟨_, ⟨hl, hcore, hp⟩⟩ := h.calls
  obtain ⟨⟨hl', hcore', hp'⟩, henough, hstate⟩ := henter
  -- a line makes one call
  obtain rfl := Option.some.inj (hl.line.symm.trans hl'.line)
  cases hcore.symm.trans hcore'
  cases hp.symm.trans hp'
  exact ⟨_, .intro hl hcore hp, henough, hstate⟩

/-- The procedure that the running line calls, and its home. -/
def callee? (m : Machine) : Option (Procedure × List Scope) :=
  match m.current.program[m.current.pc]?, m.current.recording with
  | some l, none =>
    match l.core? with
    | some (.call proc _ _) => Scope.resolve? proc m.current.scopes
    | _ => none
  | _, _ => none

theorem calls_of_callee? (h : m.callee? = some (p, home)) : ∃ result, m.Calls p home result := by
  unfold callee? at h
  split at h
  · rename_i l hl hrec
    split at h
    · rename_i hcore
      exact ⟨_, .intro ⟨hl, hrec⟩ hcore h⟩
    · cases h
  · cases h

/-- The arguments of a call. -/
def args (m : Machine) (p : Procedure) : List Value := m.current.params.values.take p.arity.toNat

/-- Arguments are copies that nobody has written to, and share nothing. -/
theorem Copied.args (h : m.Copied) (p : Procedure) :
    (∀ v ∈ m.args p, m.store.Copied v) ∧ (m.args p).Pairwise fun v w =>
      Disjoint (m.store.footprint [v]) (m.store.footprint [w]) := by
  have hmem : m.current ∈ m.activations := List.mem_cons_self
  refine ⟨fun v hv => h.params m.current hmem v (List.mem_of_mem_take hv), ?_⟩
  exact (h.separated.isolated.params m.current hmem).sublist (List.take_sublist _ _)

/-- Two calls of one procedure with arguments of equal content begin as twins. -/
theorem twins_of_begins {cfg cfg' : Config} (hm₁ : m₁.Copied) (hm₂ : m₂.Copied)
    (hopt : SameOptions cfg cfg' m₁ m₂)
    (hdepth : m₂.current.frame.depth = m₁.current.frame.depth)
    (hb₁ : m₁.Begins cfg p home₁ m₁') (hb₂ : m₂.Begins cfg' p home₂ m₂')
    (hhome : List.Forall₂ Scope.Same home₁ home₂)
    (hargs : (m₁.args p).map m₁.store.content = (m₂.args p).map m₂.store.content) :
    ∃ ρ D, Twins cfg cfg' ρ D (m₁.current.waiting p :: m₁.callers)
      (m₂.current.waiting p :: m₂.callers) m₁' m₂' := by
  obtain ⟨hcopied₁, hapart₁⟩ := hm₁.args p
  obtain ⟨hcopied₂, hapart₂⟩ := hm₂.args p
  obtain ⟨ρ, D, hr, heq, hwithin, -⟩ :=
    Store.renames_args hcopied₁ hcopied₂ hargs hapart₁ hapart₂
  obtain ⟨result₁, -, -, rfl⟩ := hb₁.enters
  obtain ⟨result₂, -, -, rfl⟩ := hb₂.enters
  refine ⟨ρ, D, hopt.congr rfl rfl, hr, .callee ?_⟩
  have htwin : (Activation.ofCall (m₁.current.frame.depth + 1) p home₁ (m₁.args p) result₁).Twin ρ D
      (Activation.ofCall (m₂.current.frame.depth + 1) p home₂ (m₂.args p) result₂) := by
    rw [hdepth, heq]
    exact Activation.twin_ofCall p hhome hwithin
  exact htwin

end Calls

/-- A callee cannot see its caller.  Two calls of one procedure, at the same depth and with the same
options, from any two states of any two sessions, are seen alike in any number of steps, if the
procedure is at home in scopes of the same content and the arguments have the same content: they
deliver the same records, as far as text, line and procedure go, and the same faults, and neither
has ended, or both have ended, with values of the same content or without one, or both have been
halted by the same fault.  So after the same numbers of steps of the two runs the calls have not
ended and the runs have delivered the same since they began, or they end in the same way.  Whatever
else there is in the states of the callers does not matter. -/
theorem callee_cannot_see_caller {e₁ e₂ : Engine} {m₁ m₂ m₁' m₂' : Machine} {p : Procedure}
    {home₁ home₂ : List Scope} (he₁ : e₁.Session) (he₂ : e₂.Session) (hm₁ : e₁.Reached m₁)
    (hm₂ : e₂.Reached m₂) (hopt : SameOptions e₁.config e₂.config m₁ m₂)
    (hdepth : m₂.current.frame.depth = m₁.current.frame.depth)
    (hb₁ : m₁.Begins e₁.config p home₁ m₁') (hb₂ : m₂.Begins e₂.config p home₂ m₂')
    (hhome : List.Forall₂ Scope.Same home₁ home₂)
    (hargs : (m₁.args p).map m₁.store.content = (m₂.args p).map m₂.store.content) (n : Nat) :
    m₁'.callRun e₁.config (m₁.callers.length + 1) n =
        m₂'.callRun e₂.config (m₂.callers.length + 1) n ∧
      (∀ seen, InCall e₁.config (m₁.callers.length + 1) n m₁' seen ↔
        InCall e₂.config (m₂.callers.length + 1) n m₂' seen) ∧
      ∀ seen ending, CallEnds e₁.config (m₁.callers.length + 1) n m₁' seen ending ↔
        CallEnds e₂.config (m₂.callers.length + 1) n m₂' seen ending := by
  obtain ⟨ρ, D, htwins⟩ := twins_of_begins (copied_kept.reached he₁ hm₁)
    (copied_kept.reached he₂ hm₂) hopt hdepth hb₁ hb₂ hhome hargs
  have hsame : ∀ n, m₁'.callRun e₁.config (m₁.callers.length + 1) n =
      m₂'.callRun e₂.config (m₂.callers.length + 1) n :=
    htwins.callRun (by simp) (by simp)
  refine ⟨hsame n, fun seen => ?_, fun seen ending => ?_⟩
  · rw [← callRun_eq_none_iff, ← callRun_eq_none_iff, hsame]
  · rw [callEnds_iff, callEnds_iff, hsame, hsame]

/-- A procedure that looks for a variable of its caller, and writes to its argument. -/
def prying : Procedure :=
  ⟨"f", 1, Program.ofStrings ["print b", "p0[0] = 7", "print p0", "return p0"]⟩

/-- Two procedures that call `prying`.  The second has the variable that is looked for, another
array, one parameter more, a procedure of its own and a variable for the result. -/
def twoCallers : Program := .ofStrings
  ["BeginFunc f, 1", "print b", "p0[0] = 7", "print p0", "return p0", "EndFunc",
    "BeginFunc g, 0", "a[0] = 1", "param a", "call f, 1", "EndFunc",
    "BeginFunc h, 0", "BeginFunc k, 0", "EndFunc", "b = 5", "c[0] = 2", "a[0] = 1", "param a",
    "param c", "y = call f, 1", "EndFunc", "call g, 0", "call h, 0"]

/-- The state of `twoCallers` after `n` steps.  The first call of `prying` is the step after 24, and
the second the one after 38. -/
def twoCallersAt (n : Nat) : Machine := ((Engine.new {}).run twoCallers [] n).1.machine

theorem reached_twoCallersAt {n : Nat} (h : ((Engine.new {}).run twoCallers [] n).2 = .running) :
    ((Engine.new {}).load twoCallers).Reached (twoCallersAt n) :=
  Engine.reached_run (.new {}) twoCallers [] n h

theorem content_of_entries {s : Store} {cell : Nat} {i x : Number}
    (h : (s.elements cell).entries = [(i, .scalar x)]) :
    s.content (.array (some cell)) = .array [(i, .scalar x)] := by
  simp [Store.content, Store.contentFrom, h]

/-- From both callers the variable is unknown, the argument is written to, and the call ends with
its fourth step. -/
theorem callee_cannot_see_caller_prying :
    ∃ seen ending,
      seen = [.faulted ⟨.unknownVariable (.variable "b"), 1, "f"⟩,
        .printed .array (some "[0:7]") 3 "f"] ∧
      CallEnds {} 2 3 ((twoCallersAt 24).run {} 1).1 seen ending ∧
      CallEnds {} 2 3 ((twoCallersAt 38).run {} 1).1 seen ending := by
  have hfacts : (∀ k ∈ [24, 38],
        ((Engine.new {}).run twoCallers [] k).2 = .running ∧
        ((twoCallersAt k).run {} 1).2 = .running ∧
        (twoCallersAt k).callers.length = 1 ∧
        ((twoCallersAt k).run {} 1).1.callers.length = 2 ∧
        (twoCallersAt k).current.frame.depth = 1 ∧
        (twoCallersAt k).callee? = some (prying, (twoCallersAt 21).current.scopes)) ∧
      ((twoCallersAt 24).args prying = [.array (some 1)] ∧
        ((twoCallersAt 24).store.elements 1).entries = [(.zero, .scalar .one)]) ∧
      ((twoCallersAt 38).args prying = [.array (some 4)] ∧
        ((twoCallersAt 38).store.elements 4).entries = [(.zero, .scalar .one)]) ∧
      (((twoCallersAt 24).run {} 1).1.callRun {} 2 4).seen =
        [.faulted ⟨.unknownVariable (.variable "b"), 1, "f"⟩,
          .printed .array (some "[0:7]") 3 "f"] ∧
      (((twoCallersAt 24).run {} 1).1.callRun {} 2 3).ending.isNone ∧
      (((twoCallersAt 24).run {} 1).1.callRun {} 2 4).ending.isSome := by
    decide +kernel
  obtain ⟨hcalls, ⟨hargs₁, hcell₁⟩, ⟨hargs₂, hcell₂⟩, hseen, hnone, hsome⟩ := hfacts
  obtain ⟨hrun₁, hnext₁, hlow₁, hhigh₁, hdepth₁, hcallee₁⟩ := hcalls 24 (by decide)
  obtain ⟨hrun₂, hnext₂, hlow₂, hhigh₂, hdepth₂, hcallee₂⟩ := hcalls 38 (by decide)
  have hsession : ((Engine.new {}).load twoCallers).Session := .load (.new {}) twoCallers
  have hreached₁ := reached_twoCallersAt hrun₁
  have hreached₂ := reached_twoCallersAt hrun₂
  clear hcalls hrun₁ hrun₂
  -- what is known of the two states is all that is needed, and nothing has to be run again
  generalize twoCallersAt 24 = m₁ at *
  generalize twoCallersAt 38 = m₂ at *
  have hargs : (m₁.args prying).map m₁.store.content = (m₂.args prying).map m₂.store.content := by
    rw [hargs₁, hargs₂, List.map_singleton, List.map_singleton, content_of_entries hcell₁,
      content_of_entries hcell₂]
  have hbegins₁ : m₁.Begins {} prying _ (m₁.run {} 1).1 :=
    ⟨(step_of_run hnext₁).2, by omega, calls_of_callee? hcallee₁⟩
  have hbegins₂ : m₂.Begins {} prying _ (m₂.run {} 1).1 :=
    ⟨(step_of_run hnext₂).2, by omega, calls_of_callee? hcallee₂⟩
  obtain ⟨-, -, hends⟩ := callee_cannot_see_caller hsession hsession hreached₁ hreached₂
    ⟨rfl, rfl, rfl, fun _ => rfl, fun _ => rfl⟩ (hdepth₂.trans hdepth₁.symm) hbegins₁ hbegins₂
    (Scope.forall₂_same_refl _) hargs 3
  rw [hlow₁, hlow₂] at hends
  obtain ⟨ending, hending⟩ := Option.isSome_iff_exists.mp hsome
  have hend : CallEnds {} 2 3 (m₁.run {} 1).1 ((m₁.run {} 1).1.callRun {} 2 4).seen ending := by
    refine callEnds_iff.mpr ⟨Option.isNone_iff_eq_none.mp hnone, ?_⟩
    rw [← hending]
  exact ⟨_, ending, hseen, hend, (hends _ _).mp hend⟩

end Machine

end AddressCode
