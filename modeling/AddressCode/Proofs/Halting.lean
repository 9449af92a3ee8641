import AddressCode.Proofs.Runs

/-!
# AddressCode.Proofs.Halting — halting is a prefix of not halting

A run that stops at its first fault and one that goes on take the same steps as long as there is no
fault (`lockstep_step`).  The first fault ends the one at the place where it was raised, in however
many calls, and the other goes on with the next line.  So what the first one delivers is what the
second one delivers up to that fault (`halting_prefix`).

The receiver of output is taken not to fail: a failure is raised as a fault only after the record
was delivered, and may end a run of its own accord.
-/

namespace AddressCode

/-! ## Events up to the first fault -/

/-- The fault that an event reports. -/
def Event.fault? : Event → Option Fault
  | .printed _ _ => none
  | .faulted f => some f

/-- The first fault that is reported. -/
def firstFault? (es : List Event) : Option Fault := es.findSome? Event.fault?

/-- The events up to the first fault, which is the last of them. -/
def untilFault : List Event → List Event
  | [] => []
  | e :: es =>
    match e.fault? with
    | none => e :: untilFault es
    | some _ => [e]

theorem firstFault?_eq_none_iff {es : List Event} :
    firstFault? es = none ↔ ∀ f, Event.faulted f ∉ es := by
  unfold firstFault?
  rw [List.findSome?_eq_none_iff]
  constructor
  · intro h f hmem
    have hf := h _ hmem
    cases hf
  · intro h e hmem
    cases e with
    | printed r t => rfl
    | faulted f => exact absurd hmem (h f)

theorem mem_of_firstFault? {es : List Event} {f : Fault} (h : firstFault? es = some f) :
    Event.faulted f ∈ es := by
  obtain ⟨e, hmem, he⟩ := List.exists_of_findSome?_eq_some h
  cases e with
  | printed r t => cases he
  | faulted f' =>
    cases he
    exact hmem

theorem untilFault_append {es : List Event} (h : firstFault? es = none) (es' : List Event) :
    untilFault (es ++ es') = es ++ untilFault es' := by
  induction es with
  | nil => rfl
  | cons e es ih =>
    unfold firstFault? at h ih
    rw [List.findSome?_cons] at h
    cases he : e.fault? with
    | none =>
      rw [he] at h
      simp only [List.cons_append, untilFault, he, ih h]
    | some f =>
      rw [he] at h
      cases h

theorem firstFault?_append {es : List Event} (h : firstFault? es = none) (es' : List Event) :
    firstFault? (es ++ es') = firstFault? es' := by
  unfold firstFault? at h ⊢
  rw [List.findSome?_append, h]
  rfl

/-! ## The two ways of running -/

/-- Choose whether the first fault ends a run. -/
def Config.withHalt (c : Config) (halt : Bool) : Config := { c with halt := halt }

/-- Choose whether the first fault ends the runs of an engine. -/
def Engine.withHalt (e : Engine) (halt : Bool) : Engine :=
  { e with config := e.config.withHalt halt }

namespace Machine

variable {cfg : Config} {m m' : Machine}

/-- The events of `m'` are those of `m`, with `es` after them. -/
def Delivers (m m' : Machine) (es : List Event) : Prop :=
  m'.events.toList = m.events.toList ++ es

/-- The running line raises the fault `f`, which has the number of that line and the name of the
running procedure. -/
def Raises (cfg : Config) (m : Machine) (f : Fault) : Prop :=
  ∃ l c, m.At l ∧ m.effect cfg l = .signal m.current m.store (.fault c) ∧
    f = ⟨c, (m.current.pc : Int) + 1, m.current.name⟩

/-- What the two runs do in the same state: the first step is that of the run that goes on, the
second that of the run that halts. -/
inductive Lockstep (cfg : Config) (m : Machine) : Step → Step → Prop where
  /-- neither goes further than a step without a fault -/
  | next {m' : Machine} {es : List Event} (hes : m.Delivers m' es)
      (hquiet : firstFault? es = none) : Lockstep cfg m (.next m') (.next m')
  | done {v : Value} {returned : Bool} :
      Lockstep cfg m (.done m ⟨v, returned, none⟩) (.done m ⟨v, returned, none⟩)
  | aborted : Lockstep cfg m (.aborted m) (.aborted m)
  | fault {f : Fault} (hf : m.Raises cfg f) :
      Lockstep cfg m (.next (m.deliver (.faulted f)).advance)
        (.done (m.deliver (.faulted f)).unwind ⟨.undefined, false, some f⟩)

theorem delivers_refl (m : Machine) : m.Delivers m [] := by simp [Delivers]

theorem Delivers.trans {m₁ m₂ m₃ : Machine} {es es' : List Event} (h : m₁.Delivers m₂ es)
    (h' : m₂.Delivers m₃ es') : m₁.Delivers m₃ (es ++ es') := by
  unfold Delivers at h h' ⊢
  rw [h', h, List.append_assoc]

/-! ## One step -/

/-- A line that raises a fault ends the run that halts, and is passed over in the other one. -/
theorem step_of_raises {f : Fault} (hf : m.Raises cfg f) (halt : Bool) :
    m.step (cfg.withHalt halt) =
      if halt then .done (m.deliver (.faulted f)).unwind ⟨.undefined, false, some f⟩
      else .next (m.deliver (.faulted f)).advance := by
  obtain ⟨l, c, hl, he, rfl⟩ := hf
  have heff : m.effect (cfg.withHalt halt) l = .signal m.current m.store (.fault c) := he
  rw [step_at _ hl, heff]
  rfl

/-- A line that raises no fault does the same in both runs. -/
theorem step_withHalt (hsink : ∀ k, cfg.sinkFails k = false) (hno : ∀ f, ¬ m.Raises cfg f)
    (halt : Bool) : m.step (cfg.withHalt halt) = m.step cfg := by
  cases hp : m.current.program[m.current.pc]? with
  | none => simp only [step, hp]
  | some l =>
    cases hr : m.current.recording with
    | some r => simp only [step, hp, stepLine, hr]
    | none =>
      have hl : m.At l := ⟨hp, hr⟩
      have heff : m.effect (cfg.withHalt halt) l = m.effect cfg l := rfl
      rw [step_at _ hl, step_at _ hl, heff]
      cases he : m.effect cfg l with
      | overflow => rfl
      | enter a callee => rfl
      | signal a s sig =>
        -- only a fault asks whether the run is to halt, and so does a receiver that fails
        cases sig with
        | next => rfl
        | jump position => rfl
        | ret v => rfl
        | print v line => simp [handle, emit, Config.withHalt, hsink]
        | fault c =>
          obtain ⟨rfl, rfl⟩ := eq_of_signal he (by simp)
          exact absurd ⟨l, c, hl, he, rfl⟩ (hno _)

/-- The two runs stay together, unless the line raises a fault. -/
theorem lockstep_step (hsink : ∀ k, cfg.sinkFails k = false) (m : Machine) :
    Lockstep cfg m (m.step (cfg.withHalt false)) (m.step (cfg.withHalt true)) := by
  by_cases hf : ∃ f, m.Raises cfg f
  · obtain ⟨f, hf⟩ := hf
    rw [step_of_raises hf, step_of_raises hf]
    exact .fault hf
  · have hno : ∀ f, ¬ m.Raises cfg f := fun f h => hf ⟨f, h⟩
    rw [step_withHalt hsink hno, step_withHalt hsink hno]
    have hsilent : ∀ m' : Machine, m'.events = m.events → m.Delivers m' [] := by
      intro m' heq
      simp [Delivers, heq]
    -- the steps without a fault deliver nothing, or the record that is printed
    have htakes : Takes cfg m (m.step cfg) := takes_step cfg m
    generalize m.step cfg = o at htakes
    cases htakes with
    | fallOff | record | quiet | jump | enter | ret => exact .next (hsilent _ rfl) rfl
    | finish | finishWith => exact .done
    | overflow => exact .aborted
    | fault hl he _ => exact absurd ⟨_, _, hl, he, rfl⟩ (hno _)
    | halt hl he _ => exact absurd ⟨_, _, hl, he, rfl⟩ (hno _)
    | print => exact .next Array.toList_push rfl
    | sinkFault _ _ hfail | sinkHalt _ _ hfail | escape _ _ hfail => simp [hsink] at hfail

/-! ## Whole runs -/

/-- A run that goes on at faults only adds to the events, and does not end with a fault. -/
theorem run_withHalt_false (hsink : ∀ k, cfg.sinkFails k = false) (n : Nat) (m : Machine) :
    (∃ es, m.Delivers (m.run (cfg.withHalt false) n).1 es) ∧
      ∀ r, (m.run (cfg.withHalt false) n).2 = .finished r → r.halted = false := by
  induction n generalizing m with
  | zero => exact ⟨⟨[], delivers_refl m⟩, by simp [run]⟩
  | succ n ih =>
    have hlock := lockstep_step hsink m
    generalize hfree : m.step (cfg.withHalt false) = free at hlock
    generalize m.step (cfg.withHalt true) = strict at hlock
    cases hlock with
    | @next m' es hes =>
      obtain ⟨⟨es', hes'⟩, hend⟩ := ih m'
      simp only [run, hfree]
      exact ⟨⟨es ++ es', hes.trans hes'⟩, hend⟩
    | done =>
      simp only [run, hfree]
      refine ⟨⟨[], delivers_refl m⟩, ?_⟩
      intro r hr
      cases hr
      rfl
    | aborted =>
      simp only [run, hfree]
      exact ⟨⟨[], delivers_refl m⟩, by simp⟩
    | @fault f =>
      obtain ⟨⟨es', hes'⟩, hend⟩ := ih (m.deliver (.faulted f)).advance
      simp only [run, hfree]
      have hes : m.Delivers (m.deliver (.faulted f)).advance [.faulted f] := Array.toList_push
      exact ⟨⟨[.faulted f] ++ es', hes.trans hes'⟩, hend⟩

/-- Within `n` steps from `m` the run that halts is ended by the fault `f`.  Up to the state whose
line raises it the other run was in the same states, and nothing is done after it. -/
def HaltsWith (cfg : Config) (m : Machine) (n : Nat) (f : Fault) : Prop :=
  ∃ k m₁, k < n ∧ m.run (cfg.withHalt false) k = (m₁, .running) ∧
    m.run (cfg.withHalt true) k = (m₁, .running) ∧ m₁.Raises cfg f ∧
    m.run (cfg.withHalt true) n =
      ((m₁.deliver (.faulted f)).unwind, .finished ⟨.undefined, false, some f⟩)

/-- What `n` steps from `m` come to in the two runs, if the one that goes on delivers `es`. -/
structure Parallel (cfg : Config) (m : Machine) (n : Nat) (es : List Event) : Prop where
  free : m.Delivers (m.run (cfg.withHalt false) n).1 es
  strict : m.Delivers (m.run (cfg.withHalt true) n).1 (untilFault es)
  same : firstFault? es = none → m.run (cfg.withHalt true) n = m.run (cfg.withHalt false) n
  halts : ∀ f, firstFault? es = some f → HaltsWith cfg m n f

/-- Two runs that end in the same state without having delivered anything. -/
theorem parallel_of_eq {n : Nat} {o : Outcome} (hfree : m.run (cfg.withHalt false) n = (m, o))
    (hstrict : m.run (cfg.withHalt true) n = (m, o)) : Parallel cfg m n [] where
  free := by
    rw [hfree]
    exact delivers_refl m
  strict := by
    rw [hstrict]
    exact delivers_refl m
  same _ := hstrict.trans hfree.symm
  halts f hf := by cases hf

/-- A step that both runs take, in front of the rest of the two runs. -/
theorem Parallel.cons {n : Nat} {es es' : List Event}
    (hfree : m.step (cfg.withHalt false) = .next m')
    (hstrict : m.step (cfg.withHalt true) = .next m') (hes : m.Delivers m' es)
    (hquiet : firstFault? es = none) (h : Parallel cfg m' n es') :
    Parallel cfg m (n + 1) (es ++ es') := by
  have hrun : ∀ k, m.run (cfg.withHalt false) (k + 1) = m'.run (cfg.withHalt false) k := by
    intro k
    rw [run, hfree]
  have hrun' : ∀ k, m.run (cfg.withHalt true) (k + 1) = m'.run (cfg.withHalt true) k := by
    intro k
    rw [run, hstrict]
  constructor
  case free =>
    rw [hrun]
    exact hes.trans h.free
  case strict =>
    rw [hrun', untilFault_append hquiet]
    exact hes.trans h.strict
  case same =>
    intro hnone
    rw [firstFault?_append hquiet] at hnone
    rw [hrun, hrun']
    exact h.same hnone
  case halts =>
    intro f hf
    rw [firstFault?_append hquiet] at hf
    -- the fault is one step further away
    obtain ⟨k, m₁, hk, hk₁, hk₂, hraises, hend⟩ := h.halts f hf
    refine ⟨k + 1, m₁, Nat.succ_lt_succ hk, ?_, ?_, hraises, ?_⟩
    · rw [hrun]
      exact hk₁
    · rw [hrun']
      exact hk₂
    · rw [hrun']
      exact hend

/-- A line that raises a fault, in front of whatever the run that goes on does then. -/
theorem Parallel.fault {n : Nat} {f : Fault} {es : List Event} (hf : m.Raises cfg f)
    (hes : (m.deliver (.faulted f)).advance.Delivers
      ((m.deliver (.faulted f)).advance.run (cfg.withHalt false) n).1 es) :
    Parallel cfg m (n + 1) (.faulted f :: es) := by
  have hfree := step_of_raises hf false
  have hstrict := step_of_raises hf true
  have hone : m.Delivers (m.deliver (.faulted f)).advance [.faulted f] := Array.toList_push
  constructor
  case free =>
    rw [run, hfree]
    exact hone.trans hes
  case strict =>
    rw [run, hstrict]
    exact hone
  case same =>
    intro hnone
    cases hnone
  case halts =>
    intro f' hf'
    cases hf'
    refine ⟨0, m, Nat.succ_pos n, rfl, rfl, hf, ?_⟩
    rw [run, hstrict]
    rfl

/-- The two runs, from any state and over any number of steps.  The induction follows the steps
they take together; after the first fault only the events of the run that goes on matter. -/
theorem parallel_run (hsink : ∀ k, cfg.sinkFails k = false) (n : Nat) (m : Machine) :
    ∃ es, Parallel cfg m n es := by
  induction n generalizing m with
  | zero => exact ⟨[], parallel_of_eq rfl rfl⟩
  | succ n ih =>
    have hlock := lockstep_step hsink m
    generalize hfree : m.step (cfg.withHalt false) = free at hlock
    generalize hstrict : m.step (cfg.withHalt true) = strict at hlock
    cases hlock with
    | @next m' es hes hquiet =>
      obtain ⟨es', h⟩ := ih m'
      exact ⟨es ++ es', h.cons hfree hstrict hes hquiet⟩
    | @done v returned =>
      refine ⟨[], parallel_of_eq (o := .finished ⟨v, returned, none⟩) ?_ ?_⟩
      · rw [run, hfree]
      · rw [run, hstrict]
    | aborted =>
      refine ⟨[], parallel_of_eq (o := .aborted) ?_ ?_⟩
      · rw [run, hfree]
      · rw [run, hstrict]
    | @fault f hf =>
      obtain ⟨⟨es, hes⟩, -⟩ := run_withHalt_false hsink n (m.deliver (.faulted f)).advance
      exact ⟨.faulted f :: es, .fault hf hes⟩

/-- The run that halts is halted if and only if the other one reports a fault. -/
theorem Parallel.halted_iff {n : Nat} {es : List Event} (h : Parallel cfg m n es)
    (hend : ∀ r, (m.run (cfg.withHalt false) n).2 = .finished r → r.halted = false) :
    (∃ r, (m.run (cfg.withHalt true) n).2 = .finished r ∧ r.halted = true) ↔
      ∃ f, Event.faulted f ∈ es := by
  cases hf : firstFault? es with
  | none =>
    have hnone := firstFault?_eq_none_iff.mp hf
    constructor
    · rintro ⟨r, hr, hhalted⟩
      rw [h.same hf] at hr
      rw [hend r hr] at hhalted
      cases hhalted
    · rintro ⟨f, hmem⟩
      exact absurd hmem (hnone f)
  | some f =>
    obtain ⟨k, m₁, -, -, -, -, hlast⟩ := h.halts f hf
    constructor
    · intro _
      exact ⟨f, mem_of_firstFault? hf⟩
    · intro _
      exact ⟨_, congrArg Prod.snd hlast, rfl⟩

end Machine

namespace Engine

open Machine

/-! ## Halting as a prefix -/

theorem Starts.events {e : Engine} {m₀ : Machine} (h : e.Starts m₀) : m₀.events = #[] := by
  cases h <;> rfl

/-- A run that stops at the first fault delivers what the run that goes on delivers, up to that
fault.  It is halted if and only if there is one, by the fault as it was raised, with the line and
the procedure that raised it.  Without a fault both runs come to the same end, and the run that
goes on is never halted. -/
theorem halting_prefix {e : Engine} {m₀ : Machine} (hstart : e.Starts m₀)
    (hsink : ∀ k, e.config.sinkFails k = false) (n : Nat) :
    let free := m₀.run (e.config.withHalt false) n
    let strict := m₀.run (e.config.withHalt true) n
    strict.1.events.toList = untilFault free.1.events.toList ∧
      ((∃ r, strict.2 = .finished r ∧ r.halted = true) ↔
        ∃ f, Event.faulted f ∈ free.1.events.toList) ∧
      (∀ f, firstFault? free.1.events.toList = some f → HaltsWith e.config m₀ n f) ∧
      ((∀ f, Event.faulted f ∉ free.1.events.toList) → strict = free) ∧
      ∀ r, free.2 = .finished r → r.halted = false := by
  intro free strict
  obtain ⟨es, h⟩ := parallel_run hsink n m₀
  obtain ⟨-, hend⟩ := run_withHalt_false hsink n m₀
  have hfree : free.1.events.toList = es := by
    have hes := h.free
    rw [Delivers, hstart.events] at hes
    exact hes
  have hstrict : strict.1.events.toList = untilFault es := by
    have hes := h.strict
    rw [Delivers, hstart.events] at hes
    exact hes
  rw [hfree, hstrict]
  refine ⟨rfl, ?_, h.halts, ?_, hend⟩
  · exact h.halted_iff hend
  · intro hno
    exact h.same (firstFault?_eq_none_iff.mpr hno)

/-- An engine whose program has a procedure that jumps to a label there is not, called from another
procedure, and the same jump at the top level. -/
def lostInCalls : Engine := (Engine.new {}).load <| .ofStrings
  ["BeginFunc g, 0", "goto nowhere", "EndFunc", "BeginFunc f, 0", "call g, 0", "print x", "EndFunc",
    "call f, 0", "goto nowhere"]

/-- The state in which its program is started. -/
def lostInCallsStart : Machine := (lostInCalls.reset.bind []).start lostInCalls.program

/-- The fault of the inner procedure halts the run, and is the only event of it; the run that goes
on raises two more. -/
theorem halting_prefix_nested :
    (lostInCallsStart.run (lostInCalls.config.withHalt false) 15).1.events.size = 3 ∧
      (lostInCallsStart.run (lostInCalls.config.withHalt true) 15).1.events.toList =
        [.faulted ⟨.undefinedLabel "nowhere", 1, "g"⟩] ∧
      HaltsWith lostInCalls.config lostInCallsStart 15 ⟨.undefinedLabel "nowhere", 1, "g"⟩ := by
  have hfacts :
      (lostInCallsStart.run (lostInCalls.config.withHalt false) 15).1.events.size = 3 ∧
      untilFault (lostInCallsStart.run (lostInCalls.config.withHalt false) 15).1.events.toList =
        [.faulted ⟨.undefinedLabel "nowhere", 1, "g"⟩] ∧
      firstFault? (lostInCallsStart.run (lostInCalls.config.withHalt false) 15).1.events.toList =
        some ⟨.undefinedLabel "nowhere", 1, "g"⟩ := by
    decide +kernel
  obtain ⟨hsize, huntil, hfirst⟩ := hfacts
  have hstart : lostInCalls.Starts lostInCallsStart := .exec []
  obtain ⟨hevents, -, hhalts, -, -⟩ := halting_prefix hstart (fun _ => rfl) 15
  exact ⟨hsize, hevents.trans huntil, hhalts _ hfirst⟩

end Engine

end AddressCode
