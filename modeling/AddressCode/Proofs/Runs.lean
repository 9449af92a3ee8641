import AddressCode.Engine
import AddressCode.Proofs.Effects
import Mathlib.Logic.Relation

/-!
# AddressCode.Proofs.Runs — the states of a run and of a session

`Machine.Steps` relates a state to the states that steps lead to.  A session is any sequence of
operations on an engine; the operations that run a program have to end before the next one, and a
copy without an end allows no further operation.  `Engine.Reached` are the states at all moments of
the runs that an engine can start.

An invariant is `Kept` if it holds before the first run, and starting, stepping and stopping a run
keep it; it then holds at every moment of every run of every session (`Kept.reached`).
-/

namespace AddressCode

/-! ## Steps -/

/-- The state that a step leads to. -/
def Step.state : Step → Machine
  | .next m | .done m _ | .escaped m _ | .aborted m => m

namespace Machine

/-- Any number of steps lead from one state to another. -/
def Steps (cfg : Config) : Machine → Machine → Prop :=
  Relation.ReflTransGen fun m m' => m.step cfg = .next m'

/-- A step ends the run, with a result or because the receiver of output failed. -/
def Stops (cfg : Config) (m m' : Machine) : Prop :=
  (∃ r, m.step cfg = .done m' r) ∨ ∃ message, m.step cfg = .escaped m' message

/-- Has a run ended, so that the engine can be asked to do something else? -/
def Outcome.ended : Outcome → Bool
  | finished _ | escaped _ => true
  | aborted | running => false

variable {cfg : Config} {m m' : Machine}

/-- A step only adds to what was delivered. -/
theorem events_step (cfg : Config) (m : Machine) :
    m.events.toList <+: (m.step cfg).state.events.toList := by
  have htakes := takes_step cfg m
  generalize m.step cfg = o at htakes
  cases htakes with
  | fallOff | finish | record | quiet | jump | enter | ret | finishWith | overflow =>
    exact List.prefix_refl _
  | fault | halt | print | escape =>
    simp [Step.state, advance, deliver, printed, unwind]
  | sinkFault | sinkHalt =>
    simp [Step.state, advance, deliver, printed, unwind, backTo]

/-- What every step keeps is kept by a run. -/
theorem Steps.invariant {P : Machine → Prop}
    (hstep : ∀ m m', P m → m.step cfg = .next m' → P m') (h : Steps cfg m m') (hm : P m) :
    P m' := by
  induction h with
  | refl => exact hm
  | tail _ hs ih => exact hstep _ _ ih hs

/-- A run that is not over has taken as many steps as it was given. -/
theorem steps_of_run {n : Nat} (h : m.run cfg n = (m', .running)) : Steps cfg m m' := by
  induction n generalizing m with
  | zero =>
    cases h
    exact .refl
  | succ n ih =>
    unfold run at h
    split at h
    · rename_i m₁ hs
      exact .head hs (ih h)
    all_goals simp at h

/-- So does a run. -/
theorem Steps.events (h : Steps cfg m m') : m.events.toList <+: m'.events.toList :=
  h.invariant (P := fun m₁ => m.events.toList <+: m₁.events.toList)
    (fun m₁ m₂ hm₁ hs => hm₁.trans (by simpa [hs, Step.state] using events_step cfg m₁))
    (List.prefix_refl _)

/-- The last step of a run that is not over. -/
theorem step_of_run {n : Nat} (h : (m.run cfg (n + 1)).2 = .running) :
    (m.run cfg n).2 = .running ∧ (m.run cfg n).1.step cfg = .next (m.run cfg (n + 1)).1 := by
  induction n generalizing m with
  | zero =>
    refine ⟨rfl, ?_⟩
    simp only [run] at h ⊢
    split at h <;> simp_all
  | succ n ih =>
    rw [run] at h ⊢
    rw [run]
    split at h
    · exact ih h
    all_goals simp at h

/-- The last step of a run that ends with a result. -/
theorem done_of_run {n : Nat} {r : Result} (hprev : (m.run cfg n).2 = .running)
    (h : (m.run cfg (n + 1)).2 = .finished r) :
    (m.run cfg n).1.step cfg = .done (m.run cfg (n + 1)).1 r := by
  induction n generalizing m with
  | zero =>
    simp only [run] at h ⊢
    split at h <;> simp_all
  | succ n ih =>
    rw [run] at h hprev ⊢
    rw [run]
    split at h
    · rename_i hs
      rw [hs] at hprev
      exact ih hprev h
    all_goals simp_all

/-- A run goes on where it has got to. -/
theorem run_add {k : Nat} (h : (m.run cfg k).2 = .running) (n : Nat) :
    m.run cfg (k + n) = (m.run cfg k).1.run cfg n := by
  induction k generalizing m with
  | zero => rw [Nat.zero_add, run]
  | succ k ih =>
    rw [Nat.succ_add, run]
    rw [run] at h ⊢
    split at h
    · exact ih h
    all_goals simp at h

/-- A run that is over stays as it is. -/
theorem run_of_le {k n : Nat} (hle : k ≤ n) (h : (m.run cfg k).2 ≠ .running) :
    m.run cfg n = m.run cfg k := by
  induction k generalizing m n with
  | zero => exact absurd rfl h
  | succ k ih =>
    obtain ⟨n, rfl⟩ : ∃ n', n = n' + 1 := ⟨n - 1, by omega⟩
    rw [run] at h ⊢
    rw [run]
    split at h
    · exact ih (Nat.le_of_succ_le_succ hle) h
    all_goals rfl

/-- A run that has ended took steps to a state whose step stopped it. -/
theorem stops_of_run {n : Nat} {o : Outcome} (h : m.run cfg n = (m', o)) (ho : o.ended = true) :
    ∃ m₁, Steps cfg m m₁ ∧ Stops cfg m₁ m' := by
  induction n generalizing m with
  | zero =>
    cases h
    simp [Outcome.ended] at ho
  | succ n ih =>
    unfold run at h
    split at h
    · rename_i m₁ hs
      obtain ⟨m₂, hm, hstop⟩ := ih h
      exact ⟨m₂, .head hs hm, hstop⟩
    · rename_i m₁ r hs
      cases h
      exact ⟨m, .refl, Or.inl ⟨r, hs⟩⟩
    · rename_i m₁ message hs
      cases h
      exact ⟨m, .refl, Or.inr ⟨message, hs⟩⟩
    · cases h
      simp [Outcome.ended] at ho

/-- Steps are a run that is not over. -/
theorem run_of_steps (h : Steps cfg m m') : ∃ k, m.run cfg k = (m', .running) := by
  induction h with
  | refl => exact ⟨0, rfl⟩
  | @tail m₁ m₂ _ hs ih =>
    obtain ⟨k, hk⟩ := ih
    refine ⟨k + 1, ?_⟩
    rw [run_add (by rw [hk]) 1, hk]
    simp [run, hs]

/-- A run comes to the step that ends it, and more steps change nothing. -/
theorem run_of_stop {m₁ : Machine} {o : Outcome} (h : Steps cfg m m₁)
    (hstop : m₁.run cfg 1 = (m', o)) (ho : o ≠ .running) :
    ∃ n, ∀ k ≥ n, m.run cfg k = (m', o) := by
  obtain ⟨n, hn⟩ := run_of_steps h
  have hlast : m.run cfg (n + 1) = (m', o) := by
    rw [run_add (by rw [hn]) 1, hn]
    exact hstop
  refine ⟨n + 1, fun k hk => ?_⟩
  rw [run_of_le hk (by rw [hlast]; exact ho), hlast]

/-! ## Leaving all calls -/

@[simp]
theorem bottom_deliver (m : Machine) (e : Event) : (m.deliver e).bottom = m.bottom := rfl

@[simp]
theorem bottom_printed (m : Machine) (v : Value) (line : Int) :
    (m.printed v line).bottom = m.bottom := rfl

/-- Going back to the caller does not change the bottom of the stack. -/
theorem bottom_backTo {c : Activation} {rest : List Activation} (hc : m.callers = c :: rest) :
    (m.backTo c rest).bottom = m.bottom := by
  simp [bottom, backTo, hc, List.getLast?_cons]

theorem bottom_mem (m : Machine) : m.bottom ∈ m.activations := by
  unfold bottom activations
  cases hc : m.callers.getLast? with
  | none => simp
  | some c =>
    have hmem : c ∈ m.callers := List.mem_of_getLast? hc
    simp [hmem]

/-- A run that stops leaves the bottom of its stack, and the store as it is. -/
theorem Stops.spec (h : Stops cfg m m') :
    m'.current = m.bottom ∧ m'.callers = [] ∧ m'.store = m.store := by
  have hroot : m.callers = [] → m.current = m.bottom := by
    intro hc
    simp [bottom, hc]
  rcases h with ⟨r, hs⟩ | ⟨message, hs⟩
  · cases takes_of_step hs with
    | finish _ hc => exact ⟨hroot hc, hc, rfl⟩
    | finishWith _ _ hc => exact ⟨hroot hc, hc, rfl⟩
    | halt => exact ⟨rfl, rfl, rfl⟩
    | @sinkHalt _ v _ _ _ _ _ hc =>
      -- the fault is raised one activation below, on the same bottom
      refine ⟨?_, rfl, rfl⟩
      have hb := bottom_backTo (m := m.printed v (m.current.pc + 1)) hc
      simpa [unwind] using hb
  · cases takes_of_step hs with
    | escape => exact ⟨rfl, rfl, rfl⟩

/-! ## Starting -/

/-- The state in which a program is started at the top level, with inputs. -/
def launch (m : Machine) (inputs : List Number) (p : Program) : Machine :=
  { m with
    current := (m.current.withHeap (m.current.heap.bind (inputs.map .scalar))).start p
    events := #[] }

end Machine

/-! ## Sessions -/

namespace Engine

/-- The engines that operations lead to.  Running a program is loading and executing it, and asking
for a value changes nothing. -/
inductive Session : Engine → Prop where
  | new (config : Config) : Session (.new config)
  | load {e : Engine} (he : Session e) (p : Program) : Session (e.load p)
  | add {e : Engine} (he : Session e) (line : List Text.Piece) : Session (e.add line)
  | exec {e e' : Engine} (he : Session e) {inputs : List Number} {n : Nat} {o : Machine.Outcome}
      (hrun : e.exec inputs n = (e', o)) (ho : o.ended = true) : Session e'
  | runLine {e e' : Engine} (he : Session e) {line : List Text.Piece} {inputs : List Number}
      {clear : Bool} {n : Nat} {o : Machine.Outcome}
      (hrun : e.runLine line inputs clear n = (e', o)) (ho : o.ended = true) : Session e'

/-- The states in which an engine starts a run: that of its program, or that of a single line. -/
inductive Starts (e : Engine) : Machine → Prop where
  | exec (inputs : List Number) : Starts e ((e.reset.bind inputs).start e.program)
  | runLine (line : List Text.Piece) (inputs : List Number) (clear : Bool) :
      Starts e (((if clear then e.reset else e).bind inputs).start #[.ofPieces line])

/-- The states at any moment of a run that an engine starts. -/
def Reached (e : Engine) (m : Machine) : Prop :=
  ∃ m₀, e.Starts m₀ ∧ Machine.Steps e.config m₀ m

variable {e e' : Engine} {m m' : Machine}

/-- Executing leaves the state that the run of the program leads to. -/
theorem machine_execute {p : Program} {n : Nat} {o : Machine.Outcome}
    (h : e.execute p n = (e', o)) :
    (e.start p).run e.config n = (e'.machine, o) ∧ e'.config = e.config := by
  unfold execute at h
  cases h
  exact ⟨rfl, rfl⟩

/-- Executing changes nothing but the state. -/
theorem eq_of_execute {e₁ : Engine} {p : Program} {n : Nat} {o : Machine.Outcome}
    (hconfig : e₁.config = e.config) (hprogram : e₁.program = e.program)
    (h : e₁.execute p n = (e', o)) : e' = { e with machine := e'.machine } := by
  unfold execute at h
  cases h
  rw [← hconfig, ← hprogram]

/-- Every moment of the run of the loaded program with inputs is reached. -/
theorem reached_exec (e : Engine) (inputs : List Number) (n : Nat)
    (h : (e.exec inputs n).2 = .running) : e.Reached (e.exec inputs n).1.machine := by
  have hrun : e.exec inputs n = ((e.exec inputs n).1, .running) := Prod.ext rfl h
  obtain ⟨hsteps, -⟩ := machine_execute hrun
  exact ⟨_, .exec inputs, Machine.steps_of_run hsteps⟩

/-- The last step of the program of an engine that is not over. -/
theorem step_of_exec {inputs : List Number} {n : Nat} (h : (e.exec inputs (n + 1)).2 = .running) :
    (e.exec inputs n).1.machine.step e.config = .next (e.exec inputs (n + 1)).1.machine := by
  have hrun : (((e.reset.bind inputs).start e.program).run e.config (n + 1)).2 = .running := h
  exact (Machine.step_of_run hrun).2

theorem reached_run (e : Engine) (p : Program) (inputs : List Number) (n : Nat)
    (h : (e.run p inputs n).2 = .running) :
    (e.load p).Reached (e.run p inputs n).1.machine :=
  reached_exec (e.load p) inputs n h

/-- A run that an operation ends took steps to a state whose step stopped it. -/
theorem stops_of_execute {p : Program} {n : Nat} {o : Machine.Outcome}
    (h : e.execute p n = (e', o)) (ho : o.ended = true) :
    ∃ m, Machine.Steps e.config (e.start p) m ∧ Machine.Stops e.config m e'.machine := by
  obtain ⟨hrun, -⟩ := machine_execute h
  exact Machine.stops_of_run hrun ho

/-! ## Invariants -/

/-- A fact about states that nothing an engine does can break. -/
structure Kept (P : Machine → Prop) : Prop where
  initial : ∀ k, P { Machine.initial with delivered := k }
  launch : ∀ {m} (inputs : List Number) (p : Program), P m → P (m.launch inputs p)
  step : ∀ {cfg m m'}, P m → m.step cfg = .next m' → P m'
  stop : ∀ {cfg m m'}, P m → Machine.Stops cfg m m' → P m'

namespace Kept

variable {P : Machine → Prop}

/-- A run keeps an invariant up to each of its moments. -/
theorem steps (hk : Kept P) {cfg : Config} (h : Machine.Steps cfg m m') (hm : P m) : P m' :=
  Machine.Steps.invariant (fun _ _ hp hs => hk.step hp hs) h hm

/-- An operation that runs a program to its end keeps an invariant. -/
theorem execute (hk : Kept P) {p : Program} {n : Nat} {o : Machine.Outcome}
    (hm : P (e.start p)) (h : e.execute p n = (e', o)) (ho : o.ended = true) : P e'.machine := by
  obtain ⟨m₁, hsteps, hstop⟩ := stops_of_execute h ho
  exact hk.stop (hk.steps hsteps hm) hstop

/-- The states in which a run starts have an invariant that held before. -/
theorem starts (hk : Kept P) (he : P e.machine) {m₀ : Machine} (h : e.Starts m₀) : P m₀ := by
  have hreset : P e.reset.machine := hk.initial _
  -- a program, and a line if that is asked for, begins from a clean state
  cases h with
  | exec inputs => exact hk.launch inputs e.program hreset
  | runLine line inputs clear =>
    cases clear with
    | true => exact hk.launch inputs #[.ofPieces line] hreset
    | false => exact hk.launch inputs #[.ofPieces line] he

/-- An invariant holds between the operations of a session. -/
theorem session (hk : Kept P) (he : e.Session) : P e.machine := by
  induction he with
  | new config => exact hk.initial 0
  | load _ p ih => exact ih
  | add _ line ih => exact ih
  | exec _ hrun ho ih => exact hk.execute (hk.starts ih (.exec _)) hrun ho
  | runLine _ hrun ho ih =>
    exact hk.execute (hk.starts ih (.runLine _ _ _)) hrun ho

/-- An invariant holds at every moment of every run of a session. -/
theorem reached (hk : Kept P) (he : e.Session) (hm : e.Reached m) : P m := by
  obtain ⟨m₀, hstart, hsteps⟩ := hm
  exact hk.steps hsteps (hk.starts (hk.session he) hstart)

end Kept

/-- Between the operations of a session no call is active. -/
theorem Session.callers (he : e.Session) : e.machine.callers = [] := by
  have hexec : ∀ {e e' : Engine} {p : Program} {n : Nat} {o : Machine.Outcome},
      e.execute p n = (e', o) → o.ended = true → e'.machine.callers = [] := by
    intro e e' p n o h ho
    obtain ⟨m₁, -, hstop⟩ := stops_of_execute h ho
    exact hstop.spec.2.1
  -- only the operations that run something matter
  induction he with
  | new config => rfl
  | load _ p ih => exact ih
  | add _ line ih => exact ih
  | exec _ hrun ho ih => exact hexec hrun ho
  | runLine _ hrun ho ih => exact hexec hrun ho

end Engine

end AddressCode
