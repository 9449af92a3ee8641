import AddressCode.Proofs.Isolation

/-!
# AddressCode.Proofs.Atomicity — a fault changes nothing

A line that ends in a fault leaves its activation as it was.  There are two ways to end so
(`Machine.YieldsFault`): the line itself raises the fault, before it has changed anything; or it is
a call, and a fault inside of that call halts the run, however deep and whatever was done there
before.  In the second case the arguments are gone, and all else is as before the call
(`fault_atomic`); that nothing done in the call reaches the caller is the isolation of calls.
-/

namespace AddressCode

namespace Machine

variable {cfg : Config} {m m₂ m' : Machine}

/-! ## Lines that end in a fault -/

/-- The running line ends in the fault `f` and leaves its activation as `a`, on top of `callers`,
with the store `s`.  The procedure is the one that the line has called, if the fault came from
there. -/
inductive YieldsFault (cfg : Config) (m : Machine) :
    Option Procedure → Fault → Activation → List Activation → Store → Prop where
  /-- the line raises the fault -/
  | raised {l : Line} {c : Cause} {a : Activation} {s : Store} (hl : m.At l)
      (he : m.effect cfg l = .signal a s (.fault c)) :
      YieldsFault cfg m none (m.faultOf c) a m.callers s
  /-- the line calls, and a fault in the call halts the run: `a` is what has become of the
  activation by then -/
  | halted {m₂ m' : Machine} {r : Result} {f : Fault} {p : Procedure} {home : List Scope}
      {result : String} {above below : List Activation} {a : Activation}
      (hcalls : m.Calls p home result) (hin : Inside cfg m m₂) (hs : m₂.step cfg = .done m' r)
      (hf : r.fault = some f) (hstack : m₂.callers = above ++ a :: below)
      (hlevel : below.length = m.callers.length) :
      YieldsFault cfg m (some p) f a below m'.store

/-- The activation `a` on top of `callers`, with the store `s`, has all that the running activation
of `m` has, apart from the parameters. -/
structure Keeps (m : Machine) (a : Activation) (callers : List Activation) (s : Store) :
    Prop where
  /-- the variables and their values -/
  frame : a.frame = m.current.frame
  labels : a.labels = m.current.labels
  scope : a.scope = m.current.scope
  home : a.home = m.current.home
  recording : a.recording = m.current.recording
  program : a.program = m.current.program
  pc : a.pc = m.current.pc
  callers : callers = m.callers
  /-- every array in the variables and in the parameters that are left -/
  elements : ∀ c ∈ a.footprint m.store, s.elements c = m.store.elements c

/-- The parameters that are left of those of the running activation, if a procedure was called. -/
def paramsLeft (m : Machine) : Option Procedure → List Value
  | none => m.current.params.values
  | some p => m.current.params.values.drop p.arity.toNat

/-- A fault that a line raises itself leaves everything as it is. -/
theorem keeps_of_raised {l : Line} {c : Cause} {a : Activation} {s : Store}
    (he : m.effect cfg l = .signal a s (.fault c)) :
    m.Keeps a m.callers s ∧ a.params = m.current.params := by
  obtain ⟨rfl, rfl⟩ := eq_of_signal he (by simp)
  exact ⟨⟨rfl, rfl, rfl, rfl, rfl, rfl, rfl, rfl, fun _ _ => rfl⟩, rfl⟩

/-- During a call the caller is where it was on the stack, without its arguments. -/
theorem Inside.caller {p : Procedure} {home : List Scope} {result : String}
    {above below : List Activation} {a : Activation} (h : Inside cfg m m₂)
    (hcalls : m.Calls p home result) (hstack : m₂.callers = above ++ a :: below)
    (hlevel : below.length = m.callers.length) :
    a = m.current.waiting p ∧ below = m.callers := by
  obtain ⟨q, _, _, m₁, _, henter, _, xs, b, hacts, _⟩ := h.waits
  obtain rfl := hcalls.unique henter.calls
  obtain ⟨between, hcallers⟩ := callers_of_activations hacts
  -- both cut the stack at the same height
  have hlen : (a :: below).length = (m.current.waiting p :: m.callers).length := by
    rw [List.length_cons, List.length_cons, hlevel]
  obtain ⟨-, heq⟩ := List.append_inj' (hstack.symm.trans hcallers) hlen
  exact List.cons.inj heq

/-- During a call the caller keeps all but its arguments. -/
theorem Inside.keeps {p : Procedure} {home : List Scope} {result : String} (h : Inside cfg m m₂)
    (hsep : m.Separated) (hcalls : m.Calls p home result) :
    m.Keeps (m.current.waiting p) m.callers m₂.store ∧
      0 ≤ p.arity ∧ p.arity ≤ m.current.params.values.length := by
  obtain ⟨q, _, _, m₁, hs, henter, hsteps, _⟩ := h.waits
  obtain rfl := hcalls.unique henter.calls
  have hkeep := Inside.elements hsep hs henter hsteps (m.current.waiting p) (by simp)
  exact ⟨⟨rfl, rfl, rfl, rfl, rfl, rfl, rfl, rfl, hkeep⟩, henter.enough⟩

/-! ## Atomicity -/

/-- A line that ends in a fault leaves its activation with the variables, arrays, labels, procedures
and recording it had.  It leaves the parameters as well, unless a call halted the run, which has
taken its arguments and nothing more. -/
theorem fault_atomic {e : Engine} (he : e.Session) (hm : e.Reached m) {callee : Option Procedure}
    {f : Fault} {a : Activation} {callers : List Activation} {s : Store}
    (h : YieldsFault e.config m callee f a callers s) :
    m.Keeps a callers s ∧ a.params.values = m.paramsLeft callee ∧
      ∀ p, callee = some p → 0 ≤ p.arity ∧ p.arity ≤ m.current.params.values.length := by
  cases h with
  | raised hl hraised =>
    obtain ⟨hkeeps, hparams⟩ := keeps_of_raised hraised
    refine ⟨hkeeps, by rw [hparams, paramsLeft], ?_⟩
    intro p hp
    cases hp
  | halted hcalls hin hs hf hstack hlevel =>
    have hsep : m.Separated := separated_kept.reached he hm
    obtain ⟨rfl, rfl⟩ := hin.caller hcalls hstack hlevel
    obtain ⟨hkeeps, henough⟩ := hin.keeps hsep hcalls
    -- the step that halts the run leaves the store as it is
    obtain ⟨-, -, hstore⟩ := Stops.spec (Or.inl ⟨_, hs⟩)
    rw [hstore]
    refine ⟨hkeeps, rfl, ?_⟩
    intro p hp
    cases hp
    exact henough

/-- A callee that writes to an array inside its argument, and then jumps to a label there is
not. -/
def failing : Program := .ofStrings
  ["BeginFunc f, 1", "q = p0[1]", "q[0] = 7", "goto nowhere", "EndFunc",
    "b[0] = 2", "a[1] = b", "param a", "param b", "call f, 1"]

/-- The state of `failing` in front of its call, in a run that halts at the first fault. -/
def failingCall : Machine := ((Engine.new { halt := true }).run failing [] 9).1.machine

/-- The fault in the call leaves the caller with its arrays, and with one parameter of two. -/
theorem fault_atomic_in_call : ∃ p a s,
    YieldsFault { halt := true } failingCall (some p) ⟨.undefinedLabel "nowhere", 3, "f"⟩ a [] s ∧
      failingCall.Keeps a [] s ∧ failingCall.current.params.values.length = 2 ∧
      a.params.values.length = 1 := by
  have hfacts : ((Engine.new { halt := true }).run failing [] 9).2 = .running ∧
      failingCall.callers.length = 0 ∧ failingCall.current.params.values.length = 2 ∧
      (failingCall.run { halt := true } (2 + 1)).2 = .running ∧
      (∀ i < 2 + 1, failingCall.callers.length <
        (failingCall.run { halt := true } (i + 1)).1.callers.length) ∧
      (failingCall.run { halt := true } (2 + 1)).1.callers.map (·.params.values.length) = [1] ∧
      (failingCall.run { halt := true } (2 + 1 + 1)).2 =
        .finished ⟨.undefined, false, some ⟨.undefinedLabel "nowhere", 3, "f"⟩⟩ := by
    decide +kernel
  obtain ⟨hrun, hbottom, hparams, hcall, hup, hcallers, hend⟩ := hfacts
  have hsession : ((Engine.new { halt := true }).load failing).Session :=
    .load (.new { halt := true }) failing
  have hreached : ((Engine.new { halt := true }).load failing).Reached failingCall :=
    Engine.reached_run (.new { halt := true }) failing [] 9 hrun
  have hin : Inside { halt := true } failingCall (failingCall.run { halt := true } (2 + 1)).1 :=
    inside_of_run hcall hup
  obtain ⟨p, home, result, _, _, henter, _⟩ := hin.waits
  obtain ⟨a, hone, ha⟩ := List.map_eq_singleton_iff.mp hcallers
  have hstack : (failingCall.run { halt := true } (2 + 1)).1.callers = [] ++ a :: [] := hone
  have hfault : YieldsFault { halt := true } failingCall (some p)
      ⟨.undefinedLabel "nowhere", 3, "f"⟩ a []
      (failingCall.run { halt := true } (2 + 1 + 1)).1.store :=
    .halted henter.calls hin (done_of_run hcall hend) rfl hstack hbottom.symm
  have hkeeps : failingCall.Keeps a [] (failingCall.run { halt := true } (2 + 1 + 1)).1.store :=
    (fault_atomic hsession hreached hfault).1
  exact ⟨p, a, _, hfault, hkeeps, hparams, ha⟩

end Machine

end AddressCode
